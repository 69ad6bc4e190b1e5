import PatternAutomata.Json.Value
import PatternAutomata.Snapshot.Basic

/-!
# Written snapshots

A snapshot is written as a JSON object.  The pattern text is left out if it is not known.
-/

namespace PatternAutomata

def SnapshotEdge.toJson (edge : SnapshotEdge) : Json.Value :=
  .object [
    ("from", .text edge.source),
    ("symbol", .text edge.label.text),
    ("to", .text edge.target)]

namespace Snapshot

def regexMember (regex : Option String) : List (String × Json.Value) :=
  match regex with
  | some text => [("regex", .text text)]
  | none => []

def members (snapshot : Snapshot) : List (String × Json.Value) :=
  [("version", .number snapshot.version),
    ("type", .text snapshot.kind.text),
    ("postfix", .text snapshot.tokens)]
  ++ regexMember snapshot.regex
  ++ [("closure", .text snapshot.closure.text),
    ("start", .text snapshot.start),
    ("accepts", .list (snapshot.accepts.map .text)),
    ("edges", .list (snapshot.edges.map SnapshotEdge.toJson))]

def toJson (snapshot : Snapshot) : Json.Value :=
  .object snapshot.members

def render (snapshot : Snapshot) (layout : Json.Layout) : String :=
  snapshot.toJson.render layout

end Snapshot

end PatternAutomata
