import PatternAutomata.Json.Value
import PatternAutomata.Listing.Basic
import PatternAutomata.Palette

/-!
# Written listings

A listing is written in three formats: a transcript with one line for each edge, the source of a
Graphviz drawing, and JSON.
-/

namespace PatternAutomata

/-- The formats of a written listing. -/
inductive ListingFormat where
  | text
  | dot
  | json
deriving DecidableEq, Repr, Inhabited

namespace Listing

def edgeLine (palette : Palette) (edge : ListedEdge) : String :=
  palette.paint palette.state (name edge.source) ++ " "
    ++ palette.paint palette.dim "--" ++ " "
    ++ palette.paint palette.symbol edge.label.text ++ " "
    ++ palette.paint palette.dim "-->" ++ " "
    ++ palette.paint palette.state (name edge.target)

/-- The names of the accepting states; a listing without any says so. -/
def acceptNames (palette : Palette) (accepts : List Nat) : String :=
  if accepts.isEmpty then palette.paint palette.dim "(none)"
  else ", ".intercalate (accepts.map fun label => palette.paint palette.accept (name label))

/-- The transcript: the edges, an empty line, the start and the accepting states. -/
def transcript (listing : Listing) (palette : Palette) : String :=
  String.join (listing.edges.map fun edge => edgeLine palette edge ++ "\n")
    ++ "\n"
    ++ "Start: " ++ palette.paint palette.state (name listing.start) ++ "\n"
    ++ "Accept: " ++ acceptNames palette listing.accepts ++ "\n"

def dotState (listing : Listing) (label : Nat) : String :=
  let shape := if label ∈ listing.accepts then "doublecircle" else "circle"
  s!"  S{label} [shape={shape}];\n"

def dotEdge (edge : ListedEdge) : String :=
  s!"  S{edge.source} -> S{edge.target} [label=\"" ++ edge.label.text ++ "\"];\n"

/-- The source of a drawing: states in the order of their labels, then the edges. -/
def dot (listing : Listing) : String :=
  "digraph G \x7b\n  rankdir=LR;\n"
    ++ String.join ((List.range listing.size).map (dotState listing))
    ++ String.join (listing.edges.map dotEdge)
    ++ "\x7d\n"

def toJson (listing : Listing) : Json.Value :=
  .object [
    ("states", .number listing.size),
    ("start", .number listing.start),
    ("accepts", .list (listing.accepts.map .number)),
    ("edges", .list (listing.edges.map fun edge =>
      .object [
        ("from", .number edge.source),
        ("label", .text edge.label.text),
        ("to", .number edge.target)]))]

/-- The listing in a format; only the transcript is coloured. -/
def render (listing : Listing) (format : ListingFormat) (colored : Bool) : String :=
  match format with
  | .text => listing.transcript (.ofChoice colored)
  | .dot => listing.dot
  | .json => listing.toJson.render .pretty ++ "\n"

end Listing

end PatternAutomata
