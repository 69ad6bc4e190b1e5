import PatternAutomata.Listing.Basic
import PatternAutomata.Nfa.Closure

/-!
# Snapshots

A snapshot records a compiled automaton: the postfix, the kind and the closure, from which it can be
built again, and its listing, which can be shown without building it.  The states of the listing
are recorded by their printed names.
-/

namespace PatternAutomata

/-- An edge of a snapshot. -/
structure SnapshotEdge where
  source : String
  label : Label
  target : String
deriving DecidableEq, Repr

/-- The record of a compiled automaton. -/
structure Snapshot where
  version : Nat
  kind : AutomatonKind
  tokens : String
  /-- The pattern text, if it is known. -/
  regex : Option String
  closure : ClosureMode
  start : String
  accepts : List String
  edges : List SnapshotEdge
deriving DecidableEq, Repr

namespace Snapshot

def currentVersion : Nat := 1

def ofListing (kind : AutomatonKind) (tokens : String) (regex : Option String)
    (closure : ClosureMode) (listing : Listing) : Snapshot where
  version := currentVersion
  kind := kind
  tokens := tokens
  regex := regex
  closure := closure
  start := Listing.name listing.start
  accepts := listing.accepts.map Listing.name
  edges := listing.edges.map fun edge =>
    ⟨Listing.name edge.source, edge.label, Listing.name edge.target⟩

def edgeLine (edge : SnapshotEdge) : String :=
  s!"{edge.source} -- " ++ edge.label.text ++ s!" --> {edge.target}"

/-- The recorded listing as lines, without a line end at the end. -/
def transcript (snapshot : Snapshot) : String :=
  let accepts := ", ".intercalate snapshot.accepts
  "\n".intercalate
    (snapshot.edges.map edgeLine ++ ["", s!"Start: {snapshot.start}", s!"Accept: {accepts}"])

end Snapshot

end PatternAutomata
