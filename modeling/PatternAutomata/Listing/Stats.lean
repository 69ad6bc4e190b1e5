import PatternAutomata.Json.Value
import PatternAutomata.Listing.Basic

/-!
# Size metrics

Counts over the reachable part of an automaton, taken from its listing.
-/

namespace PatternAutomata

/-- The counts of a listing. -/
structure Stats where
  states : Nat
  /-- Edges that read a symbol. -/
  transitions : Nat
  epsilonTransitions : Nat
  accepting : Nat
  /-- States with an edge that reads nothing. -/
  epsilonStates : Nat
  /-- States counted in neither of the two kinds before, or zero if these overlap in more. -/
  other : Nat
  /-- How many edges read each symbol, by ascending symbol. -/
  symbolFrequency : List (Char × Nat)
deriving DecidableEq, Repr

def ListedEdge.symbol? (edge : ListedEdge) : Option Char :=
  match edge.label with
  | .symbol c => some c
  | .epsilon => none

def Listing.stats (listing : Listing) : Stats :=
  let symbols := listing.edges.filterMap ListedEdge.symbol?
  let epsilonEdges := listing.edges.filter fun edge => edge.label = .epsilon
  let epsilonStates := (List.range listing.size).countP fun label =>
    epsilonEdges.any fun edge => edge.source = label
  { states := listing.size
    transitions := symbols.length
    epsilonTransitions := epsilonEdges.length
    accepting := listing.accepts.length
    epsilonStates := epsilonStates
    other := listing.size - (listing.accepts.length + epsilonStates)
    symbolFrequency := (ascendingOf Char.toNat symbols).map fun c => (c, symbols.count c) }

namespace Stats

/-- The counts as lines, with the symbols on the last. -/
def text (stats : Stats) : String :=
  s!"states:              {stats.states}\n"
    ++ s!"transitions:         {stats.transitions}\n"
    ++ s!"epsilon transitions: {stats.epsilonTransitions}\n"
    ++ s!"accepting states:    {stats.accepting}\n"
    ++ s!"epsilon states:      {stats.epsilonStates}\n"
    ++ s!"other states:        {stats.other}\n"
    ++ "symbols:             "
    ++ " ".intercalate (stats.symbolFrequency.map fun (c, count) => s!"{c}={count}") ++ "\n"

def toJson (stats : Stats) : Json.Value :=
  .object [
    ("states", .number stats.states),
    ("transitions", .number stats.transitions),
    ("epsilon_transitions", .number stats.epsilonTransitions),
    ("accepting", .number stats.accepting),
    ("epsilon_states", .number stats.epsilonStates),
    ("other", .number stats.other),
    ("symbol_frequency",
      .object (stats.symbolFrequency.map fun (c, count) => (c.toString, .number count)))]

end Stats

end PatternAutomata
