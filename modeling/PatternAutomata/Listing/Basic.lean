import PatternAutomata.Automaton
import PatternAutomata.Symbol

/-!
# Listings

A listing enumerates the part of an automaton that its start reaches.  The states are labelled
0, 1, 2, … in the order in which a depth-first walk first enters them, where a state's edges are
followed in their order; the start is 0.  The edges come in the order of their sources' labels, so
the listing does not depend on how the automaton names its states.
-/

namespace PatternAutomata

/-- An edge between labels. -/
structure ListedEdge where
  source : Nat
  label : Label
  target : Nat
deriving DecidableEq, Repr

/-- The reachable part of an automaton under its labels. -/
structure Listing where
  /-- The states in the order of their labels. -/
  states : List StateId
  edges : List ListedEdge
  /-- The labels of the accepting states, ascending. -/
  accepts : List Nat
deriving DecidableEq, Repr

namespace Graph

/-- Takes states off the stack; one that was not entered before is entered now, and its targets go
on the stack so that the first of them is taken next.  The fuel counts the states taken off. -/
def walk (graph : Graph) : Nat → List StateId → List StateId → Except Fault (List StateId)
  | _, [], entered => .ok entered
  | 0, _ :: _, entered => .ok entered
  | fuel + 1, state :: stack, entered =>
    if state ∈ entered then walk graph fuel stack entered
    else do
      let edges ← graph.edges state
      walk graph fuel (edges.targets ++ stack) (entered ++ [state])

def outDegree (graph : Graph) (state : StateId) : Nat :=
  match graph.edges state with
  | .ok edges => edges.targets.length
  | .error _ => 0

def edgesBefore (graph : Graph) : Nat → Nat
  | 0 => 0
  | bound + 1 => edgesBefore graph bound + graph.outDegree bound

def edgeCount (graph : Graph) : Nat :=
  graph.edgesBefore graph.size

/-- The states that the start reaches, in the order in which the walk enters them.  The stack takes
one state at the start and one for each edge of a state entered. -/
def preorder (graph : Graph) : Except Fault (List StateId) :=
  graph.walk (graph.edgeCount + 1) [graph.start] []

/-- The label of a state: its place in the order of labels. -/
def labelIn (states : List StateId) (state : StateId) : Except Fault Nat :=
  match states.idxOf? state with
  | some label => .ok label
  | none => .error .outOfBounds

/-- The edges of one state between labels, those that read a symbol first. -/
def listEdges (states : List StateId) (source : Nat) (edges : Edges) :
    Except Fault (List ListedEdge) := do
  let labeled ← edges.labeled.mapM fun (symbol, target) => do
    return ⟨source, .symbol symbol, ← labelIn states target⟩
  let epsilon ← edges.epsilon.mapM fun target => do
    return ⟨source, .epsilon, ← labelIn states target⟩
  return labeled ++ epsilon

def listFrom (graph : Graph) (states : List StateId) (label : Nat) :
    List StateId → Except Fault (List ListedEdge)
  | [] => .ok []
  | state :: rest => do
    let edges ← graph.edges state
    let listed ← listEdges states label edges
    let more ← listFrom graph states (label + 1) rest
    return listed ++ more

def list (graph : Graph) : Except Fault Listing := do
  let states ← graph.preorder
  let edges ← graph.listFrom states 0 states
  let accepts := (List.range states.length).filter fun label =>
    match states[label]? with
    | some state => graph.isAccepting state
    | none => false
  return ⟨states, edges, accepts⟩

end Graph

namespace Listing

def size (listing : Listing) : Nat := listing.states.length

def isEmpty (listing : Listing) : Bool := listing.states.isEmpty

def start (_ : Listing) : Nat := 0

/-- The label of a state, if it is listed. -/
def labelOf? (listing : Listing) (state : StateId) : Option Nat :=
  listing.states.idxOf? state

def stateAt? (listing : Listing) (label : Nat) : Option StateId :=
  listing.states[label]?

def name (label : Nat) : String := s!"S{label}"

end Listing

def Automaton.list (automaton : Automaton) : Except Fault Listing :=
  automaton.graph.list

end PatternAutomata
