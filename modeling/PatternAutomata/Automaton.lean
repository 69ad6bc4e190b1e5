import PatternAutomata.Dfa.Basic
import PatternAutomata.Nfa.Basic

/-!
# Automata of either kind

The two kinds of automaton under one type, and the view that traversals have of an automaton: a
graph with a start, accepting states and, for each state, its edges in a fixed order.
-/

namespace PatternAutomata

/-- The kinds of automaton. -/
inductive AutomatonKind where
  | nfa -- nondeterministic, with edges that read nothing
  | dfa -- deterministic, with a full table
deriving DecidableEq, Repr, Inhabited

def AutomatonKind.text : AutomatonKind → String
  | .nfa => "NFA"
  | .dfa => "DFA"

/-- Reads the name of a kind; the case of ASCII letters does not matter. -/
def AutomatonKind.parse? (text : String) : Option AutomatonKind :=
  let lower := text.toList.map Char.toLower
  if lower = "nfa".toList then some .nfa
  else if lower = "dfa".toList then some .dfa
  else none

def AutomatonKind.unknownMessage (text : String) : String :=
  s!"unknown automaton kind '{text}' (expected 'nfa' or 'dfa')"

/-! ### Graphs -/

/-- The edges out of a state: those that read a symbol, then those that read nothing. -/
structure Edges where
  labeled : List (Char × StateId)
  epsilon : List StateId
deriving DecidableEq, Repr

def Edges.targets (edges : Edges) : List StateId :=
  edges.labeled.map (fun edge => edge.2) ++ edges.epsilon

/-- An automaton as a graph.  The edges of a state come in a fixed order. -/
structure Graph where
  /-- The number of states; no other name is that of a state. -/
  size : Nat
  start : StateId
  isAccepting : StateId → Bool
  edges : StateId → Except Fault Edges

def Nfa.graph (nfa : Nfa) : Graph where
  size := nfa.size
  start := nfa.start
  isAccepting state := decide (state = nfa.accept)
  edges state := do
    let node ← nfa.node state
    return ⟨node.labeled, node.epsilon⟩

/-- A deterministic automaton as a graph: the edges of a state read the symbols in ascending
order. -/
def Dfa.graph (dfa : Dfa) : Graph where
  size := dfa.size
  start := dfa.start
  isAccepting := dfa.isAccepting
  edges state := do
    let row ← dfa.row state
    return ⟨dfa.alphabet.zip row, []⟩

/-! ### Either kind -/

/-- An automaton of either kind. -/
inductive Automaton where
  | nfa (machine : Nfa)
  | dfa (machine : Dfa)

namespace Automaton

def kind : Automaton → AutomatonKind
  | .nfa _ => .nfa
  | .dfa _ => .dfa

/-- The number of states, reachable or not. -/
def size : Automaton → Nat
  | .nfa machine => machine.size
  | .dfa machine => machine.size

def isEmpty (automaton : Automaton) : Bool :=
  automaton.size == 0

def graph : Automaton → Graph
  | .nfa machine => machine.graph
  | .dfa machine => machine.graph

end Automaton

end PatternAutomata
