import PatternAutomata.Fault

/-!
# Deterministic automata

A deterministic automaton is a table: a row for each state, a cell for each symbol of an ascending
alphabet.  Every cell is filled, but a cell may name a state that the table does not have; reading
on from there is a fault.  Each state keeps the set of states of another automaton it stands for.
-/

namespace PatternAutomata

/-- A deterministic automaton with a full table. -/
structure Dfa where
  alphabet : List Char
  table : Array (List StateId)
  /-- What each state stands for. -/
  subsets : Array StateSet
  accepting : StateSet
  start : StateId
  /-- The state that stands for the empty set, if there is one. -/
  dead : Option StateId
  alphabet_ascending : Ascending Char.toNat alphabet
  row_length : ∀ row ∈ table, row.length = alphabet.length
  subsets_size : subsets.size = table.size
  start_lt : start < table.size

namespace Dfa

def size (dfa : Dfa) : Nat := dfa.table.size

def symbolIndex? (dfa : Dfa) (symbol : Char) : Option Nat :=
  dfa.alphabet.idxOf? symbol

/-- The successors of a state, one for each symbol of the alphabet. -/
def row (dfa : Dfa) (state : StateId) : Except Fault (List StateId) :=
  match dfa.table[state]? with
  | some row => .ok row
  | none => .error (.dfaState state dfa.size)

/-- The successor of a state under a symbol; none if the alphabet does not have the symbol, whatever
the state. -/
def next (dfa : Dfa) (state : StateId) (symbol : Char) : Except Fault (Option StateId) :=
  match dfa.symbolIndex? symbol with
  | none => .ok none
  | some index => do
    let row ← dfa.row state
    match row[index]? with
    | some target => return some target
    | none => throw .outOfBounds

def isAccepting (dfa : Dfa) (state : StateId) : Bool :=
  dfa.accepting.contains state

def subset (dfa : Dfa) (state : StateId) : Except Fault StateSet :=
  match dfa.subsets[state]? with
  | some subset => .ok subset
  | none => .error .outOfBounds

theorem row_of_le {dfa : Dfa} {state : StateId} (h : dfa.size ≤ state) :
    dfa.row state = .error (.dfaState state dfa.size) := by
  unfold row
  rw [Array.getElem?_eq_none (show dfa.table.size ≤ state from h)]

end Dfa

end PatternAutomata
