import PatternAutomata.Automaton
import PatternAutomata.Nfa.Closure

/-!
# Running an automaton

An ε-automaton runs by keeping the set of states it can be in; when the set becomes empty it stays
empty until the input ends.  A deterministic automaton runs along its table, and a symbol that its
alphabet does not have ends the run at once.
-/

namespace PatternAutomata

namespace Nfa

def initial (nfa : Nfa) : Except Fault StateSet :=
  nfa.closure .epsilon (.singleton nfa.start)

def advance (nfa : Nfa) (active : StateSet) (symbol : Char) : Except Fault StateSet := do
  let moved ← nfa.step active symbol
  nfa.closure .epsilon moved

def accepts (nfa : Nfa) (input : List Char) : Except Fault Bool := do
  let start ← nfa.initial
  let final ← input.foldlM nfa.advance start
  return final.contains nfa.accept

end Nfa

namespace Dfa

def acceptsFrom (dfa : Dfa) (state : StateId) : List Char → Except Fault Bool
  | [] => .ok (dfa.isAccepting state)
  | symbol :: rest => do
    match ← dfa.next state symbol with
    | none => return false
    | some target => acceptsFrom dfa target rest

def accepts (dfa : Dfa) (input : List Char) : Except Fault Bool :=
  dfa.acceptsFrom dfa.start input

end Dfa

def Automaton.accepts (automaton : Automaton) (input : List Char) : Except Fault Bool :=
  match automaton with
  | .nfa machine => machine.accepts input
  | .dfa machine => machine.accepts input

end PatternAutomata
