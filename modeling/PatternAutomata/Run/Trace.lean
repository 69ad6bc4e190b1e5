import PatternAutomata.Palette
import PatternAutomata.Run.Simulation
import PatternAutomata.Run.Verdict

/-!
# Traced runs

A traced run records what happens: the start, every symbol with what is active after it, and the
verdict.  A symbol that leaves nothing active is recorded as stuck; an ε-automaton goes on from
there, a deterministic automaton stops.
-/

namespace PatternAutomata

/-- What is active during a run. -/
inductive Active where
  | states (set : StateSet) -- the states an ε-automaton can be in
  | state (id : StateId)    -- the state of a deterministic automaton
deriving DecidableEq

/-- What happens during a run.  Positions count the symbols of the input from zero. -/
inductive Event where
  | start (active : Active)
  | step (position : Nat) (symbol : Char) (active : Active)
  | stuck (position : Nat) (symbol : Char)
  | finish (verdict : Verdict)
deriving DecidableEq

namespace Nfa

def eventAt (position : Nat) (symbol : Char) (active : StateSet) : Event :=
  if active.isEmpty then .stuck position symbol else .step position symbol (.states active)

def traceFrom (nfa : Nfa) (active : StateSet) (position : Nat) :
    List Char → Except Fault (List Event)
  | [] => .ok [.finish (.ofBool (active.contains nfa.accept))]
  | symbol :: rest => do
    let active ← nfa.advance active symbol
    let events ← traceFrom nfa active (position + 1) rest
    return eventAt position symbol active :: events

def trace (nfa : Nfa) (input : List Char) : Except Fault (List Event) := do
  let active ← nfa.initial
  let events ← nfa.traceFrom active 0 input
  return .start (.states active) :: events

end Nfa

namespace Dfa

def traceFrom (dfa : Dfa) (state : StateId) (position : Nat) :
    List Char → Except Fault (List Event)
  | [] => .ok [.finish (.ofBool (dfa.isAccepting state))]
  | symbol :: rest => do
    match ← dfa.next state symbol with
    | none => return [.stuck position symbol, .finish .rejected]
    | some target =>
      let events ← traceFrom dfa target (position + 1) rest
      return .step position symbol (.state target) :: events

def trace (dfa : Dfa) (input : List Char) : Except Fault (List Event) := do
  let events ← dfa.traceFrom dfa.start 0 input
  return .start (.state dfa.start) :: events

end Dfa

def Automaton.trace (automaton : Automaton) (input : List Char) : Except Fault (List Event) :=
  match automaton with
  | .nfa machine => machine.trace input
  | .dfa machine => machine.trace input

/-! ### Written events -/

/-- How much a written event tells about a set of active states. -/
inductive Verbosity where
  | normal  -- how many there are
  | verbose -- which ones
deriving DecidableEq, Repr

def Active.kind : Active → AutomatonKind
  | .states _ => .nfa
  | .state _ => .dfa

/-- What is active, as it is written. -/
def Active.text (palette : Palette) (verbosity : Verbosity) : Active → String
  | .state id => palette.paint palette.state s!"D{id}"
  | .states set =>
    match verbosity with
    | .verbose =>
      "\x7b" ++ ",".intercalate (set.ids.map fun id => palette.paint palette.state s!"{id}")
        ++ "\x7d"
    | .normal => s!"{set.size} " ++ if set.size = 1 then "state" else "states"

/-- A number with blanks before it, so that it takes three columns at least. -/
def padNumber (n : Nat) : String :=
  let digits := toString n
  String.ofList (List.replicate (3 - digits.length) ' ') ++ digits

def eventStart (palette : Palette) (position : Nat) (symbol : Char) : String :=
  padNumber position ++ "  " ++ palette.paint palette.symbol symbol.toString ++ " "
    ++ palette.paint palette.dim "->" ++ " "

def Event.line (palette : Palette) (verbosity : Verbosity) : Event → String
  | .start active =>
    palette.paint palette.dim (active.kind.text ++ " start") ++ " " ++ active.text palette verbosity
  | .step position symbol active =>
    eventStart palette position symbol ++ active.text palette verbosity
  | .stuck position symbol => eventStart palette position symbol ++ "stuck"
  | .finish .accepted => palette.paint palette.accept Verdict.accepted.text
  | .finish .rejected => Verdict.rejected.text

def acceptedIn (events : List Event) : Bool :=
  events.getLast? = some (.finish .accepted)

end PatternAutomata
