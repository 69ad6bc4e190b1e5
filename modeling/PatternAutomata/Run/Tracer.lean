import PatternAutomata.Run.Trace

/-!
# Runs that are told to a tracer

A tracer is told what happens during a run, at the time it happens, and keeps a state of its own.
A run with a tracer gives the answer of the run and what the tracer has become.  One tracer writes
what it is told, a line for each event.
-/

namespace PatternAutomata

variable {σ : Type}

/-- What a tracer makes of each event. -/
structure Tracer (σ : Type) where
  start : Active → σ → σ
  step : Nat → Char → Active → σ → σ
  stuck : Nat → Char → σ → σ
  finish : Verdict → σ → σ

/-- What the tracer makes of an event. -/
def Tracer.tell (tracer : Tracer σ) (state : σ) : Event → σ
  | .start active => tracer.start active state
  | .step position symbol active => tracer.step position symbol active state
  | .stuck position symbol => tracer.stuck position symbol state
  | .finish verdict => tracer.finish verdict state

/-- The tracer that writes a line for each event behind the lines it has. -/
def lineTracer (palette : Palette) (verbosity : Verbosity) : Tracer (List String) where
  start active lines := lines ++ [(Event.start active).line palette verbosity]
  step position symbol active lines :=
    lines ++ [(Event.step position symbol active).line palette verbosity]
  stuck position symbol lines := lines ++ [(Event.stuck position symbol).line palette verbosity]
  finish verdict lines := lines ++ [(Event.finish verdict).line palette verbosity]

theorem tell_lineTracer (palette : Palette) (verbosity : Verbosity) (lines : List String)
    (event : Event) :
    (lineTracer palette verbosity).tell lines event = lines ++ [event.line palette verbosity] := by
  cases event <;> rfl

theorem foldl_tell_lineTracer (palette : Palette) (verbosity : Verbosity) (lines : List String)
    (events : List Event) :
    events.foldl (lineTracer palette verbosity).tell lines =
      lines ++ events.map (Event.line palette verbosity) := by
  induction events generalizing lines with
  | nil => exact (List.append_nil lines).symm
  | cons event events ih =>
    rw [List.foldl_cons, ih, tell_lineTracer, List.append_assoc]
    rfl

namespace Nfa

def runFrom (nfa : Nfa) (tracer : Tracer σ) (active : StateSet) (position : Nat) (state : σ) :
    List Char → Except Fault (Bool × σ)
  | [] =>
    let accepted := active.contains nfa.accept
    .ok (accepted, tracer.finish (.ofBool accepted) state)
  | symbol :: rest => do
    let active ← nfa.advance active symbol
    let state :=
      if active.isEmpty then tracer.stuck position symbol state
      else tracer.step position symbol (.states active) state
    runFrom nfa tracer active (position + 1) state rest

def runWith (nfa : Nfa) (tracer : Tracer σ) (state : σ) (input : List Char) :
    Except Fault (Bool × σ) := do
  let active ← nfa.initial
  nfa.runFrom tracer active 0 (tracer.start (.states active) state) input

end Nfa

namespace Dfa

def runFrom (dfa : Dfa) (tracer : Tracer σ) (current : StateId) (position : Nat) (state : σ) :
    List Char → Except Fault (Bool × σ)
  | [] =>
    let accepted := dfa.isAccepting current
    .ok (accepted, tracer.finish (.ofBool accepted) state)
  | symbol :: rest => do
    match ← dfa.next current symbol with
    | none => return (false, tracer.finish .rejected (tracer.stuck position symbol state))
    | some target =>
      runFrom dfa tracer target (position + 1) (tracer.step position symbol (.state target) state)
        rest

def runWith (dfa : Dfa) (tracer : Tracer σ) (state : σ) (input : List Char) :
    Except Fault (Bool × σ) :=
  dfa.runFrom tracer dfa.start 0 (tracer.start (.state dfa.start) state) input

end Dfa

def Automaton.runWith (automaton : Automaton) (tracer : Tracer σ) (state : σ)
    (input : List Char) : Except Fault (Bool × σ) :=
  match automaton with
  | .nfa machine => machine.runWith tracer state input
  | .dfa machine => machine.runWith tracer state input

end PatternAutomata
