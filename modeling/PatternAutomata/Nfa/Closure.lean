import PatternAutomata.Nfa.Basic

/-!
# Moves and closures of sets of states

What a set of states becomes when a symbol is read, and when edges may be followed freely.  There
are two closures: along the edges that read nothing, and along every edge as if it read nothing.
-/

namespace PatternAutomata

/-- Which edges a closure follows. -/
inductive ClosureMode where
  | epsilon      -- the edges that read nothing
  | reachability -- every edge
deriving DecidableEq, Repr, Inhabited

def ClosureMode.text : ClosureMode → String
  | .epsilon => "epsilon"
  | .reachability => "reachability"

/-- Reads the name of a closure mode, or its first syllables; the case of ASCII letters does not
matter. -/
def ClosureMode.parse? (text : String) : Option ClosureMode :=
  let lower := text.toList.map Char.toLower
  if lower = "epsilon".toList || lower = "eps".toList then some .epsilon
  else if lower = "reachability".toList || lower = "reach".toList then some .reachability
  else none

def ClosureMode.unknownMessage (text : String) : String :=
  s!"unknown closure mode '{text}' (expected 'epsilon' or 'reachability')"

namespace Nfa

def step (nfa : Nfa) (states : StateSet) (symbol : Char) : Except Fault StateSet :=
  states.ids.foldlM (fun reached state => do
    let node ← nfa.node state
    return reached.insertAll (node.on symbol)) ∅

def Node.followed (mode : ClosureMode) (node : Node) : List StateId :=
  match mode with
  | .epsilon => node.epsilon
  | .reachability => node.targets

/-- Puts a state on the stack and into the set of states seen, if it was not seen before. -/
def discover (work : List StateId × StateSet) (state : StateId) : List StateId × StateSet :=
  if state ∈ work.2 then work else (state :: work.1, work.2.insert state)

/-- Takes states off the stack and puts those they lead to on it, until it is empty.  The fuel
counts the states taken off. -/
def expand (nfa : Nfa) (mode : ClosureMode) :
    Nat → List StateId → StateSet → Except Fault StateSet
  | _, [], seen => .ok seen
  | 0, _ :: _, seen => .ok seen
  | fuel + 1, state :: stack, seen => do
    let node ← nfa.node state
    let work := (node.followed mode).foldl discover (stack, seen)
    expand nfa mode fuel work.1 work.2

/-- The states reached from the seeds along the edges that the mode follows, the seeds included.
Every state is taken off the stack at most once, so the number of states bounds the work. -/
def closure (nfa : Nfa) (mode : ClosureMode) (seeds : StateSet) : Except Fault StateSet :=
  expand nfa mode (nfa.size + 1) seeds.ids.reverse seeds

end Nfa

end PatternAutomata
