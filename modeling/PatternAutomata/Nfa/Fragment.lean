import PatternAutomata.Nfa.Arena
import PatternAutomata.Pattern.Postfix

/-!
# ε-automata from postfixes

Every operand of a postfix becomes a fragment: a part of the arena with one state to enter it and
one to leave it.  An operator joins the fragments of its operands with edges that read nothing.  All
tokens but concatenation add two states, and no edge is ever taken away again.
-/

namespace PatternAutomata.Nfa

/-- A part of an arena: entered at `start`, left at `accept`. -/
structure Fragment where
  start : StateId
  accept : StateId
deriving DecidableEq, Repr

/-- An arena with the fragments that are not joined yet, the latest first. -/
structure Assembly where
  arena : Arena := .empty
  fragments : List Fragment := []

namespace Assembly

def addFragment (arena : Arena) (rest : List Fragment)
    (edges : Arena → Fragment → Except Fault Arena) : Except BuildError Assembly := do
  let (start, arena) := arena.addState
  let (accept, arena) := arena.addState
  let arena ← liftFault (edges arena ⟨start, accept⟩)
  return ⟨arena, ⟨start, accept⟩ :: rest⟩

/-- Adds edges that read nothing, one after the other. -/
def addEpsilons (arena : Arena) (edges : List (StateId × StateId)) : Except Fault Arena :=
  edges.foldlM (fun arena edge => arena.addEpsilon edge.1 edge.2) arena

/-- The edges that repeat `inner`: from the new start into it and from its end to the new end, with
an edge around it if it may be skipped and one back if it may be read again. -/
def repeatEdges (inner outer : Fragment) (skip again : Bool) : List (StateId × StateId) :=
  [(outer.start, inner.start)]
    ++ (if skip then [(outer.start, outer.accept)] else [])
    ++ (if again then [(inner.accept, inner.start)] else [])
    ++ [(inner.accept, outer.accept)]

def choiceEdges (left right outer : Fragment) : List (StateId × StateId) :=
  [(outer.start, left.start), (outer.start, right.start),
    (left.accept, outer.accept), (right.accept, outer.accept)]

def add (assembly : Assembly) (position : Nat) (token : Token) : Except BuildError Assembly :=
  let missing : Except BuildError Assembly := .error (.operandUnderflow token.char position)
  let repeated (skip again : Bool) : Except BuildError Assembly :=
    match assembly.fragments with
    | inner :: rest =>
      addFragment assembly.arena rest fun arena outer =>
        addEpsilons arena (repeatEdges inner outer skip again)
    | [] => missing
  match token with
  | .symbol c =>
    addFragment assembly.arena assembly.fragments fun arena outer =>
      arena.addMove outer.start c outer.accept
  | .star => repeated true true
  | .plus => repeated false true
  | .optional => repeated true false
  | .concat =>
    match assembly.fragments with
    | right :: left :: rest => do
      let arena ← liftFault (assembly.arena.addEpsilon left.accept right.start)
      return ⟨arena, ⟨left.start, right.accept⟩ :: rest⟩
    | _ => missing
  | .alternate =>
    match assembly.fragments with
    | right :: left :: rest =>
      addFragment assembly.arena rest fun arena outer =>
        addEpsilons arena (choiceEdges left right outer)
    | _ => missing

/-- Adds the fragments of tokens, the first of which is at the given position. -/
def addAll (assembly : Assembly) (position : Nat) : Postfix → Except BuildError Assembly
  | [] => .ok assembly
  | token :: rest => do
    let next ← assembly.add position token
    next.addAll (position + 1) rest

/-- The automaton of the fragment that is left, if it is the only one. -/
def finish (assembly : Assembly) : Except BuildError Nfa :=
  match assembly.fragments with
  | [] => .error .emptyPostfix
  | [whole] => liftFault (assembly.arena.finish whole.start whole.accept)
  | more => .error (.leftoverOperands more.length)

end Assembly

def ofPostfix (tokens : Postfix) : Except BuildError Nfa := do
  let assembly ← Assembly.addAll {} 0 tokens
  assembly.finish

end PatternAutomata.Nfa
