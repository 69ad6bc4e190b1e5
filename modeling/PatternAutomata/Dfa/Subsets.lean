import PatternAutomata.BuildError
import PatternAutomata.Nfa.Closure

/-!
# Deterministic automata from ε-automata

Each state of the deterministic automaton stands for the set of states the ε-automaton can be in.
The sets are found by exploring from the start, states in the order of their names and symbols in
ascending order, so that the names follow the order of discovery.  The empty set has the dead state,
which leads to itself and is not explored.  The closure along edges that read nothing keeps the
language; the closure along every edge gives a larger one.
-/

namespace PatternAutomata.Dfa

/-- The state for a set: the one that is there already, or a new one. -/
def Table.stateFor (table : Table) (accept : StateId) (subset : StateSet) : StateId × Table :=
  if subset.isEmpty then table.deadState
  else
    match table.subsets.findIdx? (· == subset) with
    | some state => (state, table)
    | none =>
      let (state, table) := table.addState subset
      (state, if subset.contains accept then table.markAccepting state else table)

/-- What a set becomes when a symbol is read, under a closure. -/
def successor (nfa : Nfa) (mode : ClosureMode) (subset : StateSet) (symbol : Char) :
    Except Fault StateSet := do
  let moved ← nfa.step subset symbol
  nfa.closure mode moved

/-- Writes the cells of a state that stands for `subset`, from the symbol at `index` on. -/
def Table.writeRow (nfa : Nfa) (mode : ClosureMode) (source : StateId) (subset : StateSet)
    (table : Table) (index : Nat) : List Char → Except Fault Table
  | [] => .ok table
  | symbol :: symbols => do
    let reached ← successor nfa mode subset symbol
    let (target, table) := table.stateFor nfa.accept reached
    let table ← table.setTransition source index target
    writeRow nfa mode source subset table (index + 1) symbols

/-- Writes the rows of the states from `source` on, among them those that are found on the way.  The
fuel counts the states. -/
def Table.explore (nfa : Nfa) (mode : ClosureMode) :
    Nat → StateId → Table → Except Fault Table
  | 0, _, table => .ok table
  | fuel + 1, source, table =>
    match table.subsets[source]? with
    | none => .ok table
    | some subset => do
      let table ←
        if subset.isEmpty then .ok table
        else table.writeRow nfa mode source subset 0 table.alphabet
      explore nfa mode fuel (source + 1) table

end PatternAutomata.Dfa

namespace PatternAutomata.Nfa

/-- The deterministic automaton of an ε-automaton under a closure.  Its states stand for different
sets of states, so there are at most as many as there are such sets. -/
def determinize (nfa : Nfa) (mode : ClosureMode) : Except BuildError Dfa := do
  let seed ← liftFault (nfa.closure mode (.singleton nfa.start))
  let (start, table) := (Dfa.Table.new nfa.alphabet).stateFor nfa.accept seed
  let table ← liftFault (table.explore nfa mode (Nat.pow 2 nfa.size + 1) 0)
  (table.finish start).mapError .table

end PatternAutomata.Nfa
