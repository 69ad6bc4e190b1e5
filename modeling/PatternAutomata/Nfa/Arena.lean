import PatternAutomata.Nfa.Basic

/-!
# Building ε-automata

An arena is an ε-automaton under construction: states are added one by one, edges join states that
are there already, and closing the arena names the start and the accepting state.  An edge that
names a state outside the arena is a fault and changes nothing; the target is looked at first.
-/

namespace PatternAutomata.Nfa

/-- An ε-automaton under construction. -/
structure Arena where
  nodes : Array Node
  ids : IdSupply
  closed : Closed nodes
  allocated_eq : ids.allocated = nodes.size

namespace Arena

/-- Where there are no states, no edge leads anywhere. -/
theorem closed_empty : Closed #[] :=
  fun node hnode => absurd hnode (Array.not_mem_empty node)

/-- The arena without states. -/
def empty : Arena where
  nodes := #[]
  ids := .fresh
  closed := closed_empty
  allocated_eq := IdSupply.allocated_fresh

instance : Inhabited Arena := ⟨empty⟩

def size (arena : Arena) : Nat := arena.ids.allocated

def isEmpty (arena : Arena) : Bool := arena.size == 0

theorem closed_push {nodes : Array Node} (h : Closed nodes) : Closed (nodes.push {}) := by
  intro node hnode target htarget
  rw [Array.size_push]
  rcases Array.mem_push.mp hnode with hnode | rfl
  · exact Nat.lt_succ_of_lt (h node hnode target htarget)
  · simp [Node.targets] at htarget

theorem closed_set {nodes : Array Node} (h : Closed nodes) {i : Nat} (hi : i < nodes.size)
    {node : Node} (hnode : ∀ target ∈ node.targets, target < nodes.size) :
    Closed (nodes.set i node) := by
  intro other hother target htarget
  rw [Array.size_set]
  rcases Array.mem_or_eq_of_mem_set hother with hother | rfl
  · exact h other hother target htarget
  · exact hnode target htarget

/-- Adds a state without edges. -/
def addState (arena : Arena) : StateId × Arena :=
  (arena.ids.take.1,
    { nodes := arena.nodes.push {}
      ids := arena.ids.take.2
      closed := closed_push arena.closed
      allocated_eq := by simp [IdSupply.take, arena.allocated_eq] })

/-- Adds the edge from `source` to `target` that reads `symbol`, unless it is there. -/
def addMove (arena : Arena) (source : StateId) (symbol : Char) (target : StateId) :
    Except Fault Arena :=
  if htarget : target < arena.nodes.size then
    if hsource : source < arena.nodes.size then
      .ok
        { arena with
          nodes := arena.nodes.set source (arena.nodes[source].addMove symbol target)
          closed := closed_set arena.closed hsource fun t ht => by
            rcases Node.mem_targets_addMove ht with ht | rfl
            · exact arena.closed _ (Array.getElem_mem hsource) t ht
            · exact htarget
          allocated_eq := by rw [Array.size_set]; exact arena.allocated_eq }
    else .error (.unallocated source)
  else .error (.unallocated target)

/-- Adds the edge from `source` to `target` that reads nothing, unless it is there. -/
def addEpsilon (arena : Arena) (source target : StateId) : Except Fault Arena :=
  if htarget : target < arena.nodes.size then
    if hsource : source < arena.nodes.size then
      .ok
        { arena with
          nodes := arena.nodes.set source (arena.nodes[source].addEpsilon target)
          closed := closed_set arena.closed hsource fun t ht => by
            rcases Node.mem_targets_addEpsilon ht with ht | rfl
            · exact arena.closed _ (Array.getElem_mem hsource) t ht
            · exact htarget
          allocated_eq := by rw [Array.size_set]; exact arena.allocated_eq }
    else .error (.unallocated source)
  else .error (.unallocated target)

def finish (arena : Arena) (start accept : StateId) : Except Fault Nfa :=
  if hstart : start < arena.nodes.size then
    if haccept : accept < arena.nodes.size then
      .ok ⟨arena.nodes, start, accept, arena.closed, hstart, haccept⟩
    else .error (.unallocated accept)
  else .error (.unallocated start)

end Arena

end PatternAutomata.Nfa
