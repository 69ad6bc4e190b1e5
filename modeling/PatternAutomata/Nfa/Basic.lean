import PatternAutomata.Fault

/-!
# ε-automata

A nondeterministic automaton with one start state, one accepting state and edges that read one
symbol or nothing.  The states live in one array and an edge names its target by its place there.
Every edge of an automaton ends inside it, and so do its start and its accepting state: this is
part of the type, so no edge of an `Nfa` leads nowhere.
-/

namespace PatternAutomata

namespace Nfa

/-- The edges out of one state. -/
structure Node where
  /-- The targets of each symbol, symbols and targets in the order of their first addition. -/
  moves : List (Char × List StateId) := []
  /-- The targets of the edges that read nothing, in the order of their addition. -/
  epsilon : List StateId := []
deriving DecidableEq, Repr, Inhabited

def appendNew (xs : List StateId) (x : StateId) : List StateId :=
  if x ∈ xs then xs else xs ++ [x]

theorem mem_appendNew {xs : List StateId} {x y : StateId} :
    y ∈ appendNew xs x ↔ y ∈ xs ∨ y = x := by
  unfold appendNew
  split
  · next h => exact ⟨.inl, fun hy => hy.elim id (fun e => e ▸ h)⟩
  · simp

/-- Adds a target under a symbol; a symbol that is new gets its entry at the end. -/
def addTarget (symbol : Char) (target : StateId) :
    List (Char × List StateId) → List (Char × List StateId)
  | [] => [(symbol, [target])]
  | (c, targets) :: rest =>
    if c = symbol then (c, appendNew targets target) :: rest
    else (c, targets) :: addTarget symbol target rest

namespace Node

/-- The edges that read a symbol, in order. -/
def labeled (node : Node) : List (Char × StateId) :=
  node.moves.flatMap (fun (symbol, targets) => targets.map (fun target => (symbol, target)))

/-- The targets of all edges, those that read a symbol first. -/
def targets (node : Node) : List StateId :=
  node.moves.flatMap (fun entry => entry.2) ++ node.epsilon

def on (node : Node) (symbol : Char) : List StateId :=
  match node.moves.find? (fun entry => entry.1 = symbol) with
  | some entry => entry.2
  | none => []

/-- The node with one more edge that reads `symbol`; an edge that is there already is kept once. -/
def addMove (node : Node) (symbol : Char) (target : StateId) : Node :=
  { node with moves := addTarget symbol target node.moves }

def addEpsilon (node : Node) (target : StateId) : Node :=
  { node with epsilon := appendNew node.epsilon target }

theorem mem_flatMap_addTarget {symbol : Char} {target t : StateId}
    {moves : List (Char × List StateId)}
    (h : t ∈ (addTarget symbol target moves).flatMap (fun entry => entry.2)) :
    t ∈ moves.flatMap (fun entry => entry.2) ∨ t = target := by
  induction moves with
  | nil => simpa [addTarget] using h
  | cons entry rest ih =>
    obtain ⟨c, ts⟩ := entry
    simp only [addTarget] at h
    split at h
    · rw [List.flatMap_cons, List.mem_append] at h
      rw [List.flatMap_cons, List.mem_append]
      rcases h with h | h
      · exact (mem_appendNew.mp h).imp_left .inl
      · exact .inl (.inr h)
    · rw [List.flatMap_cons, List.mem_append] at h
      rw [List.flatMap_cons, List.mem_append, or_assoc]
      exact h.imp_right ih

theorem mem_targets_addMove {node : Node} {symbol : Char} {target t : StateId}
    (h : t ∈ (node.addMove symbol target).targets) : t ∈ node.targets ∨ t = target := by
  rw [targets, List.mem_append] at h ⊢
  rcases h with h | h
  · rcases mem_flatMap_addTarget h with h | h
    · exact .inl (.inl h)
    · exact .inr h
  · exact .inl (.inr h)

theorem mem_targets_addEpsilon {node : Node} {target t : StateId}
    (h : t ∈ (node.addEpsilon target).targets) : t ∈ node.targets ∨ t = target := by
  rw [targets, List.mem_append] at h ⊢
  rcases h with h | h
  · exact .inl (.inl h)
  · exact (mem_appendNew.mp h).imp_left .inr

theorem mem_targets_of_mem_on {node : Node} {symbol : Char} {t : StateId} (h : t ∈ node.on symbol) :
    t ∈ node.targets := by
  unfold on at h
  split at h
  · next entry hfind =>
    exact List.mem_append_left _ (List.mem_flatMap.mpr ⟨entry, List.mem_of_find?_eq_some hfind, h⟩)
  · cases h

end Node

def Closed (nodes : Array Node) : Prop :=
  ∀ node ∈ nodes, ∀ target ∈ node.targets, target < nodes.size

end Nfa

/-- An ε-automaton. -/
structure Nfa where
  nodes : Array Nfa.Node
  start : StateId
  accept : StateId
  closed : Nfa.Closed nodes
  start_lt : start < nodes.size
  accept_lt : accept < nodes.size

namespace Nfa

def size (nfa : Nfa) : Nat := nfa.nodes.size

def node (nfa : Nfa) (state : StateId) : Except Fault Node :=
  match nfa.nodes[state]? with
  | some node => .ok node
  | none => .error (.nfaState state nfa.size)

/-- The symbols on the edges, ascending and each once. -/
def alphabet (nfa : Nfa) : List Char :=
  ascendingOf Char.toNat (nfa.nodes.toList.flatMap (fun node => node.moves.map (fun m => m.1)))

theorem node_of_lt {nfa : Nfa} {state : StateId} (h : state < nfa.nodes.size) :
    nfa.node state = .ok nfa.nodes[state] := by
  unfold node
  rw [Array.getElem?_eq_getElem h]

theorem node_eq_ok_iff {nfa : Nfa} {state : StateId} {node : Node} :
    nfa.node state = .ok node ↔ nfa.nodes[state]? = some node := by
  unfold Nfa.node
  cases nfa.nodes[state]? <;> simp

theorem target_lt {nfa : Nfa} {state target : StateId} {node : Node}
    (hnode : nfa.node state = .ok node) (h : target ∈ node.targets) : target < nfa.size := by
  unfold Nfa.node at hnode
  split at hnode
  · next found hfound =>
    cases hnode
    exact nfa.closed node (Array.mem_of_getElem? hfound) target h
  · cases hnode

end Nfa

end PatternAutomata
