import Mathlib.Algebra.BigOperators.Group.Finset.Basic
import PatternAutomata.Listing.Basic
import PatternAutomata.Proofs.Dfa.SubsetAutomaton

/-!
# Walks through graphs

In a closed graph every state has edges and every edge ends at a state.  The walk from the start of
such a graph never faults, and its fuel lasts: a state goes on the stack at most once for each edge
of a state that is entered.  When the stack is empty, all targets of the states entered are entered
too, so every target has a label and the graph can be listed.
-/

namespace PatternAutomata

namespace Graph

variable {graph : Graph} {state target : StateId} {stack entered states : List StateId}

/-- The edges of a state; a state that the graph does not have is taken to have none. -/
def edgesAt (graph : Graph) (state : StateId) : Edges :=
  match graph.edges state with
  | .ok edges => edges
  | .error _ => ⟨[], []⟩

/-- Every state has edges, and every edge ends at a state. -/
structure Closed (graph : Graph) : Prop where
  start_lt : graph.start < graph.size
  exists_edges : ∀ state < graph.size, ∃ edges, graph.edges state = .ok edges
  target_lt : ∀ state edges, graph.edges state = .ok edges →
    ∀ target ∈ edges.targets, target < graph.size

theorem edgesAt_eq {edges : Edges} (h : graph.edges state = .ok edges) :
    graph.edgesAt state = edges := by
  simp only [edgesAt, h]

theorem Closed.edges_eq (h : graph.Closed) (hlt : state < graph.size) :
    graph.edges state = .ok (graph.edgesAt state) := by
  obtain ⟨edges, hedges⟩ := h.exists_edges state hlt
  rw [edgesAt_eq hedges, hedges]

theorem Closed.targetsAt_lt (h : graph.Closed) (hlt : state < graph.size)
    (htarget : target ∈ (graph.edgesAt state).targets) : target < graph.size :=
  h.target_lt state _ (h.edges_eq hlt) target htarget

theorem outDegree_eq : graph.outDegree state = (graph.edgesAt state).targets.length := by
  unfold outDegree edgesAt
  cases graph.edges state <;> rfl

/-! ### Fuel -/

theorem edgesBefore_eq_sum (bound : Nat) :
    graph.edgesBefore bound = ∑ state ∈ Finset.range bound, graph.outDegree state := by
  induction bound with
  | zero => rfl
  | succ bound ih => rw [edgesBefore, ih, Finset.sum_range_succ]

/-- How many edges lead out of the states that are not entered yet. -/
def edgesLeft (graph : Graph) (entered : List StateId) : Nat :=
  ∑ state ∈ (Finset.range graph.size).filter (· ∉ entered), graph.outDegree state

theorem edgesLeft_nil : graph.edgesLeft [] = graph.edgeCount := by
  simp [edgesLeft, edgeCount, edgesBefore_eq_sum]

theorem edgesLeft_enter (hlt : state < graph.size) (hnew : state ∉ entered) :
    graph.edgesLeft entered =
      (graph.edgesAt state).targets.length + graph.edgesLeft (entered ++ [state]) := by
  have hsplit : (Finset.range graph.size).filter (· ∉ entered) =
      insert state ((Finset.range graph.size).filter (· ∉ entered ++ [state])) := by
    ext other
    by_cases hother : other = state
    · subst hother
      simp [hlt, hnew]
    · simp [hother]
  rw [edgesLeft, hsplit, Finset.sum_insert (by simp), outDegree_eq, edgesLeft]

/-! ### Walks -/

/-- The walk that starts with a stack, when some states were entered before, ends with the given
states entered. -/
inductive Walks (graph : Graph) : List StateId → List StateId → List StateId → Prop where
  | done (entered : List StateId) : Walks graph [] entered entered
  | skip {state : StateId} {stack entered all : List StateId} (hseen : state ∈ entered)
    (h : Walks graph stack entered all) : Walks graph (state :: stack) entered all
  | enter {state : StateId} {stack entered all : List StateId} (hnew : state ∉ entered)
    (h : Walks graph ((graph.edgesAt state).targets ++ stack) (entered ++ [state]) all) :
    Walks graph (state :: stack) entered all

theorem Closed.exists_walks (h : graph.Closed) {fuel : Nat}
    (hstack : ∀ state ∈ stack, state < graph.size)
    (hfuel : stack.length + graph.edgesLeft entered ≤ fuel) :
    ∃ all, graph.walk fuel stack entered = .ok all ∧ graph.Walks stack entered all := by
  induction fuel generalizing stack entered with
  | zero =>
    cases stack with
    | nil => exact ⟨entered, rfl, .done entered⟩
    | cons state stack => simp at hfuel
  | succ fuel ih =>
    cases stack with
    | nil => exact ⟨entered, rfl, .done entered⟩
    | cons state stack =>
      obtain ⟨hlt, hrest⟩ := List.forall_mem_cons.mp hstack
      rw [List.length_cons] at hfuel
      by_cases hseen : state ∈ entered
      · obtain ⟨all, hwalk, hwalks⟩ := @ih stack entered hrest (by omega)
        refine ⟨all, ?_, .skip hseen hwalks⟩
        rw [walk, if_pos hseen, hwalk]
      · have hcost := edgesLeft_enter hlt hseen
        have hstack' : ∀ target ∈ (graph.edgesAt state).targets ++ stack, target < graph.size := by
          intro target htarget
          rcases List.mem_append.mp htarget with htarget | htarget
          · exact h.targetsAt_lt hlt htarget
          · exact hrest target htarget
        obtain ⟨all, hwalk, hwalks⟩ := @ih _ (entered ++ [state]) hstack' (by
          rw [List.length_append]
          omega)
        refine ⟨all, ?_, .enter hseen hwalks⟩
        rw [walk, if_neg hseen, h.edges_eq hlt]
        exact hwalk

namespace Walks

variable {all : List StateId}

theorem lt (h : graph.Walks stack entered all) (hclosed : graph.Closed)
    (hstack : ∀ state ∈ stack, state < graph.size)
    (hentered : ∀ state ∈ entered, state < graph.size) (hstate : state ∈ all) :
    state < graph.size := by
  induction h with
  | done => exact hentered state hstate
  | skip _ _ ih => exact ih (List.forall_mem_cons.mp hstack).2 hentered hstate
  | @enter next stack entered all _ _ ih =>
    obtain ⟨hlt, hrest⟩ := List.forall_mem_cons.mp hstack
    refine ih ?_ ?_ hstate
    · intro target htarget
      rcases List.mem_append.mp htarget with htarget | htarget
      · exact hclosed.targetsAt_lt hlt htarget
      · exact hrest target htarget
    · intro other hother
      rcases List.mem_append.mp hother with hother | hother
      · exact hentered other hother
      · exact List.mem_singleton.mp hother ▸ hlt

/-- What the states entered lead to is entered in the end, if it was entered before or is still on
the stack when the walk starts. -/
theorem mem_of_target (h : graph.Walks stack entered all)
    (hdone : ∀ state ∈ entered, ∀ target ∈ (graph.edgesAt state).targets,
      target ∈ entered ∨ target ∈ stack)
    (hstate : state ∈ all) (htarget : target ∈ (graph.edgesAt state).targets) : target ∈ all := by
  induction h with
  | done =>
    rcases hdone state hstate target htarget with h | h
    · exact h
    · cases h
  | @skip next stack entered all hseen _ ih =>
    refine ih (fun state hstate target htarget => ?_) hstate
    rcases hdone state hstate target htarget with h | h
    · exact .inl h
    · rcases List.mem_cons.mp h with rfl | h
      · exact .inl hseen
      · exact .inr h
  | @enter next stack entered all _ _ ih =>
    refine ih (fun state hstate target htarget => ?_) hstate
    rcases List.mem_append.mp hstate with hstate | hstate
    · rcases hdone state hstate target htarget with h | h
      · exact .inl (List.mem_append_left _ h)
      · rcases List.mem_cons.mp h with rfl | h
        · exact .inl (List.mem_append_right _ (List.mem_singleton.mpr rfl))
        · exact .inr (List.mem_append_right _ h)
    · rw [List.mem_singleton.mp hstate] at htarget
      exact .inr (List.mem_append_left _ htarget)

end Walks

/-! ### Listings -/

/-- The edges of one state between labels. -/
def listedEdges (states : List StateId) (source : Nat) (edges : Edges) : List ListedEdge :=
  edges.labeled.map (fun edge => ⟨source, .symbol edge.1, states.idxOf edge.2⟩)
    ++ edges.epsilon.map (fun target => ⟨source, .epsilon, states.idxOf target⟩)

/-- The listing of a graph whose states are labelled in the given order. -/
def listingOf (graph : Graph) (states : List StateId) : Listing where
  states := states
  edges := (states.zipIdx 0).flatMap fun entry =>
    listedEdges states entry.2 (graph.edgesAt entry.1)
  accepts := (List.range states.length).filter fun label =>
    match states[label]? with
    | some state => graph.isAccepting state
    | none => false

theorem labelIn_of_mem (h : state ∈ states) : labelIn states state = .ok (states.idxOf state) := by
  have hlabel : states.idxOf? state = some (states.idxOf state) :=
    List.findIdx?_eq_some_of_exists ⟨state, h, beq_self_eq_true state⟩
  simp only [labelIn, hlabel]

theorem listEdges_eq {edges : Edges} (h : ∀ target ∈ edges.targets, target ∈ states)
    (source : Nat) : listEdges states source edges = .ok (listedEdges states source edges) := by
  obtain ⟨labeled, epsilon⟩ := edges
  have hlabeled : ∀ edge ∈ labeled, labelIn states edge.2 = .ok (states.idxOf edge.2) := by
    intro edge hedge
    apply labelIn_of_mem
    exact h _ (List.mem_append_left _ (List.mem_map_of_mem hedge))
  have hepsilon : ∀ target ∈ epsilon, labelIn states target = .ok (states.idxOf target) := by
    intro target htarget
    apply labelIn_of_mem
    exact h _ (List.mem_append_right _ htarget)
  refine bind_eq_ok_iff.mpr ⟨_, mapM_eq_ok_map fun edge hedge => ?_,
    bind_eq_ok_iff.mpr ⟨_, mapM_eq_ok_map fun target htarget => ?_, rfl⟩⟩
  · obtain ⟨symbol, target⟩ := edge
    simp only [hlabeled _ hedge]
    rfl
  · rw [hepsilon target htarget]
    rfl

theorem listFrom_eq {rest : List StateId}
    (hedges : ∀ state ∈ rest, graph.edges state = .ok (graph.edgesAt state))
    (htargets : ∀ state ∈ rest, ∀ target ∈ (graph.edgesAt state).targets, target ∈ states)
    (label : Nat) :
    graph.listFrom states label rest =
      .ok ((rest.zipIdx label).flatMap fun entry =>
        listedEdges states entry.2 (graph.edgesAt entry.1)) := by
  induction rest generalizing label with
  | nil => rfl
  | cons state rest ih =>
    obtain ⟨hstate, hedges⟩ := List.forall_mem_cons.mp hedges
    obtain ⟨htarget, htargets⟩ := List.forall_mem_cons.mp htargets
    simp only [listFrom, hstate, listEdges_eq htarget, ih hedges htargets, bind, Except.bind]
    rfl

/-- A closed graph is listed in the order in which the walk from its start enters the states. -/
theorem Closed.exists_list (h : graph.Closed) :
    ∃ states, graph.Walks [graph.start] [] states ∧ graph.list = .ok (graph.listingOf states) := by
  have hstack : ∀ state ∈ [graph.start], state < graph.size :=
    List.forall_mem_singleton.mpr h.start_lt
  have hfuel : [graph.start].length + graph.edgesLeft [] ≤ graph.edgeCount + 1 := by
    rw [edgesLeft_nil, List.length_singleton, Nat.add_comm]
  obtain ⟨states, hwalk, hwalks⟩ := h.exists_walks hstack hfuel
  have hedges : ∀ state ∈ states, graph.edges state = .ok (graph.edgesAt state) := by
    intro state hstate
    apply h.edges_eq
    exact hwalks.lt h hstack nofun hstate
  have htargets : ∀ state ∈ states, ∀ target ∈ (graph.edgesAt state).targets, target ∈ states := by
    intro state hstate target htarget
    exact hwalks.mem_of_target nofun hstate htarget
  refine ⟨states, hwalks, ?_⟩
  simp only [list, preorder, hwalk, listFrom_eq hedges htargets, bind, Except.bind]
  rfl

/-- The symbol stands on an edge of the graph. -/
def HasSymbol (graph : Graph) (symbol : Char) : Prop :=
  ∃ state edges, graph.edges state = .ok edges ∧ symbol ∈ edges.labeled.map (fun edge => edge.1)

theorem hasSymbol_of_mem {edge : Char × StateId} (h : edge ∈ (graph.edgesAt state).labeled) :
    graph.HasSymbol edge.1 := by
  unfold edgesAt at h
  split at h
  · next edges hedges => exact ⟨state, edges, hedges, List.mem_map_of_mem h⟩
  · cases h

/-- An edge that is listed has the label of an edge of the graph. -/
theorem label_of_mem_edges {edge : ListedEdge} (h : edge ∈ (graph.listingOf states).edges) :
    edge.label = .epsilon ∨ ∃ symbol, edge.label = .symbol symbol ∧ graph.HasSymbol symbol := by
  obtain ⟨⟨state, source⟩, -, hedge⟩ := List.mem_flatMap.mp h
  rcases List.mem_append.mp hedge with hedge | hedge
  · obtain ⟨labeled, hlabeled, rfl⟩ := List.mem_map.mp hedge
    exact .inr ⟨labeled.1, rfl, hasSymbol_of_mem hlabeled⟩
  · obtain ⟨target, -, rfl⟩ := List.mem_map.mp hedge
    exact .inl rfl

end Graph

/-! ### The graphs of automata -/

variable {state : StateId} {edges : Edges} {symbol : Char}

namespace Nfa

variable {nfa : Nfa}

theorem graph_edges_iff : nfa.graph.edges state = .ok edges ↔
    ∃ node, nfa.nodes[state]? = some node ∧ ⟨node.labeled, node.epsilon⟩ = edges := by
  refine bind_eq_ok_iff.trans (exists_congr fun node => and_congr node_eq_ok_iff ?_)
  exact iff_of_eq (Except.ok.injEq _ _)

theorem Node.mem_targets_of_mem_labeled {node : Node} {edge : Char × StateId}
    (h : edge ∈ node.labeled) : edge.2 ∈ node.targets := by
  obtain ⟨entry, hentry, hedge⟩ := List.mem_flatMap.mp h
  obtain ⟨target, htarget, rfl⟩ := List.mem_map.mp hedge
  exact List.mem_append_left _ (List.mem_flatMap.mpr ⟨entry, hentry, htarget⟩)

theorem graph_closed (nfa : Nfa) : nfa.graph.Closed where
  start_lt := nfa.start_lt
  exists_edges state h := ⟨_, graph_edges_iff.mpr ⟨_, Array.getElem?_eq_getElem h, rfl⟩⟩
  target_lt state edges hedges target htarget := by
    obtain ⟨node, hnode, rfl⟩ := graph_edges_iff.mp hedges
    refine nfa.closed node (Array.mem_of_getElem? hnode) target ?_
    rcases List.mem_append.mp htarget with htarget | htarget
    · obtain ⟨edge, hedge, rfl⟩ := List.mem_map.mp htarget
      exact Node.mem_targets_of_mem_labeled hedge
    · exact List.mem_append_right _ htarget

theorem mem_alphabet_of_hasSymbol (h : nfa.graph.HasSymbol symbol) : symbol ∈ nfa.alphabet := by
  obtain ⟨state, edges, hedges, hsymbol⟩ := h
  obtain ⟨node, hnode, rfl⟩ := graph_edges_iff.mp hedges
  obtain ⟨edge, hedge, rfl⟩ := List.mem_map.mp hsymbol
  obtain ⟨entry, hentry, hedge⟩ := List.mem_flatMap.mp hedge
  obtain ⟨target, -, rfl⟩ := List.mem_map.mp hedge
  exact mem_alphabet_iff.mpr ⟨node, Array.mem_of_getElem? hnode, entry, hentry, rfl⟩

end Nfa

namespace Dfa

variable {dfa : Dfa}

theorem graph_edges_iff : dfa.graph.edges state = .ok edges ↔
    ∃ row, dfa.table[state]? = some row ∧ ⟨dfa.alphabet.zip row, []⟩ = edges := by
  refine bind_eq_ok_iff.trans (exists_congr fun row => and_congr row_eq_ok_iff ?_)
  exact iff_of_eq (Except.ok.injEq _ _)

theorem graph_closed (hrows : ∀ row ∈ dfa.table, ∀ target ∈ row, target < dfa.size) :
    dfa.graph.Closed where
  start_lt := dfa.start_lt
  exists_edges state h := ⟨_, graph_edges_iff.mpr ⟨_, Array.getElem?_eq_getElem h, rfl⟩⟩
  target_lt state edges hedges target htarget := by
    obtain ⟨row, hrow, rfl⟩ := graph_edges_iff.mp hedges
    have hcell : target ∈ row := by
      rcases List.mem_append.mp htarget with htarget | htarget
      · obtain ⟨edge, hedge, rfl⟩ := List.mem_map.mp htarget
        exact (List.of_mem_zip hedge).2
      · cases htarget
    exact hrows row (Array.mem_of_getElem? hrow) target hcell

theorem Determinizes.graph_closed {nfa : Nfa} {mode : ClosureMode}
    (h : dfa.Determinizes nfa mode) : dfa.graph.Closed :=
  Dfa.graph_closed fun _ hrow => (h.rows hrow).2

theorem mem_alphabet_of_hasSymbol (h : dfa.graph.HasSymbol symbol) : symbol ∈ dfa.alphabet := by
  obtain ⟨state, edges, hedges, hsymbol⟩ := h
  obtain ⟨row, -, rfl⟩ := graph_edges_iff.mp hedges
  obtain ⟨edge, hedge, rfl⟩ := List.mem_map.mp hsymbol
  exact (List.of_mem_zip hedge).1

end Dfa

end PatternAutomata
