import PatternAutomata.Proofs.Listing.Language
import PatternAutomata.Proofs.Nfa.Edges

/-!
# The order of a listing

A recursion visits a state by entering it, if it was not entered before, and then visiting its
targets one after the other.  The loop over a stack enters the states in the same order: what lies
on the stack are the states which the recursion has still to visit, first those that are left of the
targets of the innermost state, then those of the state around it, and so on.  States that were
entered in the meantime are still there, and are passed over by both.
-/

namespace PatternAutomata

namespace Graph

variable {graph : Graph} {state target : StateId} {stack entered all states : List StateId}

/-! ### The recursion -/

/-- The states that are not entered yet. -/
def unentered (graph : Graph) (entered : List StateId) : Finset StateId :=
  (Finset.range graph.size).filter (· ∉ entered)

theorem unentered_mono (h : entered ⊆ all) : graph.unentered all ⊆ graph.unentered entered := by
  intro state hstate
  obtain ⟨hlt, hnew⟩ := Finset.mem_filter.mp hstate
  exact Finset.mem_filter.mpr ⟨hlt, fun hseen => hnew (h hseen)⟩

theorem card_unentered_enter (hlt : state < graph.size) (hnew : state ∉ entered) :
    (graph.unentered (entered ++ [state])).card < (graph.unentered entered).card := by
  apply Finset.card_lt_card
  refine Finset.ssubset_iff_subset_ne.mpr ⟨unentered_mono (List.subset_append_left ..), ?_⟩
  intro heq
  have hmem : state ∈ graph.unentered entered :=
    Finset.mem_filter.mpr ⟨Finset.mem_range.mpr hlt, hnew⟩
  rw [← heq] at hmem
  exact (Finset.mem_filter.mp hmem).2 (List.mem_append_right _ (List.mem_singleton_self state))

/-- The states that are entered after a visit to some states, one after the other, when some were
entered before.  A visit enters the state, unless it is entered already, and then visits the targets
of its labelled edges and those of its other edges. -/
def visitFrom (graph : Graph) (entered : List StateId) :
    List StateId → { all : List StateId // entered ⊆ all }
  | [] => ⟨entered, List.Subset.refl entered⟩
  | state :: states =>
    if _h : state < graph.size ∧ state ∉ entered then
      let inner := visitFrom graph (entered ++ [state]) (graph.edgesAt state).targets
      let outer := visitFrom graph inner.1 states
      ⟨outer.1, fun _ hseen => outer.2 (inner.2 (List.mem_append_left _ hseen))⟩
    else visitFrom graph entered states
termination_by states => ((graph.unentered entered).card, states.length)
decreasing_by
  · exact Prod.Lex.left _ _ (card_unentered_enter _h.1 _h.2)
  · apply Prod.Lex.left
    exact Nat.lt_of_le_of_lt (Finset.card_le_card (unentered_mono inner.2))
      (card_unentered_enter _h.1 _h.2)
  · exact Prod.Lex.right _ (Nat.lt_succ_self _)

/-- The states in the order in which the recursion enters them. -/
def visit (graph : Graph) (entered states : List StateId) : List StateId :=
  (graph.visitFrom entered states).1

@[simp] theorem visit_nil : graph.visit entered [] = entered := by
  rw [visit, visitFrom]

theorem visit_cons_of_mem (h : state ∈ entered) :
    graph.visit entered (state :: states) = graph.visit entered states := by
  rw [visit, visitFrom, dif_neg fun hnew => hnew.2 h, visit]

theorem visit_cons_of_new (hlt : state < graph.size) (hnew : state ∉ entered) :
    graph.visit entered (state :: states) =
      graph.visit (graph.visit (entered ++ [state]) (graph.edgesAt state).targets) states := by
  rw [visit, visitFrom, dif_pos ⟨hlt, hnew⟩, visit, visit]

/-- The loop takes off the stack what the recursion visits, and has then entered what the recursion
has. -/
theorem Walks.visit (hclosed : graph.Closed) (hstates : ∀ state ∈ states, state < graph.size)
    (h : graph.Walks (states ++ stack) entered all) :
    graph.Walks stack (graph.visit entered states) all := by
  induction entered, states using visitFrom.induct graph generalizing stack with
  | case1 entered => simpa using h
  | case2 entered state states hnew inner ih ih' =>
    obtain ⟨hlt, hrest⟩ := List.forall_mem_cons.mp hstates
    rw [visit_cons_of_new hlt hnew.2]
    rw [List.cons_append] at h
    cases h with
    | skip hseen _ => exact absurd hseen hnew.2
    | enter _ h =>
      -- the targets lie on top of what is left of the states
      exact ih' hrest (ih (fun target htarget => hclosed.targetsAt_lt hlt htarget) h)
  | case3 entered state states hnot ih =>
    obtain ⟨hlt, hrest⟩ := List.forall_mem_cons.mp hstates
    have hseen : state ∈ entered := Decidable.not_not.mp fun hnew => hnot ⟨hlt, hnew⟩
    rw [visit_cons_of_mem hseen]
    rw [List.cons_append] at h
    cases h with
    | skip _ h => exact ih hrest h
    | enter hnew _ => exact absurd hseen hnew

theorem Walks.eq_visit (hclosed : graph.Closed) (h : graph.Walks [graph.start] [] states) :
    states = graph.visit [] [graph.start] := by
  have hdone : graph.Walks [] (graph.visit [] [graph.start]) states :=
    h.visit hclosed (List.forall_mem_singleton.mpr hclosed.start_lt)
  cases hdone
  rfl

/-- From any fuel that lasts, the loop enters the states in the order of the recursion. -/
theorem Closed.walk_eq_visit (h : graph.Closed) {fuel : Nat} (hfuel : graph.edgeCount < fuel) :
    graph.walk fuel [graph.start] [] = .ok (graph.visit [] [graph.start]) := by
  have hlasts : [graph.start].length + graph.edgesLeft [] ≤ fuel := by
    rwa [edgesLeft_nil, List.length_singleton, Nat.add_comm]
  obtain ⟨all, hwalk, hwalks⟩ :=
    h.exists_walks (List.forall_mem_singleton.mpr h.start_lt) hlasts
  rw [hwalk, hwalks.eq_visit h]

/-! ### Reachable states -/

/-- Some path leads from the start to the state. -/
def Reaches (graph : Graph) (state : StateId) : Prop :=
  ∃ word, Path graph.links graph.start word state

theorem exists_link_of_mem_targets (h : target ∈ (graph.edgesAt state).targets) :
    ∃ label, graph.links state label target := by
  rcases List.mem_append.mp h with h | h
  · obtain ⟨⟨symbol, _⟩, hedge, rfl⟩ := List.mem_map.mp h
    exact ⟨.symbol symbol, hedge⟩
  · exact ⟨.epsilon, h⟩

theorem Reaches.start (graph : Graph) : graph.Reaches graph.start :=
  ⟨[], Path.nil graph.start⟩

theorem Reaches.of_link {label : Label} (h : graph.Reaches state)
    (hedge : graph.links state label target) : graph.Reaches target := by
  obtain ⟨word, hpath⟩ := h
  exact ⟨word ++ label.word, hpath.append (Path.edge hedge)⟩

theorem Reaches.of_target (h : graph.Reaches state)
    (htarget : target ∈ (graph.edgesAt state).targets) : graph.Reaches target := by
  obtain ⟨label, hedge⟩ := exists_link_of_mem_targets htarget
  exact h.of_link hedge

theorem Walks.reaches (h : graph.Walks stack entered all)
    (hstack : ∀ state ∈ stack, graph.Reaches state)
    (hentered : ∀ state ∈ entered, graph.Reaches state) : ∀ state ∈ all, graph.Reaches state := by
  induction h with
  | done => exact hentered
  | skip _ _ ih => exact ih (List.forall_mem_cons.mp hstack).2 hentered
  | enter _ _ ih =>
    obtain ⟨hstate, hrest⟩ := List.forall_mem_cons.mp hstack
    refine ih ?_ ?_
    · exact List.forall_mem_append.mpr ⟨fun target htarget => hstate.of_target htarget, hrest⟩
    · exact List.forall_mem_append.mpr ⟨hentered, List.forall_mem_singleton.mpr hstate⟩

/-- All states that a path leads to are listed. -/
theorem Enumerates.mem_of_path {p q : StateId} {word : List Char} (h : graph.Enumerates states)
    (hpath : Path graph.links p word q) (hp : p ∈ states) : q ∈ states := by
  induction hpath with
  | nil => exact hp
  | step hedge _ ih => exact ih (h.mem_of_links _ hp _ _ hedge)

/-- The walk from the start enters exactly the states that the start reaches. -/
theorem Walks.mem_iff_reaches (h : graph.Walks [graph.start] [] states) :
    state ∈ states ↔ graph.Reaches state := by
  constructor
  · intro hstate
    exact h.reaches (List.forall_mem_singleton.mpr (.start graph)) nofun state hstate
  · rintro ⟨word, hpath⟩
    exact h.enumerates.mem_of_path hpath (List.mem_of_getElem? h.enumerates.start_first)

theorem Closed.lt_of_reaches (h : graph.Closed) (hstate : graph.Reaches state) :
    state < graph.size := by
  obtain ⟨states, hwalks, -⟩ := h.exists_list
  have hstart : ∀ state ∈ [graph.start], state < graph.size :=
    List.forall_mem_singleton.mpr h.start_lt
  exact hwalks.lt h hstart nofun (hwalks.mem_iff_reaches.mpr hstate)

/-! ### Labels -/

namespace Enumerates

variable {p q : StateId} {i j : Nat} {label : Label}

theorem idxOf?_eq_some_iff (h : graph.Enumerates states) :
    states.idxOf? p = some i ↔ states[i]? = some p := by
  rw [List.idxOf?_eq_some_iff, List.getElem?_eq_some_iff]
  constructor
  · rintro ⟨hi, hp, -⟩
    exact ⟨hi, hp⟩
  · rintro ⟨hi, hp⟩
    refine ⟨hi, hp, fun j hj hother => ?_⟩
    have hsame : j = i := h.nodup.getElem_inj_iff.mp (hother.trans hp.symm)
    exact absurd hsame (Nat.ne_of_lt hj)

theorem exists_label_iff (h : graph.Enumerates states) :
    (∃ i, states.idxOf? p = some i) ↔ p ∈ states :=
  (exists_congr fun _ => h.idxOf?_eq_some_iff).trans List.mem_iff_getElem?.symm

theorem mem_edges_iff_links (h : graph.Enumerates states) :
    ⟨i, label, j⟩ ∈ (graph.listingOf states).edges ↔
      ∃ p q, states[i]? = some p ∧ states[j]? = some q ∧ graph.links p label q := by
  rw [mem_edges_iff]
  constructor
  · rintro ⟨p, q, hp, hedge, hj⟩
    have hq : q ∈ states := h.mem_of_links p (List.mem_of_getElem? hp) label q hedge
    exact ⟨p, q, hp, (h.idxOf_eq_iff hq).mp hj.symm, hedge⟩
  · rintro ⟨p, q, hp, hq, hedge⟩
    exact ⟨p, q, hp, hedge, ((h.idxOf_eq_iff (List.mem_of_getElem? hq)).mpr hq).symm⟩

end Enumerates

/-! ### Edges that are listed once -/

/-- No edge is kept twice. -/
structure Simple (graph : Graph) : Prop where
  labeled_nodup : ∀ state, (graph.edgesAt state).labeled.Nodup
  epsilon_nodup : ∀ state, (graph.edgesAt state).epsilon.Nodup

theorem simple_of_edges (h : ∀ state edges, graph.edges state = .ok edges →
    edges.labeled.Nodup ∧ edges.epsilon.Nodup) : graph.Simple := by
  have hedges : ∀ state, (graph.edgesAt state).labeled.Nodup ∧
      (graph.edgesAt state).epsilon.Nodup := by
    intro state
    unfold edgesAt
    cases hstate : graph.edges state with
    | ok edges => exact h state edges hstate
    | error _ => exact ⟨List.nodup_nil, List.nodup_nil⟩
  exact ⟨fun state => (hedges state).1, fun state => (hedges state).2⟩

theorem source_of_mem_listedEdges {source : Nat} {edges : Edges} {edge : ListedEdge}
    (h : edge ∈ listedEdges states source edges) : edge.source = source := by
  rcases List.mem_append.mp h with h | h
  · obtain ⟨_, -, rfl⟩ := List.mem_map.mp h
    rfl
  · obtain ⟨_, -, rfl⟩ := List.mem_map.mp h
    rfl

theorem nodup_listedEdges {source : Nat} {edges : Edges} (hlabeled : edges.labeled.Nodup)
    (hepsilon : edges.epsilon.Nodup) (htargets : ∀ target ∈ edges.targets, target ∈ states) :
    (listedEdges states source edges).Nodup := by
  refine List.Nodup.append ?_ ?_ ?_
  · refine hlabeled.map_on ?_
    rintro ⟨symbol, target⟩ hedge ⟨symbol', target'⟩ - heq
    have hlisted := htargets target (List.mem_append_left _ (List.mem_map_of_mem hedge))
    obtain ⟨rfl, hlabels⟩ : symbol = symbol' ∧ states.idxOf target = states.idxOf target' := by
      simpa using heq
    rw [(List.idxOf_inj hlisted).mp hlabels]
  · refine hepsilon.map_on ?_
    intro target htarget target' _ heq
    have hlisted := htargets _ (List.mem_append_right _ htarget)
    exact (List.idxOf_inj hlisted).mp (congrArg ListedEdge.target heq)
  · intro edge hlabel hepsilon
    obtain ⟨_, -, rfl⟩ := List.mem_map.mp hlabel
    obtain ⟨_, -, heq⟩ := List.mem_map.mp hepsilon
    cases heq

theorem nodup_edges (hsimple : graph.Simple) (h : graph.Enumerates states) :
    (graph.listingOf states).edges.Nodup := by
  refine List.nodup_flatMap.mpr ⟨?_, ?_⟩
  · rintro ⟨state, source⟩ hentry
    have hstate : state ∈ states := List.fst_mem_of_mem_zipIdx hentry
    refine nodup_listedEdges (hsimple.labeled_nodup state) (hsimple.epsilon_nodup state) ?_
    intro target htarget
    obtain ⟨label, hedge⟩ := exists_link_of_mem_targets htarget
    exact h.mem_of_links state hstate label target hedge
  · -- the edges of two states have different sources
    refine (Nfa.pairwise_zipIdx states).imp ?_
    intro entry other hne edge hedge hedge'
    exact hne ((source_of_mem_listedEdges hedge).symm.trans (source_of_mem_listedEdges hedge'))

theorem accepts_ascending : (graph.listingOf states).accepts.Pairwise (· < ·) :=
  List.pairwise_lt_range.filter _

end Graph

/-! ### The graphs of automata -/

theorem Nfa.Sealed.graph_simple {nfa : Nfa} (h : nfa.Sealed) : nfa.graph.Simple := by
  refine Graph.simple_of_edges fun state edges hedges => ?_
  obtain ⟨node, hnode, rfl⟩ := graph_edges_iff.mp hedges
  have hmem : node ∈ nfa.nodes := Array.mem_of_getElem? hnode
  exact ⟨Node.nodup_labeled (h.tidy node hmem) (h.simple node hmem),
    (h.simple node hmem).epsilon_nodup⟩

theorem Dfa.graph_simple (dfa : Dfa) : dfa.graph.Simple := by
  refine Graph.simple_of_edges fun state edges hedges => ?_
  obtain ⟨row, hrow, rfl⟩ := graph_edges_iff.mp hedges
  refine ⟨?_, List.nodup_nil⟩
  have hlength : dfa.alphabet.length ≤ row.length :=
    Nat.le_of_eq (dfa.row_length row (Array.mem_of_getElem? hrow)).symm
  apply List.Nodup.of_map Prod.fst
  rw [List.map_fst_zip hlength]
  exact dfa.alphabet_ascending.nodup

/-! ### Listings -/

/-- The listing names the states that the start reaches in the order in which the recursion enters
them.  It has each edge between them once, state by state, and the accepting states in the order of
their names. -/
structure Graph.ListedInOrder (graph : Graph) (listing : Listing) : Prop where
  /-- The loop ends, and more fuel changes nothing. -/
  walk_eq : ∀ fuel, graph.edgeCount < fuel →
    graph.walk fuel [graph.start] [] = .ok listing.states
  states_eq : listing.states = graph.visit [] [graph.start]
  start_label : listing.labelOf? graph.start = some 0
  label_iff : ∀ label, (∃ state, listing.stateAt? label = some state) ↔ label < listing.size
  labelOf_iff : ∀ state label,
    listing.labelOf? state = some label ↔ listing.stateAt? label = some state
  reaches_iff : ∀ state, (∃ label, listing.labelOf? state = some label) ↔ graph.Reaches state
  edges_eq : listing.edges = listing.states.zipIdx.flatMap fun (state, label) =>
    listedEdges listing.states label (graph.edgesAt state)
  edges_nodup : listing.edges.Nodup
  edge_iff : ∀ i label j, ⟨i, label, j⟩ ∈ listing.edges ↔
    ∃ p q, listing.stateAt? i = some p ∧ listing.stateAt? j = some q ∧ graph.links p label q
  accepts_ascending : listing.accepts.Pairwise (· < ·)
  accept_iff : ∀ label, label ∈ listing.accepts ↔
    ∃ state, listing.stateAt? label = some state ∧ graph.isAccepting state = true

theorem Graph.Closed.exists_listedInOrder {graph : Graph} (h : graph.Closed)
    (hsimple : graph.Simple) :
    ∃ listing, graph.list = .ok listing ∧ graph.ListedInOrder listing := by
  obtain ⟨states, hwalks, hlist⟩ := h.exists_list
  have henum := hwalks.enumerates
  have hstates := hwalks.eq_visit h
  have hlabel : ∀ label, (∃ state, states[label]? = some state) ↔ label < states.length := by
    intro label
    rw [← Option.isSome_iff_exists]
    simp
  refine ⟨graph.listingOf states, hlist, ?_⟩
  exact
    { walk_eq := fun fuel hfuel => hstates ▸ h.walk_eq_visit hfuel
      states_eq := hstates
      start_label := henum.idxOf?_eq_some_iff.mpr henum.start_first
      label_iff := hlabel
      labelOf_iff := fun state label => henum.idxOf?_eq_some_iff
      reaches_iff := fun state => henum.exists_label_iff.trans hwalks.mem_iff_reaches
      edges_eq := rfl
      edges_nodup := nodup_edges hsimple henum
      edge_iff := fun i label j => henum.mem_edges_iff_links
      accepts_ascending := accepts_ascending
      accept_iff := fun label => mem_accepts_iff }

/-- **The order of a listing.**  Every automaton that can be made is listed, and the loop over a
stack gives the names that the recursion gives. -/
theorem Automaton.Built.exists_list_in_order {automaton : Automaton} (h : automaton.Built) :
    ∃ listing, automaton.list = .ok listing ∧ automaton.graph.ListedInOrder listing := by
  have hclosed := h.graph_closed
  cases h with
  | nfa hsealed => exact hclosed.exists_listedInOrder hsealed.graph_simple
  | @dfa _ dfa _ _ _ => exact hclosed.exists_listedInOrder dfa.graph_simple

/-- State 3 is on the stack twice: once for the start, and above that for state 1.  When the loop
comes to the older entry, the state was entered long ago. -/
theorem Automaton.Built.exists_list_in_order_of_stale :
    ∃ nfa : Nfa, (Automaton.nfa nfa).Built ∧
      nfa.graph.ListedInOrder
        ⟨[2, 1, 3], [⟨0, .symbol 'a', 1⟩, ⟨0, .epsilon, 2⟩, ⟨1, .symbol 'b', 2⟩,
          ⟨2, .epsilon, 0⟩], [2]⟩ := by
  have hbuilt : ∃ nfa : Nfa, nfa.Sealed ∧ (Automaton.nfa nfa).list = .ok
      ⟨[2, 1, 3], [⟨0, .symbol 'a', 1⟩, ⟨0, .epsilon, 2⟩, ⟨1, .symbol 'b', 2⟩,
        ⟨2, .epsilon, 0⟩], [2]⟩ := by
    have hstates : Nfa.Arena.Built Nfa.Arena.empty.addState.2.addState.2.addState.2.addState.2 :=
      .addState (.addState (.addState (.addState .empty)))
    have hskip := @Nfa.Arena.Built.addEpsilon _ _ 2 3 hstates rfl
    have hforth := @Nfa.Arena.Built.addMove _ _ 2 1 'a' hskip rfl
    have hdown := @Nfa.Arena.Built.addMove _ _ 1 3 'b' hforth rfl
    have hback := @Nfa.Arena.Built.addEpsilon _ _ 3 2 hdown rfl
    exact ⟨_, ⟨_, 2, 3, hback, rfl⟩, rfl⟩
  obtain ⟨nfa, hsealed, hlist⟩ := hbuilt
  have hnfa : (Automaton.nfa nfa).Built := .nfa hsealed
  obtain ⟨listing, hlisting, hlaws⟩ := hnfa.exists_list_in_order
  rw [hlist] at hlisting
  cases hlisting
  exact ⟨nfa, hnfa, hlaws⟩

end PatternAutomata
