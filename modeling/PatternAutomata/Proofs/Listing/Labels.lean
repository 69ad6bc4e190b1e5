import PatternAutomata.Proofs.Listing.Walk
import PatternAutomata.Proofs.Nfa.Paths

/-!
# Labels of states

The walk enters every state that it meets once, and the start before all others.  So the place of a
state in the order of the walk is a name for it, the start is named 0, and a listing has an edge
between two labels exactly if the graph has that edge between the states they name.
-/

namespace PatternAutomata

/-- There is an edge with the label to the state. -/
def Edges.Has (edges : Edges) : Label → StateId → Prop
  | .symbol c, q => (c, q) ∈ edges.labeled
  | .epsilon, q => q ∈ edges.epsilon

theorem Edges.Has.mem_targets {edges : Edges} {label : Label} {q : StateId}
    (h : edges.Has label q) : q ∈ edges.targets := by
  cases label with
  | symbol c => exact List.mem_append_left _ (List.mem_map_of_mem h)
  | epsilon => exact List.mem_append_right _ h

namespace Graph

variable {graph : Graph} {p q : StateId} {label : Label} {stack entered all states : List StateId}
  {i j : Nat}

/-- The edges of a graph. -/
def links (graph : Graph) : Links := fun p label q =>
  (graph.edgesAt p).Has label q

theorem links_iff :
    graph.links p label q ↔ ∃ edges, graph.edges p = .ok edges ∧ edges.Has label q := by
  unfold links edgesAt
  cases graph.edges p with
  | ok edges => simp
  | error misuse => cases label <;> simp [Edges.Has]

/-! ### The order of a walk -/

namespace Walks

theorem nodup (h : graph.Walks stack entered all) (hentered : entered.Nodup) : all.Nodup := by
  induction h with
  | done => exact hentered
  | skip _ _ ih => exact ih hentered
  | enter hnew _ ih =>
    apply ih
    rw [← List.concat_eq_append]
    exact hentered.concat hnew

theorem exists_entered_later (h : graph.Walks stack entered all) :
    ∃ later, all = entered ++ later := by
  induction h with
  | done => exact ⟨[], (List.append_nil _).symm⟩
  | skip _ _ ih => exact ih
  | @enter state _ _ _ _ _ ih =>
    obtain ⟨later, rfl⟩ := ih
    exact ⟨state :: later, List.append_assoc ..⟩

end Walks

/-- The states name the part of the graph that its start reaches: the start is first, no state comes
twice and no edge leads out. -/
structure Enumerates (graph : Graph) (states : List StateId) : Prop where
  start_first : states[0]? = some graph.start
  nodup : states.Nodup
  mem_of_links : ∀ p ∈ states, ∀ label q, graph.links p label q → q ∈ states

theorem Walks.enumerates (h : graph.Walks [graph.start] [] states) : graph.Enumerates states where
  start_first := by
    cases h with
    | skip hseen _ => cases hseen
    | enter _ h =>
      obtain ⟨later, rfl⟩ := h.exists_entered_later
      rfl
  nodup := h.nodup List.nodup_nil
  mem_of_links _ hp _ _ hedge := h.mem_of_target nofun hp (Edges.Has.mem_targets hedge)

theorem Closed.exists_enumeration (h : graph.Closed) :
    ∃ states, graph.Enumerates states ∧ graph.list = .ok (graph.listingOf states) := by
  obtain ⟨states, hwalks, hlist⟩ := h.exists_list
  exact ⟨states, hwalks.enumerates, hlist⟩

/-! ### What is listed -/

theorem mem_edges_iff : ⟨i, label, j⟩ ∈ (graph.listingOf states).edges ↔
    ∃ p q, states[i]? = some p ∧ graph.links p label q ∧ j = states.idxOf q := by
  constructor
  · intro h
    obtain ⟨⟨p, source⟩, hp, hedge⟩ := List.mem_flatMap.mp h
    have hi := List.mem_zipIdx_iff_getElem?.mp hp
    rcases List.mem_append.mp hedge with hedge | hedge
    · obtain ⟨⟨c, q⟩, hq, heq⟩ := List.mem_map.mp hedge
      cases heq
      exact ⟨p, q, hi, hq, rfl⟩
    · obtain ⟨q, hq, heq⟩ := List.mem_map.mp hedge
      cases heq
      exact ⟨p, q, hi, hq, rfl⟩
  · rintro ⟨p, q, hp, hedge, rfl⟩
    refine List.mem_flatMap.mpr ⟨(p, i), List.mem_zipIdx_iff_getElem?.mpr hp, ?_⟩
    cases label with
    | symbol c => exact List.mem_append_left _ (List.mem_map.mpr ⟨(c, q), hedge, rfl⟩)
    | epsilon => exact List.mem_append_right _ (List.mem_map.mpr ⟨q, hedge, rfl⟩)

theorem mem_accepts_iff : i ∈ (graph.listingOf states).accepts ↔
    ∃ p, states[i]? = some p ∧ graph.isAccepting p = true := by
  constructor
  · intro h
    obtain ⟨-, haccept⟩ := List.mem_filter.mp h
    split at haccept
    · next p hp => exact ⟨p, hp, haccept⟩
    · cases haccept
  · rintro ⟨p, hp, haccept⟩
    apply List.mem_filter.mpr
    constructor
    · exact List.mem_range.mpr (List.getElem?_eq_some_iff.mp hp).1
    · simp only [hp, haccept]

namespace Enumerates

theorem idxOf_eq_iff (h : graph.Enumerates states) (hp : p ∈ states) :
    states.idxOf p = i ↔ states[i]? = some p := by
  constructor
  · rintro rfl
    have hlt : states.idxOf p < states.length := List.idxOf_lt_length_of_mem hp
    rw [List.getElem?_eq_getElem hlt, List.getElem_idxOf hlt]
  · intro hi
    obtain ⟨hlt, rfl⟩ := List.getElem?_eq_some_iff.mp hi
    exact h.nodup.idxOf_getElem i hlt

/-- All labels that a listing mentions are those of listed states. -/
theorem labels_lt (h : graph.Enumerates states) :
    (∀ edge ∈ (graph.listingOf states).edges,
      edge.source < states.length ∧ edge.target < states.length) ∧
      ∀ i ∈ (graph.listingOf states).accepts, i < states.length := by
  constructor
  · intro edge hedge
    obtain ⟨p, q, hp, hlink, htarget⟩ := mem_edges_iff.mp hedge
    have hq : q ∈ states := h.mem_of_links p (List.mem_of_getElem? hp) _ q hlink
    constructor
    · exact (List.getElem?_eq_some_iff.mp hp).1
    · rw [htarget]
      exact List.idxOf_lt_length_of_mem hq
  · intro i hi
    obtain ⟨p, hp, -⟩ := mem_accepts_iff.mp hi
    exact (List.getElem?_eq_some_iff.mp hp).1

end Enumerates

end Graph

end PatternAutomata
