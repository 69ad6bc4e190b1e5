import PatternAutomata.Proofs.Listing.Preorder

/-!
# What the edges of a listing tell

A graph need not be closed to be listed; it is enough that the states that the walk enters have
edges.  The walk enters the start first and after it only states that an edge of an entered state
leads to, and if all targets have labels, no edge leads out of the states entered.  So every label
but the start's stands at the end of a listed edge, and no other number does: the edges of a listing
tell how many states there are.
-/

namespace PatternAutomata

namespace Graph

variable {graph other : Graph} {state target : StateId}
  {stack entered all states rest : List StateId} {fuel label : Nat} {listed : List ListedEdge}
  {listing listing' : Listing}

/-! ### Walks that are under way -/

/-- The start was entered first and no state twice, and the start or an edge of a state entered led
to everything that was entered or is on the stack. -/
structure Spans (graph : Graph) (stack entered : List StateId) : Prop where
  start_first : entered.head? = some graph.start
  nodup : entered.Nodup
  ledTo : ∀ state ∈ entered ++ stack, state = graph.start ∨
    ∃ source ∈ entered, state ∈ (graph.edgesAt source).targets

namespace Spans

theorem skip (h : graph.Spans (state :: stack) entered) : graph.Spans stack entered where
  start_first := h.start_first
  nodup := h.nodup
  ledTo other hother := by
    apply h.ledTo other
    rcases List.mem_append.mp hother with hother | hother
    · exact List.mem_append_left _ hother
    · exact List.mem_append_right _ (List.mem_cons_of_mem _ hother)

theorem enter (h : graph.Spans (state :: stack) entered) (hnew : state ∉ entered) :
    graph.Spans ((graph.edgesAt state).targets ++ stack) (entered ++ [state]) where
  start_first := by
    rw [List.head?_append, h.start_first]
    rfl
  nodup := by
    rw [← List.concat_eq_append]
    exact h.nodup.concat hnew
  ledTo other hother := by
    have hbefore : other ∈ entered ++ state :: stack → other = graph.start ∨
        ∃ source ∈ entered ++ [state], other ∈ (graph.edgesAt source).targets := by
      intro hother
      rcases h.ledTo other hother with hstart | ⟨source, hsource, htarget⟩
      · exact .inl hstart
      · exact .inr ⟨source, List.mem_append_left _ hsource, htarget⟩
    rw [List.append_assoc, List.singleton_append] at hother
    rcases List.mem_append.mp hother with hother | hother
    · exact hbefore (List.mem_append_left _ hother)
    · rcases List.mem_cons.mp hother with rfl | hother
      · exact hbefore (List.mem_append_right _ (List.mem_cons_self ..))
      · rcases List.mem_append.mp hother with htarget | hother
        · exact .inr ⟨state, List.mem_append_right _ (List.mem_singleton.mpr rfl), htarget⟩
        · exact hbefore (List.mem_append_right _ (List.mem_cons_of_mem _ hother))

/-- Wherever the walk stops, it has kept this. -/
theorem of_walk (h : graph.Spans stack entered) (hwalk : graph.walk fuel stack entered = .ok all) :
    ∃ left, graph.Spans left all := by
  induction fuel generalizing stack entered with
  | zero =>
    cases stack <;> cases hwalk <;> exact ⟨_, h⟩
  | succ fuel ih =>
    cases stack with
    | nil =>
      cases hwalk
      exact ⟨_, h⟩
    | cons state stack =>
      rw [walk] at hwalk
      split at hwalk
      · exact ih h.skip hwalk
      · next hnew =>
        obtain ⟨edges, hedges, hrest⟩ := bind_eq_ok_iff.mp hwalk
        refine ih (h.enter hnew) ?_
        rw [edgesAt_eq hedges]
        exact hrest

end Spans

theorem exists_spans_of_preorder (h : graph.preorder = .ok states) :
    ∃ left, graph.Spans left states := by
  rw [preorder, walk, if_neg List.not_mem_nil] at h
  obtain ⟨edges, hedges, hwalk⟩ := bind_eq_ok_iff.mp h
  have hfirst : graph.Spans (edges.targets ++ []) [graph.start] :=
    { start_first := rfl
      nodup := List.nodup_singleton _
      ledTo := by
        rw [List.append_nil, List.singleton_append]
        refine List.forall_mem_cons.mpr ⟨.inl rfl, fun state hstate => .inr ?_⟩
        exact ⟨graph.start, List.mem_singleton.mpr rfl, by rwa [edgesAt_eq hedges]⟩ }
  exact hfirst.of_walk hwalk

/-! ### Edges that have labels -/

theorem mem_of_labelIn_eq_ok (h : labelIn states state = .ok label) : state ∈ states := by
  unfold labelIn at h
  split at h
  · next place hplace =>
    obtain ⟨hlt, hstate, -⟩ := List.idxOf?_eq_some_iff.mp hplace
    exact hstate ▸ List.getElem_mem hlt
  · cases h

theorem mem_of_listEdges_eq_ok {edges : Edges} {source : Nat}
    (h : listEdges states source edges = .ok listed) :
    ∀ target ∈ edges.targets, target ∈ states := by
  obtain ⟨labeled, hlabeled, hrest⟩ := bind_eq_ok_iff.mp h
  obtain ⟨epsilon, hepsilon, -⟩ := bind_eq_ok_iff.mp hrest
  intro target htarget
  have hlabel : ∃ label, labelIn states target = .ok label := by
    rcases List.mem_append.mp htarget with htarget | htarget
    · obtain ⟨⟨symbol, _⟩, hedge, rfl⟩ := List.mem_map.mp htarget
      obtain ⟨edge, hedge⟩ := exists_of_mapM_eq_ok hlabeled _ hedge
      obtain ⟨label, hlabel, -⟩ := bind_eq_ok_iff.mp hedge
      exact ⟨label, hlabel⟩
    · obtain ⟨edge, hedge⟩ := exists_of_mapM_eq_ok hepsilon _ htarget
      obtain ⟨label, hlabel, -⟩ := bind_eq_ok_iff.mp hedge
      exact ⟨label, hlabel⟩
  obtain ⟨label, hlabel⟩ := hlabel
  exact mem_of_labelIn_eq_ok hlabel

theorem edges_of_listFrom_eq_ok (h : graph.listFrom states label rest = .ok listed) :
    ∀ state ∈ rest, graph.edges state = .ok (graph.edgesAt state) ∧
      ∀ target ∈ (graph.edgesAt state).targets, target ∈ states := by
  induction rest generalizing label listed with
  | nil => nofun
  | cons state rest ih =>
    obtain ⟨edges, hedges, hbind⟩ := bind_eq_ok_iff.mp h
    obtain ⟨first, hfirst, hbind⟩ := bind_eq_ok_iff.mp hbind
    obtain ⟨more, hmore, -⟩ := bind_eq_ok_iff.mp hbind
    refine List.forall_mem_cons.mpr ⟨?_, ih hmore⟩
    rw [edgesAt_eq hedges]
    exact ⟨hedges, mem_of_listEdges_eq_ok hfirst⟩

/-! ### Listings -/

/-- A graph that can be listed is listed in an order that enumerates what its start reaches, and an
edge of a listed state leads to every listed state but the start. -/
theorem exists_enumerates_of_list (h : graph.list = .ok listing) :
    ∃ states, listing = graph.listingOf states ∧ graph.Enumerates states ∧
      ∀ state ∈ states, state ≠ graph.start →
        ∃ source ∈ states, state ∈ (graph.edgesAt source).targets := by
  obtain ⟨states, hpreorder, hbind⟩ := bind_eq_ok_iff.mp h
  obtain ⟨edges, hedges, hlisting⟩ := bind_eq_ok_iff.mp hbind
  obtain ⟨left, hspans⟩ := exists_spans_of_preorder hpreorder
  have hall := edges_of_listFrom_eq_ok hedges
  rw [listFrom_eq (fun state hstate => (hall state hstate).1)
    (fun state hstate => (hall state hstate).2)] at hedges
  cases hedges
  refine ⟨states, (Except.ok.inj hlisting).symm, ⟨?_, hspans.nodup, ?_⟩, ?_⟩
  · rw [← List.head?_eq_getElem?, hspans.start_first]
  · intro p hp link q hedge
    exact (hall p hp).2 q hedge.mem_targets
  · intro state hstate hne
    exact (hspans.ledTo state (List.mem_append_left _ hstate)).resolve_left hne

/-- **The labels in use.**  A number labels a listed state exactly if it is the start's or a listed
edge ends at it. -/
theorem label_lt_size_iff (h : graph.list = .ok listing) :
    label < listing.size ↔ label = 0 ∨ ∃ edge ∈ listing.edges, edge.target = label := by
  obtain ⟨states, rfl, henum, hledTo⟩ := exists_enumerates_of_list h
  constructor
  · intro hlt
    have hstate : states[label]? = some states[label] := List.getElem?_eq_getElem hlt
    by_cases hstart : states[label] = graph.start
    · have hfirst := henum.start_first
      rw [← hstart, ← hstate] at hfirst
      exact .inl ((List.getElem?_inj hlt henum.nodup).mp hfirst.symm)
    · obtain ⟨source, hsource, htarget⟩ := hledTo _ (List.getElem_mem hlt) hstart
      obtain ⟨link, hlink⟩ := exists_link_of_mem_targets htarget
      obtain ⟨i, hi⟩ := List.mem_iff_getElem?.mp hsource
      exact .inr ⟨⟨i, link, label⟩, henum.mem_edges_iff_links.mpr ⟨_, _, hi, hstate, hlink⟩, rfl⟩
  · rintro (rfl | ⟨edge, hedge, rfl⟩)
    · exact (List.getElem?_eq_some_iff.mp henum.start_first).1
    · exact (henum.labels_lt.1 edge hedge).2

/-- The edges tell how many states are listed. -/
theorem size_eq_of_edges_eq (h : graph.list = .ok listing) (h' : other.list = .ok listing')
    (hedges : listing.edges = listing'.edges) : listing.size = listing'.size := by
  apply eq_of_forall_lt_iff
  intro label
  rw [label_lt_size_iff h, label_lt_size_iff h', hedges]

/-- The accepting states are listed in the order of their labels. -/
theorem accepts_eq_filter (h : graph.list = .ok listing) :
    listing.accepts = (List.range listing.size).filter (· ∈ listing.accepts) := by
  obtain ⟨states, rfl, -⟩ := exists_enumerates_of_list h
  refine List.filter_congr fun label hlabel => ?_
  have hmem : label ∈ (graph.listingOf states).accepts ↔ _ := List.mem_filter
  rw [Bool.eq_iff_iff, decide_eq_true_iff, hmem]
  exact (and_iff_right hlabel).symm

theorem accepts_eq_of_mem_iff (h : graph.list = .ok listing) (h' : other.list = .ok listing')
    (hsize : listing.size = listing'.size)
    (haccepts : ∀ label < listing.size, label ∈ listing.accepts ↔ label ∈ listing'.accepts) :
    listing.accepts = listing'.accepts := by
  rw [accepts_eq_filter h, accepts_eq_filter h', ← hsize]
  refine List.filter_congr fun label hlabel => ?_
  exact decide_eq_decide.mpr (haccepts label (List.mem_range.mp hlabel))

end Graph

end PatternAutomata
