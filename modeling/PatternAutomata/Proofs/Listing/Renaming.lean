import Mathlib.Data.Set.Function
import PatternAutomata.Listing.Stats
import PatternAutomata.Listing.Written
import PatternAutomata.Proofs.Listing.Preorder

/-!
# Renaming the states of a graph

A listing does not depend on the names of the states.  A walk compares names only to see whether a
state was entered before, so under other names it takes the same steps; and the labels are places in
the order of the walk.  The labels are such names themselves: the graph between the labels of a
listing has this listing again.
-/

namespace PatternAutomata

/-- The edges to the same states under their other names. -/
def Edges.map (rename : StateId → StateId) (edges : Edges) : Edges where
  labeled := edges.labeled.map fun (symbol, target) => (symbol, rename target)
  epsilon := edges.epsilon.map rename

@[simp] theorem Edges.targets_map {rename : StateId → StateId} {edges : Edges} :
    (edges.map rename).targets = edges.targets.map rename := by
  simp [targets, map, Function.comp_def]

namespace Graph

variable {rename : StateId → StateId} {graph other : Graph} {p q : StateId}
  {stack entered all states : List StateId}

/-- What the start reaches in the first graph is found in the second one under other names: the
start, the accepting states and the edges of every state, in their order. -/
structure Renames (rename : StateId → StateId) (graph other : Graph) : Prop where
  injOn : Set.InjOn rename { p | graph.Reaches p }
  start_eq : other.start = rename graph.start
  accepting_eq : ∀ p, graph.Reaches p → other.isAccepting (rename p) = graph.isAccepting p
  edges_eq : ∀ p, graph.Reaches p → other.edgesAt (rename p) = (graph.edgesAt p).map rename

/-! ### The walk under other names -/

/-- Under other names the walk enters the same states. -/
theorem Walks.of_renames (h : graph.Walks stack entered all) (hnames : graph.Renames rename other)
    (hstack : ∀ state ∈ stack, graph.Reaches state)
    (hentered : ∀ state ∈ entered, graph.Reaches state) :
    other.Walks (stack.map rename) (entered.map rename) (all.map rename) := by
  induction h with
  | done => exact .done _
  | skip hseen _ ih =>
    exact .skip (List.mem_map_of_mem hseen) (ih (List.forall_mem_cons.mp hstack).2 hentered)
  | @enter state stack entered all hnew _ ih =>
    obtain ⟨hstate, hrest⟩ := List.forall_mem_cons.mp hstack
    refine .enter ?_ ?_
    · intro hseen
      obtain ⟨q, hq, heq⟩ := List.mem_map.mp hseen
      rw [hnames.injOn (hentered q hq) hstate heq] at hq
      exact hnew hq
    · have hstack' := List.forall_mem_append.mpr
        ⟨fun target htarget => hstate.of_target htarget, hrest⟩
      have hentered' := List.forall_mem_append.mpr
        ⟨hentered, List.forall_mem_singleton.mpr hstate⟩
      simpa [hnames.edges_eq state hstate] using ih hstack' hentered'

/-- Under other names the states have the same labels. -/
theorem Enumerates.idxOf_rename (h : graph.Enumerates states)
    (h' : other.Enumerates (states.map rename)) (hp : p ∈ states) :
    (states.map rename).idxOf (rename p) = states.idxOf p := by
  have hlabel : states[states.idxOf p]? = some p := (h.idxOf_eq_iff hp).mp rfl
  apply (h'.idxOf_eq_iff (List.mem_map_of_mem hp)).mpr
  rw [List.getElem?_map, hlabel]
  rfl

theorem listedEdges_rename (h : graph.Enumerates states)
    (h' : other.Enumerates (states.map rename)) {source : Nat} {edges : Edges}
    (htargets : ∀ target ∈ edges.targets, target ∈ states) :
    listedEdges (states.map rename) source (edges.map rename) =
      listedEdges states source edges := by
  simp only [listedEdges, Edges.map, List.map_map]
  congr 1
  · refine List.map_congr_left fun edge hedge => ?_
    have hlisted : edge.2 ∈ states :=
      htargets edge.2 (List.mem_append_left _ (List.mem_map_of_mem hedge))
    simp only [Function.comp_apply, h.idxOf_rename h' hlisted]
  · refine List.map_congr_left fun target htarget => ?_
    have hlisted : target ∈ states := htargets target (List.mem_append_right _ htarget)
    simp only [Function.comp_apply, h.idxOf_rename h' hlisted]

/-- Under other names the listing has the same edges and the same accepting states. -/
theorem listingOf_rename (hwalks : graph.Walks [graph.start] [] states)
    (hnames : graph.Renames rename other) (h' : other.Enumerates (states.map rename)) :
    other.listingOf (states.map rename) =
      { graph.listingOf states with states := states.map rename } := by
  have h := hwalks.enumerates
  have hedges : (other.listingOf (states.map rename)).edges = (graph.listingOf states).edges := by
    simp only [listingOf, List.zipIdx_map, List.flatMap_map]
    refine List.flatMap_congr fun ⟨p, label⟩ hentry => ?_
    have hp : p ∈ states := List.fst_mem_of_mem_zipIdx hentry
    show listedEdges (states.map rename) label (other.edgesAt (rename p)) = _
    rw [hnames.edges_eq p (hwalks.mem_iff_reaches.mp hp)]
    refine listedEdges_rename h h' fun target htarget => ?_
    exact hwalks.mem_of_target nofun hp htarget
  have haccepts : (other.listingOf (states.map rename)).accepts =
      (graph.listingOf states).accepts := by
    simp only [listingOf, List.length_map, List.getElem?_map]
    refine List.filter_congr fun label _ => ?_
    cases hlabel : states[label]? with
    | none => rfl
    | some p =>
      exact hnames.accepting_eq p (hwalks.mem_iff_reaches.mp (List.mem_of_getElem? hlabel))
  simp only [listingOf] at hedges haccepts ⊢
  rw [hedges, haccepts]

theorem Closed.list_of_renames (hother : other.Closed) (hnames : graph.Renames rename other)
    (hwalks : graph.Walks [graph.start] [] states) :
    other.list = .ok { graph.listingOf states with states := states.map rename } := by
  obtain ⟨states', hwalks', hlist⟩ := hother.exists_list
  have hwalks'' : other.Walks [other.start] [] (states.map rename) := by
    rw [hnames.start_eq]
    exact hwalks.of_renames hnames (List.forall_mem_singleton.mpr (.start graph)) nofun
  have hstates : states' = states.map rename :=
    (hwalks'.eq_visit hother).trans (hwalks''.eq_visit hother).symm
  rw [hlist, hstates, listingOf_rename hwalks hnames hwalks''.enumerates]

end Graph

/-! ### The graph between labels -/

namespace Listing

variable {listing : Listing}

/-- The edges out of a label. -/
def edgesAt (listing : Listing) (label : Nat) : Edges where
  labeled := (listing.edges.filter (·.source = label)).filterMap fun edge =>
    edge.symbol?.map fun symbol => (symbol, edge.target)
  epsilon := (listing.edges.filter (·.source = label)).filterMap fun edge =>
    if edge.label = .epsilon then some edge.target else none

/-- The listing as a graph whose states are the labels. -/
def graph (listing : Listing) : Graph where
  size := listing.size
  start := listing.start
  isAccepting label := decide (label ∈ listing.accepts)
  edges label := if label < listing.size then .ok (listing.edgesAt label) else .error .outOfBounds

theorem edgesAt_graph {label : Nat} (h : label < listing.size) :
    listing.graph.edgesAt label = listing.edgesAt label :=
  Graph.edgesAt_eq (if_pos h)

theorem graph_closed (hstart : 0 < listing.size)
    (htargets : ∀ edge ∈ listing.edges, edge.target < listing.size) : listing.graph.Closed where
  start_lt := hstart
  exists_edges label hlt := ⟨listing.edgesAt label, if_pos hlt⟩
  target_lt label edges hedges target htarget := by
    obtain rfl : listing.edgesAt label = edges := by
      simp only [graph] at hedges
      split at hedges
      · exact Except.ok.inj hedges
      · cases hedges
    rcases List.mem_append.mp htarget with htarget | htarget
    · obtain ⟨⟨symbol, _⟩, hlabeled, rfl⟩ := List.mem_map.mp htarget
      obtain ⟨edge, hedge, hsymbol⟩ := List.mem_filterMap.mp hlabeled
      obtain ⟨_, -, heq⟩ := Option.map_eq_some_iff.mp hsymbol
      cases heq
      exact htargets edge (List.mem_of_mem_filter hedge)
    · obtain ⟨edge, hedge, htarget⟩ := List.mem_filterMap.mp htarget
      split at htarget
      · cases htarget
        exact htargets edge (List.mem_of_mem_filter hedge)
      · cases htarget

end Listing

/-- Of a list that is put together from one part for each entry, the items that name one entry as
their place are its part. -/
theorem filter_flatMap_zipIdx {α β : Type} {part : α × Nat → List β} {place : β → Nat}
    (hplace : ∀ entry, ∀ item ∈ part entry, place item = entry.2) {xs : List α} {x : α}
    {i first : Nat} (hx : xs[i]? = some x) :
    ((xs.zipIdx first).flatMap part).filter (place · = first + i) = part (x, first + i) := by
  induction xs generalizing i first with
  | nil => cases hx
  | cons y ys ih =>
    rw [List.zipIdx_cons, List.flatMap_cons, List.filter_append]
    cases i with
    | zero =>
      cases hx
      have hall : (part (x, first)).filter (place · = first + 0) = part (x, first) :=
        List.filter_eq_self.mpr fun item hitem => by simp [hplace _ item hitem]
      have hnone : ((ys.zipIdx (first + 1)).flatMap part).filter (place · = first + 0) = [] := by
        refine List.filter_eq_nil_iff.mpr fun item hitem => ?_
        obtain ⟨entry, hentry, hitem⟩ := List.mem_flatMap.mp hitem
        have hlater : first + 1 ≤ entry.2 := List.le_snd_of_mem_zipIdx hentry
        rw [hplace entry item hitem, decide_eq_true_iff]
        exact Nat.ne_of_gt hlater
      rw [hall, hnone, List.append_nil]
      rfl
    | succ i =>
      have hnone : (part (y, first)).filter (place · = first + (i + 1)) = [] := by
        refine List.filter_eq_nil_iff.mpr fun item hitem => ?_
        rw [hplace _ item hitem, decide_eq_true_iff]
        exact Nat.ne_of_lt (Nat.lt_add_of_pos_right (Nat.succ_pos i))
      have hrest := @ih i (first + 1) hx
      rw [Nat.add_right_comm first 1 i] at hrest
      rw [hnone, List.nil_append]
      exact hrest

namespace Graph

variable {graph : Graph} {states : List StateId} {p : StateId} {i : Nat}

theorem edgesAt_listingOf (hp : states[i]? = some p) :
    (graph.listingOf states).edgesAt i = (graph.edgesAt p).map states.idxOf := by
  have hfilter : (graph.listingOf states).edges.filter (·.source = i) =
      listedEdges states i (graph.edgesAt p) := by
    have h := @filter_flatMap_zipIdx _ _
      (fun entry : StateId × Nat => listedEdges states entry.2 (graph.edgesAt entry.1))
      ListedEdge.source (fun _ _ hedge => source_of_mem_listedEdges hedge) states p i 0 hp
    simp only [Nat.zero_add] at h
    exact h
  simp [Listing.edgesAt, hfilter, listedEdges, Edges.map, ListedEdge.symbol?]

/-- The states have the same part in the graph as their labels have in the graph of the listing. -/
theorem Enumerates.renames_labels (h : graph.Enumerates states)
    (hreaches : ∀ p, graph.Reaches p → p ∈ states) :
    graph.Renames states.idxOf (graph.listingOf states).graph where
  injOn p hp q _ heq := (List.idxOf_inj (hreaches p hp)).mp heq
  start_eq := by
    have hstart := (h.idxOf_eq_iff (hreaches _ (.start graph))).mpr h.start_first
    exact hstart.symm
  accepting_eq p hp := by
    have hlabel : states[states.idxOf p]? = some p := (h.idxOf_eq_iff (hreaches p hp)).mp rfl
    apply Bool.eq_iff_iff.mpr
    refine decide_eq_true_iff.trans (mem_accepts_iff.trans ?_)
    rw [hlabel]
    simp
  edges_eq p hp := by
    have hlabel : states[states.idxOf p]? = some p := (h.idxOf_eq_iff (hreaches p hp)).mp rfl
    have hlt : states.idxOf p < states.length := List.idxOf_lt_length_of_mem (hreaches p hp)
    rw [← edgesAt_listingOf hlabel]
    exact Listing.edgesAt_graph hlt

theorem Enumerates.map_idxOf (h : graph.Enumerates states) :
    states.map states.idxOf = List.range states.length := by
  refine List.ext_getElem (by simp) fun i hi hi' => ?_
  rw [List.getElem_map, List.getElem_range]
  exact h.nodup.idxOf_getElem i (by simpa using hi')

end Graph

/-! ### What is written -/

/-- What is written of a listing names no states. -/
theorem Listing.render_eq {listing : Listing} {states : List StateId}
    (h : states.length = listing.size) (format : ListingFormat) (colored : Bool) :
    Listing.render { listing with states := states } format colored =
      listing.render format colored := by
  have hsize : Listing.size { listing with states := states } = listing.size := h
  cases format with
  | text =>
    show Listing.transcript _ _ = Listing.transcript _ _
    simp only [transcript, start]
  | dot =>
    have hstate : dotState { listing with states := states } = dotState listing := rfl
    show Listing.dot _ = Listing.dot _
    unfold dot
    rw [hsize, hstate]
  | json =>
    show (Listing.toJson _).render .pretty ++ "\n" = (Listing.toJson _).render .pretty ++ "\n"
    simp only [toJson, start, hsize]

theorem Listing.stats_eq {listing : Listing} {states : List StateId}
    (h : states.length = listing.size) :
    Listing.stats { listing with states := states } = listing.stats := by
  have hsize : Listing.size { listing with states := states } = listing.size := h
  simp only [stats, hsize]

/-- **Listings under other names.**  Where the states of a closed graph have other names, the
listing is the same but for these names, and so is all that is written and counted of it.  The
labels are such names: the graph between the labels of a listing has the listing in which every
label names itself. -/
theorem Graph.Closed.list_eq_of_renames {graph : Graph} (h : graph.Closed) :
    ∃ listing, graph.list = .ok listing ∧
      (∀ (other : Graph) (rename : StateId → StateId), other.Closed → graph.Renames rename other →
        ∃ listing', other.list = .ok listing' ∧ listing'.states = listing.states.map rename ∧
          listing'.edges = listing.edges ∧ listing'.accepts = listing.accepts ∧
          listing'.size = listing.size ∧
          (∀ format colored, listing'.render format colored = listing.render format colored) ∧
          listing'.stats = listing.stats) ∧
      listing.graph.list = .ok ⟨List.range listing.size, listing.edges, listing.accepts⟩ := by
  obtain ⟨states, hwalks, hlist⟩ := h.exists_list
  refine ⟨graph.listingOf states, hlist, fun other rename hother hnames => ?_, ?_⟩
  · have hlength : (states.map rename).length = (graph.listingOf states).size := List.length_map ..
    exact ⟨_, hother.list_of_renames hnames hwalks, rfl, rfl, rfl, hlength,
      Listing.render_eq hlength, Listing.stats_eq hlength⟩
  · have henum := hwalks.enumerates
    have hlt : 0 < (graph.listingOf states).size :=
      (List.getElem?_eq_some_iff.mp henum.start_first).1
    have hclosed : (graph.listingOf states).graph.Closed :=
      Listing.graph_closed hlt fun edge hedge => (henum.labels_lt.1 edge hedge).2
    have hnames := henum.renames_labels fun p hp => hwalks.mem_iff_reaches.mpr hp
    rw [hclosed.list_of_renames hnames hwalks, henum.map_idxOf]
    rfl

/-- Two graphs with the names of two states exchanged.  In the first graph the start leads to the
larger name first. -/
theorem Graph.Closed.list_eq_of_renames_of_swap :
    ∃ first second : Listing, first.graph.Closed ∧ second.graph.Closed ∧
      first.edges = [⟨0, .symbol 'a', 2⟩, ⟨0, .epsilon, 1⟩, ⟨2, .symbol 'b', 0⟩] ∧
      first.graph.Renames (Equiv.swap 1 2) second.graph ∧
      ∃ listing listing', first.graph.list = .ok listing ∧ second.graph.list = .ok listing' ∧
        listing'.states = listing.states.map (Equiv.swap 1 2) ∧ listing'.edges = listing.edges ∧
        listing'.accepts = listing.accepts ∧ listing'.size = listing.size ∧
        (∀ format colored, listing'.render format colored = listing.render format colored) ∧
        listing'.stats = listing.stats ∧
        listing.graph.list = .ok ⟨List.range listing.size, listing.edges, listing.accepts⟩ := by
  let first : Listing :=
    ⟨[0, 1, 2], [⟨0, .symbol 'a', 2⟩, ⟨0, .epsilon, 1⟩, ⟨2, .symbol 'b', 0⟩], [1]⟩
  let second : Listing :=
    ⟨[0, 1, 2], [⟨0, .symbol 'a', 1⟩, ⟨0, .epsilon, 2⟩, ⟨1, .symbol 'b', 0⟩], [2]⟩
  have hfirst : first.graph.Closed := Listing.graph_closed (by decide) (by decide)
  have hsecond : second.graph.Closed := Listing.graph_closed (by decide) (by decide)
  have haccepting : ∀ p < 3,
      second.graph.isAccepting (Equiv.swap 1 2 p) = first.graph.isAccepting p := by decide
  have hedges : ∀ p < 3,
      second.graph.edgesAt (Equiv.swap 1 2 p) = (first.graph.edgesAt p).map (Equiv.swap 1 2) := by
    decide
  have hnames : first.graph.Renames (Equiv.swap 1 2) second.graph :=
    { injOn := (Equiv.injective _).injOn
      start_eq := rfl
      accepting_eq := fun p hp => haccepting p (hfirst.lt_of_reaches hp)
      edges_eq := fun p hp => hedges p (hfirst.lt_of_reaches hp) }
  obtain ⟨listing, hlisting, hrenamed, hlabels⟩ := hfirst.list_eq_of_renames
  obtain ⟨listing', hlisting', hstates, hsame, haccepts, hsize, hrender, hstats⟩ :=
    hrenamed second.graph (Equiv.swap 1 2) hsecond hnames
  exact ⟨first, second, hfirst, hsecond, rfl, hnames, listing, listing', hlisting, hlisting',
    hstates, hsame, haccepts, hsize, hrender, hstats, hlabels⟩

end PatternAutomata
