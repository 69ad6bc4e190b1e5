import PatternAutomata.Proofs.Listing.Counting
import PatternAutomata.Proofs.Listing.Preorder
import PatternAutomata.Proofs.Nfa.Shape

/-!
# The counts of whole automata

Where the start reaches every state, the listing has all states, and its counts are those of the
whole graph.  This is so for the automaton of a postfix, where the tokens account for the counts,
and for its subset automata.  In both no accepting state is left by an edge that reads nothing, so
the kinds that are counted do not overlap, and what is left over is not rounded up to zero.
-/

namespace PatternAutomata

/-! ### Counts in lists -/

theorem frequencies_congr {symbols more : List Char} (h : symbols.Perm more) :
    frequencies symbols = frequencies more := by
  have hascending : ascendingOf Char.toNat symbols = ascendingOf Char.toNat more := by
    refine (ascending_ascendingOf _).eq_of_mem_iff (ascending_ascendingOf _) fun c => ?_
    have hkey : Function.Injective Char.toNat := fun c d h => Char.toNat_inj.mp h
    rw [mem_ascendingOf hkey, mem_ascendingOf hkey]
    exact h.mem_iff
  rw [frequencies, frequencies, hascending]
  exact List.map_congr_left fun c _ => by rw [h.count_eq]

/-- Of items of two kinds that do not overlap, the others are what the two kinds leave. -/
theorem length_eq_countP_add {α : Type} {first second : α → Bool} {xs : List α}
    (h : ∀ x ∈ xs, first x = true → second x = false) :
    xs.length = xs.countP first + xs.countP second +
      xs.countP fun x => !first x && !second x := by
  induction xs with
  | nil => rfl
  | cons x xs ih =>
    obtain ⟨hx, hxs⟩ := List.forall_mem_cons.mp h
    have hrest := ih hxs
    -- the first item adds one to exactly one of the counts
    have hone : (if first x then 1 else 0) + (if second x then 1 else 0) +
        (if !first x && !second x then 1 else 0) = 1 := by
      cases hfirst : first x with
      | true => simp [hx hfirst]
      | false => cases second x <;> rfl
    simp only [List.length_cons, List.countP_cons]
    omega

/-- Where the items of one kind have one part each, and the others none, there are as many parts as
items of this kind. -/
theorem length_flatMap_eq_countP {α β : Type} {part : α → List β} {kind : α → Bool} {xs : List α}
    (h : ∀ x ∈ xs, (part x).length = if kind x then 1 else 0) :
    (xs.flatMap part).length = xs.countP kind := by
  induction xs with
  | nil => rfl
  | cons x xs ih =>
    obtain ⟨hx, hxs⟩ := List.forall_mem_cons.mp h
    rw [List.flatMap_cons, List.length_append, List.countP_cons, ih hxs, hx, Nat.add_comm]

theorem flatMap_zipIdx_fst {α β : Type} (part : α → List β) (xs : List α) :
    xs.zipIdx.flatMap (fun entry => part entry.1) = xs.flatMap part := by
  have hmap := List.flatMap_map Prod.fst part xs.zipIdx
  rw [List.zipIdx_map_fst] at hmap
  exact hmap.symm

/-- In a number of copies of an ascending list each of its symbols is found once in every copy. -/
theorem frequencies_copies {alphabet : List Char} (h : Ascending Char.toNat alphabet) {n : Nat}
    (hn : 0 < n) : frequencies ((List.range n).flatMap fun _ => alphabet) =
      alphabet.map fun c => (c, n) := by
  have hsymbols : ascendingOf Char.toNat ((List.range n).flatMap fun _ => alphabet) = alphabet := by
    refine (ascending_ascendingOf _).eq_of_mem_iff h fun c => ?_
    rw [mem_ascendingOf fun c d h => Char.toNat_inj.mp h, List.mem_flatMap]
    exact ⟨fun ⟨_, _, hc⟩ => hc, fun hc => ⟨0, List.mem_range.mpr hn, hc⟩⟩
  rw [frequencies, hsymbols]
  refine List.map_congr_left fun c hc => ?_
  have hcount : alphabet.count c = 1 := List.count_eq_one_of_mem h.nodup hc
  simp [List.count_flatMap, Function.comp_def, hcount]

namespace Graph

variable {graph : Graph} {states : List StateId} {p : StateId}

/-! ### The counts of a graph -/

/-- An edge that reads nothing leaves the state. -/
def hasEpsilon (graph : Graph) (state : StateId) : Bool :=
  !(graph.edgesAt state).epsilon.isEmpty

/-- The symbols on the edges of a graph. -/
def symbols (graph : Graph) : List Char :=
  (List.range graph.size).flatMap fun p => (graph.edgesAt p).labeled.map fun edge => edge.1

/-- The targets of the edges that read nothing. -/
def epsilonTargets (graph : Graph) : List StateId :=
  (List.range graph.size).flatMap fun p => (graph.edgesAt p).epsilon

theorem symbols_listingOf : (graph.listingOf states).edges.filterMap ListedEdge.symbol? =
    states.flatMap fun p => (graph.edgesAt p).labeled.map fun edge => edge.1 := by
  have hpart : ∀ entry : StateId × Nat,
      (listedEdges states entry.2 (graph.edgesAt entry.1)).filterMap ListedEdge.symbol? =
        (graph.edgesAt entry.1).labeled.map fun edge => edge.1 := by
    intro entry
    simp [listedEdges, ListedEdge.symbol?, Function.comp_def]
  rw [listingOf, List.filterMap_flatMap]
  simp only [hpart]
  exact flatMap_zipIdx_fst (fun p => (graph.edgesAt p).labeled.map fun edge => edge.1) states

theorem epsilonTargets_listingOf :
    ((graph.listingOf states).edges.filter fun edge => edge.label = .epsilon).length =
      (states.flatMap fun p => (graph.edgesAt p).epsilon).length := by
  have hpart : ∀ entry : StateId × Nat,
      ((listedEdges states entry.2 (graph.edgesAt entry.1)).filter
        fun edge => edge.label = .epsilon).length = (graph.edgesAt entry.1).epsilon.length := by
    intro entry
    simp [listedEdges, List.filter_map, Function.comp_def]
  rw [listingOf, List.filter_flatMap, List.length_flatMap,
    ← flatMap_zipIdx_fst (fun p => (graph.edgesAt p).epsilon), List.length_flatMap]
  simp only [hpart]

/-- What holds of the labels of some states is counted as what holds of the states. -/
theorem countP_labels {ofLabel : Nat → Bool} {ofState : StateId → Bool}
    (h : ∀ label p, states[label]? = some p → ofLabel label = ofState p) :
    (List.range states.length).countP ofLabel = states.countP ofState := by
  have hmap : (List.range states.length).map ofLabel = states.map ofState := by
    refine List.ext_getElem (by simp) fun label hlabel hstate => ?_
    rw [List.length_map] at hstate
    rw [List.getElem_map, List.getElem_map, List.getElem_range]
    exact h label _ (List.getElem?_eq_getElem hstate)
  have hcount := congrArg (List.countP id) hmap
  rwa [List.countP_map, List.countP_map] at hcount

theorem accepts_listingOf :
    (graph.listingOf states).accepts.length = states.countP graph.isAccepting := by
  rw [listingOf, ← List.countP_eq_length_filter]
  refine countP_labels fun label p hp => ?_
  rw [hp]

theorem hasEpsilon_iff : graph.hasEpsilon p = true ↔ ∃ q, graph.links p .epsilon q := by
  rw [hasEpsilon, Bool.not_eq_true', List.isEmpty_eq_false_iff_exists_mem]
  rfl

theorem Enumerates.epsilonStates_eq (h : graph.Enumerates states) :
    (graph.listingOf states).stats.epsilonStates = states.countP graph.hasEpsilon := by
  refine countP_labels fun label p (hp : states[label]? = some p) => ?_
  apply Bool.eq_iff_iff.mpr
  rw [hasEpsilon_iff, List.any_eq_true]
  constructor
  · rintro ⟨⟨i, _, j⟩, hedge, hsource⟩
    obtain ⟨hedge, hepsilon⟩ := List.mem_filter.mp hedge
    obtain rfl := of_decide_eq_true hepsilon
    obtain rfl := of_decide_eq_true hsource
    obtain ⟨p', q, hp', -, hlink⟩ := h.mem_edges_iff_links.mp hedge
    obtain rfl : p = p' := Option.some.inj (hp.symm.trans hp')
    exact ⟨q, hlink⟩
  · rintro ⟨q, hlink⟩
    have hq : q ∈ states := h.mem_of_links p (List.mem_of_getElem? hp) .epsilon q hlink
    obtain ⟨j, hj⟩ := List.mem_iff_getElem?.mp hq
    have hedge : ⟨label, .epsilon, j⟩ ∈ (graph.listingOf states).edges :=
      h.mem_edges_iff_links.mpr ⟨p, q, hp, hj, hlink⟩
    exact ⟨_, List.mem_filter.mpr ⟨hedge, decide_eq_true rfl⟩, decide_eq_true rfl⟩

/-! ### Graphs that are listed as a whole -/

/-- The counts are those of the graph. -/
structure CountedBy (graph : Graph) (stats : Stats) : Prop where
  states_eq : stats.states = graph.size
  transitions_eq : stats.transitions = graph.symbols.length
  epsilonTransitions_eq : stats.epsilonTransitions = graph.epsilonTargets.length
  accepting_eq : stats.accepting = (List.range graph.size).countP graph.isAccepting
  epsilonStates_eq : stats.epsilonStates = (List.range graph.size).countP graph.hasEpsilon
  other_eq : stats.other = stats.states - (stats.accepting + stats.epsilonStates)
  frequency_eq : stats.symbolFrequency = frequencies graph.symbols

/-- Where the start reaches all states, the counts of the listing are those of the graph. -/
theorem Closed.exists_list_countedBy (h : graph.Closed)
    (hreaches : ∀ p < graph.size, graph.Reaches p) :
    ∃ listing, graph.list = .ok listing ∧ graph.CountedBy listing.stats := by
  obtain ⟨states, hwalks, hlist⟩ := h.exists_list
  have henum := hwalks.enumerates
  have hperm : states.Perm (List.range graph.size) := by
    refine (List.perm_ext_iff_of_nodup henum.nodup List.nodup_range).mpr fun p => ?_
    rw [hwalks.mem_iff_reaches, List.mem_range]
    exact ⟨h.lt_of_reaches, hreaches p⟩
  have hsymbols : ((graph.listingOf states).edges.filterMap ListedEdge.symbol?).Perm
      graph.symbols := by
    rw [symbols_listingOf]
    exact hperm.flatMap_right _
  refine ⟨graph.listingOf states, hlist, ?_⟩
  exact
    { states_eq := hperm.length_eq.trans List.length_range
      transitions_eq := hsymbols.length_eq
      epsilonTransitions_eq :=
        epsilonTargets_listingOf.trans (hperm.flatMap_right _).length_eq
      accepting_eq := accepts_listingOf.trans (hperm.countP_eq _)
      epsilonStates_eq := henum.epsilonStates_eq.trans (hperm.countP_eq _)
      other_eq := rfl
      frequency_eq := frequencies_congr hsymbols }

/-- Every state is counted once: as an accepting state, as one that an edge which reads nothing
leaves, or as one of the others. -/
structure Partitions (graph : Graph) (stats : Stats) : Prop where
  states_eq : stats.states = graph.size
  accepting_eq : stats.accepting = (List.range graph.size).countP graph.isAccepting
  epsilonStates_eq : stats.epsilonStates = (List.range graph.size).countP graph.hasEpsilon
  other_eq : stats.other =
    (List.range graph.size).countP fun p => !graph.isAccepting p && !graph.hasEpsilon p
  /-- Nothing is rounded up to zero. -/
  sum_eq : stats.states = stats.accepting + stats.epsilonStates + stats.other

theorem CountedBy.partitions {stats : Stats} (h : graph.CountedBy stats)
    (hapart : ∀ p < graph.size, graph.isAccepting p = true → graph.hasEpsilon p = false) :
    graph.Partitions stats := by
  obtain ⟨hstates, -, -, haccepting, hepsilon, hother, -⟩ := h
  have hlength := @length_eq_countP_add _ graph.isAccepting graph.hasEpsilon
    (List.range graph.size) fun p hp => hapart p (List.mem_range.mp hp)
  rw [List.length_range] at hlength
  exact ⟨hstates, haccepting, hepsilon, by omega, by omega⟩

end Graph

/-! ### The automaton of a postfix -/

namespace Nfa

variable {nfa : Nfa} {tokens : Postfix} {p q : StateId} {label : Label}

theorem graph_edgesAt {node : Node} (h : nfa.nodes[p]? = some node) :
    nfa.graph.edgesAt p = ⟨node.labeled, node.epsilon⟩ :=
  Graph.edgesAt_eq (graph_edges_iff.mpr ⟨node, h, rfl⟩)

/-- What is put together from the edges of all states is put together from the nodes. -/
theorem flatMap_edgesAt {β : Type} (part : Edges → List β) :
    (List.range nfa.size).flatMap (fun p => part (nfa.graph.edgesAt p)) =
      nfa.nodes.toList.zipIdx.flatMap fun entry => part ⟨entry.1.labeled, entry.1.epsilon⟩ := by
  let edgesOf : Node → Edges := fun node => ⟨node.labeled, node.epsilon⟩
  have hedges : (List.range nfa.size).map nfa.graph.edgesAt = nfa.nodes.toList.map edgesOf := by
    refine List.ext_getElem (by simp [size]) fun p hp hp' => ?_
    rw [List.length_map, Array.length_toList] at hp'
    rw [List.getElem_map, List.getElem_map, List.getElem_range, Array.getElem_toList]
    exact graph_edgesAt (Array.getElem?_eq_getElem hp')
  calc (List.range nfa.size).flatMap (fun p => part (nfa.graph.edgesAt p))
    _ = ((List.range nfa.size).map nfa.graph.edgesAt).flatMap part := (List.flatMap_map ..).symm
    _ = (nfa.nodes.toList.map edgesOf).flatMap part := by rw [hedges]
    _ = nfa.nodes.toList.flatMap fun node => part (edgesOf node) := List.flatMap_map ..
    _ = _ := (flatMap_zipIdx_fst (fun node => part (edgesOf node)) _).symm

theorem graph_symbols :
    nfa.graph.symbols = nfa.edges.filterMap fun edge => edge.label.symbol? := by
  have hpart : ∀ entry : Node × Nat, (entry.1.edgesFrom entry.2).filterMap
      (fun edge => edge.label.symbol?) = entry.1.labeled.map fun edge => edge.1 := by
    intro entry
    simp [Node.edgesFrom, Label.symbol?]
  rw [edges, edgesOf, List.filterMap_flatMap]
  simp only [hpart]
  exact flatMap_edgesAt fun edges => edges.labeled.map fun edge => edge.1

theorem graph_epsilonTargets :
    nfa.graph.epsilonTargets.length = nfa.edges.countP fun edge => edge.label = .epsilon := by
  have hpart : ∀ entry : Node × Nat, (entry.1.edgesFrom entry.2).countP
      (fun edge => edge.label = .epsilon) = entry.1.epsilon.length := by
    intro entry
    simp [Node.edgesFrom, Function.comp_def]
  have htargets : nfa.graph.epsilonTargets = _ := flatMap_edgesAt fun edges => edges.epsilon
  rw [htargets, edges, edgesOf, List.countP_flatMap, List.length_flatMap]
  simp only [Function.comp_def, hpart]

theorem Sealed.graph_links_iff_mem (h : nfa.Sealed) :
    nfa.graph.links p label q ↔ ⟨p, label, q⟩ ∈ nfa.edges :=
  h.graph_links_iff.trans h.leads_iff.symm

namespace HasShapeOf

theorem reaches (h : nfa.HasShapeOf tokens) (hsealed : nfa.Sealed) (hp : p < nfa.size) :
    nfa.graph.Reaches p := by
  obtain ⟨word, hpath⟩ := (h.between p hp).reached
  exact ⟨word, hpath.mono fun _ _ _ hedge => hsealed.graph_links_iff_mem.mpr hedge⟩

/-- No edge leaves the accepting state. -/
theorem edgesAt_accept (h : nfa.HasShapeOf tokens) (hsealed : nfa.Sealed) :
    nfa.graph.edgesAt nfa.accept = ⟨[], []⟩ := by
  have hnone : ∀ target, target ∉ (nfa.graph.edgesAt nfa.accept).targets := by
    intro target htarget
    obtain ⟨label, hedge⟩ := Graph.exists_link_of_mem_targets htarget
    exact h.not_left _ (hsealed.graph_links_iff_mem.mp hedge) rfl
  have hempty := List.eq_nil_iff_forall_not_mem.mpr hnone
  obtain ⟨hlabeled, hepsilon⟩ := List.append_eq_nil_iff.mp hempty
  exact congrArg₂ Edges.mk (List.map_eq_nil_iff.mp hlabeled) hepsilon

/-- An edge leaves every state but the accepting one. -/
theorem exists_link (h : nfa.HasShapeOf tokens) (hsealed : nfa.Sealed) (hp : p < nfa.size)
    (haccept : p ≠ nfa.accept) : ∃ label q, nfa.graph.links p label q := by
  obtain ⟨word, hpath⟩ := (h.between p hp).reaching
  obtain ⟨label, q, _, -, hedge, -⟩ := hpath.exists_first haccept
  exact ⟨label, q, hsealed.graph_links_iff_mem.mpr hedge⟩

/-- The states that neither accept nor are left without reading are those with a symbol edge, and
they have one. -/
theorem length_labeled (h : nfa.HasShapeOf tokens) (hsealed : nfa.Sealed) (hp : p < nfa.size) :
    (nfa.graph.edgesAt p).labeled.length =
      if !nfa.graph.isAccepting p && !nfa.graph.hasEpsilon p then 1 else 0 := by
  by_cases haccept : p = nfa.accept
  · subst haccept
    have haccepting : nfa.graph.isAccepting nfa.accept = true := decide_eq_true rfl
    simp [haccepting, h.edgesAt_accept hsealed]
  · have haccepting : nfa.graph.isAccepting p = false := decide_eq_false haccept
    have hnode : nfa.nodes[p]? = some nfa.nodes[p] := Array.getElem?_eq_getElem hp
    have hedges := graph_edgesAt hnode
    rcases h.branches _ (Array.mem_of_getElem? hnode) with ⟨hone, hnone⟩ | ⟨hnone, -⟩
    · simp [haccepting, Graph.hasEpsilon, hedges, hone, hnone]
    · -- the edge that leaves the state reads nothing
      have hepsilon : nfa.graph.hasEpsilon p = true := by
        obtain ⟨label, q, hedge⟩ := h.exists_link hsealed hp haccept
        cases label with
        | epsilon => exact Graph.hasEpsilon_iff.mpr ⟨q, hedge⟩
        | symbol c =>
          rw [Graph.links, hedges, hnone] at hedge
          cases hedge
      simp [hepsilon, hedges, hnone]

end HasShapeOf

end Nfa

/-! ### Subset automata -/

namespace Dfa

variable {dfa : Dfa} {nfa : Nfa} {mode : ClosureMode} {p : StateId}

theorem graph_edgesAt {row : List StateId} (h : dfa.table[p]? = some row) :
    dfa.graph.edgesAt p = ⟨dfa.alphabet.zip row, []⟩ :=
  Graph.edgesAt_eq (graph_edges_iff.mpr ⟨row, h, rfl⟩)

theorem graph_reaches (h : dfa.Reachable p) : dfa.graph.Reaches p := by
  induction h with
  | refl => exact .start dfa.graph
  | tail _ hleads ih =>
    obtain ⟨symbol, hnext⟩ := hleads
    exact ih.of_link (graph_links_symbol_iff.mpr hnext)

theorem graph_symbols :
    dfa.graph.symbols = (List.range dfa.size).flatMap fun _ => dfa.alphabet := by
  refine List.flatMap_congr fun p hp => ?_
  have hlt : p < dfa.table.size := List.mem_range.mp hp
  have hrow : dfa.table[p]? = some dfa.table[p] := Array.getElem?_eq_getElem hlt
  have hlength := dfa.row_length _ (Array.mem_of_getElem? hrow)
  rw [graph_edgesAt hrow]
  exact List.map_fst_zip (Nat.le_of_eq hlength.symm)

theorem hasEpsilon_eq_false : dfa.graph.hasEpsilon p = false := by
  by_contra hepsilon
  obtain ⟨q, hedge⟩ := Graph.hasEpsilon_iff.mp (Bool.not_eq_false _ ▸ hepsilon)
  exact not_graph_links_epsilon hedge

theorem graph_epsilonTargets : dfa.graph.epsilonTargets = [] := by
  refine List.flatMap_eq_nil_iff.mpr fun p _ => ?_
  simpa [Graph.hasEpsilon] using @hasEpsilon_eq_false dfa p

end Dfa

/-! ### Exact counts -/

/-- The counts are those that the tokens account for. -/
structure Stats.OfPostfix (stats : Stats) (tokens : Postfix) : Prop where
  states_eq : stats.states = tokens.stateCount
  transitions_eq : stats.transitions = tokens.symbols.length
  epsilonTransitions_eq : stats.epsilonTransitions = tokens.epsilonCount
  accepting_eq : stats.accepting = 1
  other_eq : stats.other = tokens.symbols.length
  frequency_eq : stats.symbolFrequency = frequencies tokens.symbols

/-- The counts are those of a full table: every symbol is read in every state. -/
structure Stats.OfTable (stats : Stats) (dfa : Dfa) : Prop where
  states_eq : stats.states = dfa.size
  transitions_eq : stats.transitions = stats.states * dfa.alphabet.length
  epsilonTransitions_eq : stats.epsilonTransitions = 0
  epsilonStates_eq : stats.epsilonStates = 0
  frequency_eq : stats.symbolFrequency = dfa.alphabet.map fun c => (c, stats.states)

theorem Nfa.HasShapeOf.exists_stats {nfa : Nfa} {tokens : Postfix} (h : nfa.HasShapeOf tokens)
    (hsealed : nfa.Sealed) : ∃ listing, nfa.graph.list = .ok listing ∧
      nfa.graph.Partitions listing.stats ∧ listing.stats.OfPostfix tokens := by
  obtain ⟨listing, hlist, hcounts⟩ :=
    nfa.graph_closed.exists_list_countedBy fun p hp => h.reaches hsealed hp
  have hpartitions : nfa.graph.Partitions listing.stats := by
    refine hcounts.partitions fun p _ haccept => ?_
    rw [of_decide_eq_true haccept, Graph.hasEpsilon, h.edgesAt_accept hsealed]
    rfl
  have hsymbols : nfa.graph.symbols.Perm tokens.symbols := graph_symbols ▸ h.symbols_perm
  have hother : nfa.graph.symbols.length = listing.stats.other := by
    rw [hpartitions.other_eq]
    refine length_flatMap_eq_countP fun p hp => ?_
    rw [List.length_map, h.length_labeled hsealed (List.mem_range.mp hp)]
  have haccepting : (List.range nfa.size).countP nfa.graph.isAccepting = 1 := by
    have hcount : (List.range nfa.size).count nfa.accept = 1 :=
      List.count_eq_one_of_mem List.nodup_range (List.mem_range.mpr nfa.accept_lt)
    rw [← hcount]
    exact List.countP_congr fun p _ => by simp [graph]
  refine ⟨listing, hlist, hpartitions, ?_⟩
  exact
    { states_eq := hcounts.states_eq.trans h.size_eq
      transitions_eq := hcounts.transitions_eq.trans hsymbols.length_eq
      epsilonTransitions_eq :=
        hcounts.epsilonTransitions_eq.trans (graph_epsilonTargets.trans h.epsilon_eq)
      accepting_eq := hcounts.accepting_eq.trans haccepting
      other_eq := hother.symm.trans hsymbols.length_eq
      frequency_eq := hcounts.frequency_eq.trans (frequencies_congr hsymbols) }

theorem Dfa.Determinizes.exists_stats {dfa : Dfa} {nfa : Nfa} {mode : ClosureMode}
    (h : dfa.Determinizes nfa mode) : ∃ listing, dfa.graph.list = .ok listing ∧
      dfa.graph.Partitions listing.stats ∧ listing.stats.OfTable dfa := by
  obtain ⟨listing, hlist, hcounts⟩ :=
    h.graph_closed.exists_list_countedBy fun p hp => graph_reaches (h.reachable hp)
  have hstates : listing.stats.states = dfa.size := hcounts.states_eq
  refine ⟨listing, hlist, hcounts.partitions fun _ _ _ => hasEpsilon_eq_false, ?_⟩
  exact
    { states_eq := hstates
      transitions_eq := by
        rw [hcounts.transitions_eq, graph_symbols, hstates]
        simp [List.length_flatMap]
      epsilonTransitions_eq := by rw [hcounts.epsilonTransitions_eq, graph_epsilonTargets]; rfl
      epsilonStates_eq := by
        rw [hcounts.epsilonStates_eq]
        exact List.countP_eq_zero.mpr fun p _ => by simp [hasEpsilon_eq_false]
      frequency_eq := by
        rw [hcounts.frequency_eq, graph_symbols, hstates]
        exact frequencies_copies dfa.alphabet_ascending (Nat.lt_of_le_of_lt (Nat.zero_le _)
          dfa.start_lt) }

/-- **Exact counts.**  The counts of the automaton that is built from a postfix are those that the
tokens account for, and the counts of its subset automata are those of a full table.  Each state is
counted once. -/
theorem Nfa.ofPostfix_exact_stats {nfa : Nfa} {tokens : Postfix} (h : ofPostfix tokens = .ok nfa) :
    (∃ listing, nfa.graph.list = .ok listing ∧ nfa.graph.Partitions listing.stats ∧
      listing.stats.OfPostfix tokens) ∧
      ∀ mode, ∃ dfa, nfa.determinize mode = .ok dfa ∧
        ∃ listing, dfa.graph.list = .ok listing ∧ dfa.graph.Partitions listing.stats ∧
          listing.stats.OfTable dfa := by
  constructor
  · obtain ⟨e, rfl, hautomaton⟩ := exists_expr_of_ofPostfix h
    have hsealed := ofPostfix_sealed h
    exact (hautomaton.hasShapeOf hsealed).exists_stats hsealed
  · intro mode
    obtain ⟨dfa, hdfa, hlaws⟩ := nfa.exists_determinize mode
    exact ⟨dfa, hdfa, hlaws.exists_stats⟩

/-- A symbol that is read twice, under a star and beside another symbol. -/
theorem Nfa.ofPostfix_exact_stats_of_repeated :
    ∃ nfa, ofPostfix [.symbol 'b', .star, .symbol 'a', .symbol 'b', .alternate, .concat] = .ok nfa ∧
      ∃ listing, nfa.graph.list = .ok listing ∧ nfa.graph.Partitions listing.stats ∧
        listing.stats.states = 10 ∧ listing.stats.transitions = 3 ∧ listing.stats.other = 3 ∧
        listing.stats.symbolFrequency = [('a', 1), ('b', 2)] ∧
        ∀ mode, ∃ dfa, nfa.determinize mode = .ok dfa ∧
          ∃ listing, dfa.graph.list = .ok listing ∧ dfa.graph.Partitions listing.stats ∧
            listing.stats.OfTable dfa := by
  obtain ⟨nfa, hnfa, -⟩ := exists_isAutomatonOf
    (.concat (.star (.symbol 'b')) (.alternate (.symbol 'a') (.symbol 'b')))
  obtain ⟨⟨listing, hlist, hpartitions, hcounts⟩, hsubsets⟩ := ofPostfix_exact_stats hnfa
  exact ⟨nfa, hnfa, listing, hlist, hpartitions, hcounts.states_eq, hcounts.transitions_eq,
    hcounts.other_eq, hcounts.frequency_eq, hsubsets⟩

end PatternAutomata
