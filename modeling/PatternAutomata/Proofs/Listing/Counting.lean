import Mathlib.Data.List.Induction
import PatternAutomata.Ascending
import PatternAutomata.Fault
import PatternAutomata.Listing.Stats

/-!
# Counting in one pass

The counts of a listing can be taken in one pass over its edges: a flag for each state remembers
whether an edge that reads nothing was seen to leave it, and an ascending table counts the symbols.
A flag is set at the place that the edge names, so the pass is only good for a listing whose edges
start at listed states.  What the pass keeps after each edge are the counts of the edges so far.
-/

namespace PatternAutomata

variable {c d : Char} {size : Nat} {edges : List ListedEdge} {edge : ListedEdge}

/-- Counts one more of a symbol in an ascending table. -/
def countSymbol (c : Char) : List (Char × Nat) → List (Char × Nat)
  | [] => [(c, 1)]
  | (d, count) :: rest =>
    if c.toNat < d.toNat then (c, 1) :: (d, count) :: rest
    else if c.toNat = d.toNat then (d, count + 1) :: rest
    else (d, count) :: countSymbol c rest

theorem countSymbol_map {symbols : List Char} (h : Ascending Char.toNat symbols)
    {count : Char → Nat} (hnew : c ∉ symbols → count c = 0) :
    countSymbol c (symbols.map fun d => (d, count d)) =
      (insertAscending Char.toNat c symbols).map fun d =>
        (d, if d = c then count d + 1 else count d) := by
  have hother : ∀ ds : List Char, (∀ d ∈ ds, d ≠ c) →
      (ds.map fun d => (d, count d)) =
        ds.map fun d => (d, if d = c then count d + 1 else count d) := by
    intro ds hds
    refine List.map_congr_left fun d hd => ?_
    rw [if_neg (hds d hd)]
  induction symbols with
  | nil => simp [countSymbol, insertAscending, hnew List.not_mem_nil]
  | cons d symbols ih =>
    obtain ⟨hd, hsymbols⟩ := List.pairwise_cons.mp h
    simp only [List.map_cons, countSymbol, insertAscending]
    rcases Nat.lt_trichotomy c.toNat d.toNat with hlt | heq | hgt
    · have hne : ∀ e ∈ d :: symbols, e ≠ c := by
        rintro e he rfl
        rcases List.mem_cons.mp he with rfl | he
        · exact Nat.lt_irrefl _ hlt
        · exact Nat.lt_asymm hlt (hd e he)
      have hzero : count c = 0 := hnew fun hc => hne c hc rfl
      rw [if_pos hlt, if_pos hlt, List.map_cons, ← hother _ hne, if_pos rfl, hzero, List.map_cons]
    · obtain rfl : c = d := Char.toNat_inj.mp heq
      have hne : ∀ e ∈ symbols, e ≠ c := by
        rintro e he rfl
        exact Nat.lt_irrefl _ (hd e he)
      simp only [Nat.lt_irrefl, if_false, if_true, List.map_cons]
      rw [hother _ hne]
    · have hne : d ≠ c := by
        rintro rfl
        exact Nat.lt_irrefl _ hgt
      have hnew' : c ∉ symbols → count c = 0 := fun hc =>
        hnew (List.not_mem_cons_of_ne_of_not_mem hne.symm hc)
      rw [if_neg (Nat.lt_asymm hgt), if_neg (Nat.ne_of_gt hgt), if_neg (Nat.lt_asymm hgt),
        if_neg (Nat.ne_of_gt hgt), List.map_cons, if_neg hne, ih hsymbols hnew']

theorem ascendingOf_concat {xs : List Char} :
    ascendingOf Char.toNat (xs ++ [c]) = insertAscending Char.toNat c (ascendingOf Char.toNat xs) :=
  List.foldl_append

/-- How many there are of each symbol, by ascending symbol. -/
def frequencies (symbols : List Char) : List (Char × Nat) :=
  (ascendingOf Char.toNat symbols).map fun c => (c, symbols.count c)

theorem countSymbol_frequencies {symbols : List Char} :
    countSymbol c (frequencies symbols) = frequencies (symbols ++ [c]) := by
  have hnew : c ∉ ascendingOf Char.toNat symbols → symbols.count c = 0 := by
    intro hc
    apply List.count_eq_zero_of_not_mem
    rwa [mem_ascendingOf fun d e h => Char.toNat_inj.mp h] at hc
  rw [frequencies, countSymbol_map (ascending_ascendingOf symbols) hnew, frequencies,
    ascendingOf_concat]
  refine List.map_congr_left fun d _ => ?_
  rw [List.count_append, List.count_singleton]
  by_cases hd : d = c
  · simp [hd]
  · simp [hd, Ne.symm hd]

/-! ### The pass over the edges -/

/-- What the pass keeps. -/
structure Tally where
  transitions : Nat
  epsilonTransitions : Nat
  /-- For each state, whether an edge that reads nothing was seen to leave it. -/
  epsilonSources : List Bool
  symbolFrequency : List (Char × Nat)

namespace Tally

/-- Nothing is counted yet. -/
def fresh (size : Nat) : Tally := ⟨0, 0, List.replicate size false, []⟩

/-- Counts one edge. -/
def add (tally : Tally) (edge : ListedEdge) : Except Fault Tally :=
  match edge.label with
  | .symbol c =>
    .ok { tally with
      transitions := tally.transitions + 1
      symbolFrequency := countSymbol c tally.symbolFrequency }
  | .epsilon =>
    if edge.source < tally.epsilonSources.length then
      .ok { tally with
        epsilonTransitions := tally.epsilonTransitions + 1
        epsilonSources := tally.epsilonSources.set edge.source true }
    else .error .outOfBounds

/-- The counts of some edges between as many states. -/
def of (size : Nat) (edges : List ListedEdge) : Tally :=
  let symbols := edges.filterMap ListedEdge.symbol?
  let epsilonEdges := edges.filter fun edge => edge.label = .epsilon
  { transitions := symbols.length
    epsilonTransitions := epsilonEdges.length
    epsilonSources := (List.range size).map fun label =>
      epsilonEdges.any fun edge => edge.source = label
    symbolFrequency := frequencies symbols }

theorem of_nil : of size [] = fresh size := by
  have hflags : (List.range size).map (fun _ => false) = List.replicate size false := by
    rw [List.map_const', List.length_range]
  simp [of, fresh, frequencies, ascendingOf, hflags]

theorem set_flag {flag : Nat → Bool} {i : Nat} :
    ((List.range size).map flag).set i true =
      (List.range size).map fun label => flag label || decide (i = label) := by
  apply List.ext_getElem
  · simp
  · intro label hset hmap
    rw [List.getElem_set, List.getElem_map, List.getElem_map, List.getElem_range]
    by_cases hi : i = label
    · simp [hi]
    · simp [hi]

/-- One edge more is counted, if it starts at a state. -/
theorem add_of (h : edge.source < size) :
    (of size edges).add edge = .ok (of size (edges ++ [edge])) := by
  obtain ⟨source, label, target⟩ := edge
  cases label with
  | symbol c =>
    simp only [add, of, List.filterMap_append, List.filter_append, countSymbol_frequencies]
    simp [ListedEdge.symbol?]
  | epsilon =>
    have hflag : source < (of size edges).epsilonSources.length := by
      simpa [of] using h
    have hsymbol : [ListedEdge.mk source .epsilon target].filterMap ListedEdge.symbol? = [] := rfl
    simp only [add, if_pos hflag]
    simp only [of, set_flag, List.filterMap_append, hsymbol, List.filter_append]
    simp

theorem foldlM_add (h : ∀ edge ∈ edges, edge.source < size) :
    edges.foldlM add (fresh size) = .ok (of size edges) := by
  induction edges using List.reverseRecOn with
  | nil => rw [of_nil]; rfl
  | append_singleton edges edge ih =>
    obtain ⟨hedges, hedge⟩ := List.forall_mem_append.mp h
    have hlast : (of size edges).add edge = .ok (of size (edges ++ [edge])) :=
      add_of (hedge edge (List.mem_singleton.mpr rfl))
    simp only [List.foldlM_append, ih hedges, List.foldlM_cons, List.foldlM_nil, hlast, bind,
      Except.bind]
    rfl

end Tally

/-- The counts of a listing, taken in one pass over its edges. -/
def Listing.tally (listing : Listing) : Except Fault Stats := do
  let tally ← listing.edges.foldlM Tally.add (.fresh listing.size)
  let epsilonStates := tally.epsilonSources.count true
  return {
    states := listing.size
    transitions := tally.transitions
    epsilonTransitions := tally.epsilonTransitions
    accepting := listing.accepts.length
    epsilonStates := epsilonStates
    other := listing.size - (listing.accepts.length + epsilonStates)
    symbolFrequency := tally.symbolFrequency }

/-- The pass gives the counts of the listing, if every edge starts at a listed state. -/
theorem Listing.tally_eq {listing : Listing}
    (h : ∀ edge ∈ listing.edges, edge.source < listing.size) : listing.tally = .ok listing.stats := by
  have hflags : ∀ flag : Nat → Bool, ((List.range listing.size).map flag).count true =
      (List.range listing.size).countP flag := by
    intro flag
    rw [List.count, List.countP_map]
    refine List.countP_congr fun label _ => ?_
    simp
  rw [tally, Tally.foldlM_add h]
  simp only [bind, Except.bind, Tally.of, hflags]
  rfl

end PatternAutomata
