import PatternAutomata.Proofs.Nfa.Sealing

/-!
# Closures and reachability

In a sealed automaton, the edges that a mode follows are those with the labels that it lets pass.
So a closure gives the states that are reached from the seeds along such edges, none left out and
none added.  On the way the worklist takes exactly these states off its stack, and each of them
once.

The laws of closures follow from reachability alone: a closure keeps the seeds, grows with them,
gains nothing when it is taken again, and may be taken for each part of the seeds apart.
-/

namespace PatternAutomata.Nfa

open Relation

variable {nfa : Nfa} {mode : ClosureMode} {stack taken : List StateId}
  {seen final seeds more set wide : StateSet} {p q : StateId}

/-- The edges that may be passed without reading: those that read nothing, or all of them. -/
def freeEdges (nfa : Nfa) : ClosureMode → StateId → StateId → Prop
  | .epsilon, p, q => links nfa.nodes p .epsilon q
  | .reachability, p, q => ∃ label, links nfa.nodes p label q

/-- The closure of the seeds: the worklist ends with the set, after it took each of its states off
the stack once, and the set has the states that are reached from a seed along free edges. -/
structure ClosesTo (nfa : Nfa) (mode : ClosureMode) (seeds set : StateSet) : Prop where
  closure_eq : nfa.closure mode seeds = .ok set
  empties : ∃ taken, Empties nfa mode seeds.ids.reverse seeds taken set ∧ taken.Perm set.ids
  mem_iff : ∀ q, q ∈ set ↔ ∃ p ∈ seeds, ReflTransGen (nfa.freeEdges mode) p q

/-! ### Each state once -/

namespace Empties

/-- What is taken off the stack was on it or is new in the set. -/
theorem perm (h : Empties nfa mode stack seen taken final) :
    (taken ++ seen.ids).Perm (stack ++ final.ids) := by
  induction h with
  | done => exact .refl _
  | @take p node stack taken seen final _ _ ih =>
    have hturn := @perm_foldl_discover (node.followed mode) stack seen
    rw [List.perm_iff_count] at ih hturn ⊢
    intro q
    have hrest := ih q
    have hfirst := hturn q
    simp only [List.count_append, List.count_cons] at hrest hfirst ⊢
    omega

/-- From the seeds on, the states of the final set are taken off the stack, each once. -/
theorem perm_final (h : Empties nfa mode seeds.ids.reverse seeds taken final) :
    taken.Perm final.ids := by
  have hseeds := (List.reverse_perm seeds.ids).append_right final.ids
  have hall := (h.perm.trans hseeds).trans List.perm_append_comm
  exact (List.perm_append_right_iff seeds.ids).mp hall

end Empties

/-! ### Free edges -/

theorem Sealed.follows_iff_freeEdges (h : nfa.Sealed) :
    nfa.Follows mode p q ↔ nfa.freeEdges mode p q := by
  cases mode with
  | epsilon => exact Iff.rfl
  | reachability => exact h.follows_iff_links

theorem Sealed.reaches_iff (h : nfa.Sealed) :
    nfa.Reaches mode p q ↔ ReflTransGen (nfa.freeEdges mode) p q := by
  have hedges : nfa.Follows mode = nfa.freeEdges mode := by
    funext p q
    exact propext h.follows_iff_freeEdges
  rw [Reaches, hedges]

/-- The worklist takes the closure of any states of the automaton, and stays among its states. -/
theorem Sealed.exists_closesTo (h : nfa.Sealed) (mode : ClosureMode) (hseeds : nfa.Within seeds) :
    ∃ set, nfa.ClosesTo mode seeds set ∧ nfa.Within set := by
  obtain ⟨taken, set, hrun, hlength, hmem⟩ := @exists_empties_seeds nfa mode seeds hseeds
  have hclosure : nfa.closure mode seeds = .ok set := hrun.expand_eq (Nat.le_succ_of_le hlength)
  refine ⟨set, ⟨hclosure, ⟨taken, hrun, hrun.perm_final⟩, ?_⟩, ?_⟩
  · intro q
    rw [hmem]
    exact exists_congr fun p => and_congr_right fun _ => h.reaches_iff
  · intro q hq
    obtain ⟨p, hp, hreach⟩ := (hmem q).mp hq
    exact lt_of_reaches (hseeds p hp) hreach

/-! ### The laws -/

theorem Within.union (hseeds : nfa.Within seeds) (hmore : nfa.Within more) :
    nfa.Within (seeds.union more) := by
  intro q hq
  rcases StateSet.mem_union.mp hq with hq | hq
  · exact hseeds q hq
  · exact hmore q hq

namespace ClosesTo

theorem extensive (h : nfa.ClosesTo mode seeds set) : ∀ q ∈ seeds, q ∈ set := by
  intro q hq
  exact (h.mem_iff q).mpr ⟨q, hq, .refl⟩

theorem monotone (h : nfa.ClosesTo mode seeds set) (hmore : nfa.ClosesTo mode more wide)
    (hle : ∀ q ∈ seeds, q ∈ more) : ∀ q ∈ set, q ∈ wide := by
  intro q hq
  obtain ⟨p, hp, hreach⟩ := (h.mem_iff q).mp hq
  exact (hmore.mem_iff q).mpr ⟨p, hle p hp, hreach⟩

theorem idempotent (h : nfa.ClosesTo mode seeds set) (hagain : nfa.ClosesTo mode set wide) :
    wide = set := by
  ext q
  constructor
  · intro hq
    obtain ⟨p, hp, hreach⟩ := (hagain.mem_iff q).mp hq
    obtain ⟨seed, hseed, hfirst⟩ := (h.mem_iff p).mp hp
    exact (h.mem_iff q).mpr ⟨seed, hseed, hfirst.trans hreach⟩
  · exact hagain.extensive q

theorem union {both : StateSet} (h : nfa.ClosesTo mode seeds set)
    (hmore : nfa.ClosesTo mode more wide) (hboth : nfa.ClosesTo mode (seeds.union more) both) :
    both = set.union wide := by
  ext q
  rw [StateSet.mem_union, hboth.mem_iff, h.mem_iff, hmore.mem_iff]
  constructor
  · rintro ⟨p, hp, hreach⟩
    rcases StateSet.mem_union.mp hp with hp | hp
    · exact .inl ⟨p, hp, hreach⟩
    · exact .inr ⟨p, hp, hreach⟩
  · rintro (⟨p, hp, hreach⟩ | ⟨p, hp, hreach⟩)
    · exact ⟨p, StateSet.mem_union.mpr (.inl hp), hreach⟩
    · exact ⟨p, StateSet.mem_union.mpr (.inr hp), hreach⟩

end ClosesTo

/-- **Closures are reachability.**  For any states of a sealed automaton the worklist ends, without
a fault, with the states reached from them along the edges that its mode lets pass.  So a closure
holds its seeds, grows with them and is its own closure, and the closure of two sets of seeds
together is what the closures of each have together. -/
theorem Sealed.closure_laws (h : nfa.Sealed) (mode : ClosureMode) (hseeds : nfa.Within seeds)
    (hmore : nfa.Within more) :
    ∃ set wide, nfa.ClosesTo mode seeds set ∧ nfa.ClosesTo mode more wide ∧
      (∀ q ∈ seeds, q ∈ set) ∧ ((∀ q ∈ seeds, q ∈ more) → ∀ q ∈ set, q ∈ wide) ∧
      nfa.ClosesTo mode set set ∧ nfa.ClosesTo mode (seeds.union more) (set.union wide) := by
  obtain ⟨set, hset, hwithin⟩ := h.exists_closesTo mode hseeds
  obtain ⟨wide, hwide, -⟩ := h.exists_closesTo mode hmore
  obtain ⟨again, hagain, -⟩ := h.exists_closesTo mode hwithin
  obtain ⟨both, hboth, -⟩ := h.exists_closesTo mode (hseeds.union hmore)
  have hself : again = set := hset.idempotent hagain
  have hunion : both = set.union wide := hset.union hwide hboth
  subst hself hunion
  exact ⟨again, wide, hset, hwide, hset.extensive, hset.monotone hwide, hagain, hboth⟩

/-- The automaton of a repeated symbol, in which the first and the second state are on a circle.
From the third state all but the second are reached without reading. -/
theorem Sealed.closure_laws_of_star :
    ∃ nfa : Nfa, ofPostfix [.symbol 'a', .star] = .ok nfa ∧ nfa.Sealed ∧
      nfa.Within (.singleton 2) ∧ nfa.Within (.singleton 1) ∧
      nfa.ClosesTo .epsilon (.singleton 2) (.ofList [0, 2, 3]) ∧
      nfa.ClosesTo .epsilon (.singleton 1) (.ofList [0, 1, 3]) ∧
      nfa.ClosesTo .epsilon (.ofList [1, 2]) (.ofList [0, 1, 2, 3]) ∧
      nfa.ClosesTo .reachability (.singleton 2) (.ofList [0, 1, 2, 3]) := by
  have hbuilt : ∃ nfa : Nfa, ofPostfix [.symbol 'a', .star] = .ok nfa ∧ nfa.size = 4 ∧
      nfa.closure .epsilon (.singleton 2) = .ok (.ofList [0, 2, 3]) ∧
      nfa.closure .epsilon (.singleton 1) = .ok (.ofList [0, 1, 3]) ∧
      nfa.closure .reachability (.singleton 2) = .ok (.ofList [0, 1, 2, 3]) :=
    ⟨_, rfl, rfl, rfl, rfl, rfl⟩
  obtain ⟨nfa, hnfa, hsize, hthird, hsecond, hall⟩ := hbuilt
  have hsealed := ofPostfix_sealed hnfa
  have hwithin : ∀ p < 4, nfa.Within (.singleton p) := by
    intro p hp q hq
    rw [StateSet.mem_singleton.mp hq, hsize]
    exact hp
  have hseeds := hwithin 2 (by decide)
  have hmore := hwithin 1 (by decide)
  obtain ⟨set, wide, hset, hwide, -, -, -, hboth⟩ :=
    hsealed.closure_laws .epsilon hseeds hmore
  obtain ⟨all, -, hreached, -⟩ := hsealed.closure_laws .reachability hseeds hmore
  cases hset.closure_eq.symm.trans hthird
  cases hwide.closure_eq.symm.trans hsecond
  cases hreached.closure_eq.symm.trans hall
  exact ⟨nfa, hnfa, hsealed, hseeds, hmore, hset, hwide, hboth, hreached⟩

end PatternAutomata.Nfa
