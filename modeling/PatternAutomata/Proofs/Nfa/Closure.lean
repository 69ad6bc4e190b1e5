import Mathlib.Data.List.Perm.Subperm
import Mathlib.Logic.Relation
import PatternAutomata.Proofs.Nfa.Paths

/-!
# What moves and closures compute

On states of the automaton, a move and a closure never fault.  A move gives the targets of the edges
with the symbol.  A closure gives the states reached along the edges that its mode follows.  Its
worklist is first read without fuel: every state is put on the stack at most once, so it ends, and
when the stack is empty nothing leads out of the set of the states seen.
-/

namespace PatternAutomata

/-- The computation succeeds with the set of the states that have the property. -/
def Yields (result : Except Fault StateSet) (property : StateId → Prop) : Prop :=
  ∃ set, result = .ok set ∧ ∀ q, q ∈ set ↔ property q

namespace Yields

variable {result other : Except Fault StateSet} {property property' : StateId → Prop}

theorem congr (h : Yields result property) (hiff : ∀ q, property q ↔ property' q) :
    Yields result property' := by
  obtain ⟨set, hset, hmem⟩ := h
  exact ⟨set, hset, fun q => (hmem q).trans (hiff q)⟩

theorem unique (h : Yields result property) (h' : Yields other property) : result = other := by
  obtain ⟨set, rfl, hmem⟩ := h
  obtain ⟨set', rfl, hmem'⟩ := h'
  exact congrArg Except.ok (StateSet.ext fun q => (hmem q).trans (hmem' q).symm)

theorem mem_iff (h : Yields result property) {set : StateSet} (hset : result = .ok set)
    (q : StateId) : q ∈ set ↔ property q := by
  obtain ⟨_, rfl, hmem⟩ := h
  cases hset
  exact hmem q

end Yields

namespace StateSet

theorem size_le_of_lt {s : StateSet} {n : Nat} (h : ∀ q ∈ s, q < n) : s.size ≤ n := by
  have hsub : s.ids ⊆ List.range n := fun q hq => List.mem_range.mpr (h q hq)
  have hlength := (List.subperm_of_subset s.ascending.nodup hsub).length_le
  rwa [List.length_range] at hlength

end StateSet

namespace Nfa

variable {nfa : Nfa} {mode : ClosureMode}

/-- The members of the set are states of the automaton. -/
def Within (nfa : Nfa) (set : StateSet) : Prop :=
  ∀ q ∈ set, q < nfa.size

/-- The mode follows an edge from the first state to the second. -/
def Follows (nfa : Nfa) (mode : ClosureMode) (p q : StateId) : Prop :=
  ∃ node, nfa.nodes[p]? = some node ∧ q ∈ node.followed mode

/-- The second state is reached from the first along edges that the mode follows. -/
abbrev Reaches (nfa : Nfa) (mode : ClosureMode) : StateId → StateId → Prop :=
  Relation.ReflTransGen (nfa.Follows mode)

theorem Node.mem_targets_of_mem_followed {node : Node} {q : StateId}
    (h : q ∈ node.followed mode) : q ∈ node.targets := by
  cases mode with
  | epsilon => exact List.mem_append_right _ h
  | reachability => exact h

theorem lt_of_follows {p q : StateId} (h : nfa.Follows mode p q) : q < nfa.size := by
  obtain ⟨node, hnode, hq⟩ := h
  exact nfa.closed node (Array.mem_of_getElem? hnode) q (Node.mem_targets_of_mem_followed hq)

theorem source_lt_of_follows {p q : StateId} (h : nfa.Follows mode p q) : p < nfa.size := by
  obtain ⟨node, hnode, -⟩ := h
  exact (Array.getElem?_eq_some_iff.mp hnode).1

theorem lt_of_reaches {p q : StateId} (hp : p < nfa.size) (h : nfa.Reaches mode p q) :
    q < nfa.size := by
  cases h with
  | refl => exact hp
  | tail _ hedge => exact lt_of_follows hedge

/-! ### Discovering states -/

section Discover

variable {targets stack : List StateId} {seen : StateSet} {p q : StateId}

theorem discover_of_mem (h : p ∈ seen) : discover (stack, seen) p = (stack, seen) :=
  if_pos h

theorem discover_of_not_mem (h : p ∉ seen) :
    discover (stack, seen) p = (p :: stack, seen.insert p) :=
  if_neg h

theorem mem_seen_foldl_discover :
    q ∈ (targets.foldl discover (stack, seen)).2 ↔ q ∈ seen ∨ q ∈ targets := by
  induction targets generalizing stack seen with
  | nil => simp
  | cons t targets ih =>
    by_cases ht : t ∈ seen
    · rw [List.foldl_cons, discover_of_mem ht, ih, List.mem_cons]
      constructor
      · intro h
        exact h.imp_right .inr
      · rintro (h | rfl | h)
        · exact .inl h
        · exact .inl ht
        · exact .inr h
    · rw [List.foldl_cons, discover_of_not_mem ht, ih, StateSet.mem_insert, List.mem_cons, or_assoc,
        or_left_comm]

theorem mem_stack_foldl_discover :
    q ∈ (targets.foldl discover (stack, seen)).1 ↔ q ∈ stack ∨ q ∈ targets ∧ q ∉ seen := by
  induction targets generalizing stack seen with
  | nil => simp
  | cons t targets ih =>
    by_cases ht : t ∈ seen
    · rw [List.foldl_cons, discover_of_mem ht, ih, List.mem_cons]
      by_cases hq : q = t
      · subst hq; simp [ht]
      · simp [hq]
    · rw [List.foldl_cons, discover_of_not_mem ht, ih, StateSet.mem_insert, List.mem_cons,
        List.mem_cons]
      by_cases hq : q = t
      · subst hq; simp [ht]
      · simp [hq]

/-- The stack and the set grow by the same states, each once. -/
theorem perm_foldl_discover :
    ((targets.foldl discover (stack, seen)).1 ++ seen.ids).Perm
      (stack ++ (targets.foldl discover (stack, seen)).2.ids) := by
  induction targets generalizing stack seen with
  | nil => exact .refl _
  | cons t targets ih =>
    by_cases ht : t ∈ seen
    · rw [List.foldl_cons, discover_of_mem ht]
      exact ih
    · rw [List.foldl_cons, discover_of_not_mem ht]
      have hstep := @ih (t :: stack) (seen.insert t)
      -- the new state is on both sides of the step, and is taken off both
      have hnew := ((StateSet.perm_insert ht).append_left _).symm.trans hstep
      exact (List.perm_middle.symm.trans hnew).cons_inv

/-- The stack grows by as many states as the set does. -/
theorem length_foldl_discover :
    (targets.foldl discover (stack, seen)).1.length + seen.size =
      stack.length + (targets.foldl discover (stack, seen)).2.size := by
  have hlength := (@perm_foldl_discover targets stack seen).length_eq
  rw [List.length_append, List.length_append] at hlength
  exact hlength

end Discover

/-! ### Closures -/

/-- The worklist without fuel goes on until its stack is empty: the states that it takes off the
stack, in order, and the set of the states seen at the end. -/
inductive Empties (nfa : Nfa) (mode : ClosureMode) :
    List StateId → StateSet → List StateId → StateSet → Prop where
  | done (seen : StateSet) : Empties nfa mode [] seen [] seen
  | take {p : StateId} {node : Node} {stack taken : List StateId} {seen final : StateSet}
    (hnode : nfa.node p = .ok node)
    (hrest : Empties nfa mode ((node.followed mode).foldl discover (stack, seen)).1
      ((node.followed mode).foldl discover (stack, seen)).2 taken final) :
    Empties nfa mode (p :: stack) seen (p :: taken) final

theorem follows_iff {p q : StateId} {node : Node} (hnode : nfa.node p = .ok node) :
    nfa.Follows mode p q ↔ q ∈ node.followed mode := by
  rw [node_eq_ok_iff] at hnode
  simp [Follows, hnode]

theorem mem_of_reaches {seen : StateSet}
    (hdone : ∀ p ∈ seen, ∀ q, nfa.Follows mode p q → q ∈ seen) {p q : StateId} (hp : p ∈ seen)
    (h : nfa.Reaches mode p q) : q ∈ seen := by
  induction h with
  | refl => exact hp
  | tail _ hedge ih => exact hdone _ ih _ hedge

/-- The worklist ends.  Each time it takes a state off the stack, one less is left to be taken off:
of those on the stack, or of those that were not seen. -/
theorem exists_empties {left : Nat} {stack : List StateId} {seen : StateSet}
    (hleft : stack.length + nfa.size ≤ left + seen.size) (hstack : ∀ p ∈ stack, p < nfa.size)
    (hseen : nfa.Within seen) :
    ∃ taken final, Empties nfa mode stack seen taken final ∧ taken.length ≤ left := by
  induction left generalizing stack seen with
  | zero =>
    have hsize := StateSet.size_le_of_lt hseen
    have hnil : stack = [] := by
      apply List.eq_nil_of_length_eq_zero
      omega
    subst hnil
    exact ⟨[], seen, .done seen, Nat.le_refl 0⟩
  | succ left ih =>
    cases stack with
    | nil => exact ⟨[], seen, .done seen, Nat.zero_le _⟩
    | cons p stack =>
      have hp : p < nfa.nodes.size := hstack p (List.mem_cons_self ..)
      have hnode := node_of_lt hp
      have htargets : ∀ q ∈ nfa.nodes[p].followed mode, q < nfa.size := by
        intro q hq
        exact target_lt hnode (Node.mem_targets_of_mem_followed hq)
      have hlength := @length_foldl_discover (nfa.nodes[p].followed mode) stack seen
      have hrest : ∃ taken final, Empties nfa mode
          ((nfa.nodes[p].followed mode).foldl discover (stack, seen)).1
          ((nfa.nodes[p].followed mode).foldl discover (stack, seen)).2 taken final ∧
          taken.length ≤ left := by
        apply ih
        · rw [List.length_cons] at hleft
          omega
        · intro q hq
          rcases mem_stack_foldl_discover.mp hq with hq | hq
          · exact hstack q (List.mem_cons_of_mem p hq)
          · exact htargets q hq.1
        · intro q hq
          rcases mem_seen_foldl_discover.mp hq with hq | hq
          · exact hseen q hq
          · exact htargets q hq
      obtain ⟨taken, final, hrun, htaken⟩ := hrest
      exact ⟨p :: taken, final, .take hnode hrun, Nat.succ_le_succ htaken⟩

namespace Empties

variable {stack taken : List StateId} {seen final : StateSet} {fuel : Nat}

/-- The fuel only counts the states that are taken off. -/
theorem expand_eq (h : Empties nfa mode stack seen taken final) (hfuel : taken.length ≤ fuel) :
    nfa.expand mode fuel stack seen = .ok final := by
  induction h generalizing fuel with
  | done => cases fuel <;> rfl
  | take hnode _ ih =>
    cases fuel with
    | zero => cases hfuel
    | succ fuel =>
      rw [expand, hnode, ok_bind]
      exact ih (Nat.le_of_succ_le_succ hfuel)

/-- The worklist gives the states reached from those seen, if the stack is part of them and every
other state seen is done with. -/
theorem mem_iff (h : Empties nfa mode stack seen taken final) (hstack : ∀ q ∈ stack, q ∈ seen)
    (hdone : ∀ p ∈ seen, p ∉ stack → ∀ q, nfa.Follows mode p q → q ∈ seen) (q : StateId) :
    q ∈ final ↔ ∃ p ∈ seen, nfa.Reaches mode p q := by
  induction h with
  | done seen =>
    constructor
    · intro hq
      exact ⟨q, hq, .refl⟩
    · rintro ⟨p, hp, hreach⟩
      exact mem_of_reaches (fun p hp => hdone p hp List.not_mem_nil) hp hreach
  | @take p node stack taken seen final hnode _ ih =>
    have hfollows : ∀ q, nfa.Follows mode p q ↔ q ∈ node.followed mode := fun q =>
      follows_iff hnode
    rw [ih]
    · constructor
      · rintro ⟨p', hp', hreach⟩
        rcases mem_seen_foldl_discover.mp hp' with hp' | hp'
        · exact ⟨p', hp', hreach⟩
        · exact ⟨p, hstack p (List.mem_cons_self ..), hreach.head ((hfollows p').mpr hp')⟩
      · rintro ⟨p', hp', hreach⟩
        exact ⟨p', mem_seen_foldl_discover.mpr (.inl hp'), hreach⟩
    · intro q hq
      apply mem_seen_foldl_discover.mpr
      rcases mem_stack_foldl_discover.mp hq with hq | hq
      · exact .inl (hstack q (List.mem_cons_of_mem p hq))
      · exact .inr hq.1
    · -- a state seen now is `p` itself, was done with before, or is still on the stack
      intro p' hp' hnot q hq
      apply mem_seen_foldl_discover.mpr
      by_cases he : p' = p
      · exact .inr ((hfollows q).mp (he ▸ hq))
      · by_cases hnew : p' ∈ seen
        · have hnot' : p' ∉ p :: stack := by
            rw [List.mem_cons, not_or]
            exact ⟨he, fun h => hnot (mem_stack_foldl_discover.mpr (.inl h))⟩
          exact .inl (hdone p' hnew hnot' q hq)
        · have hfollow := (mem_seen_foldl_discover.mp hp').resolve_left hnew
          exact absurd (mem_stack_foldl_discover.mpr (.inr ⟨hfollow, hnew⟩)) hnot

end Empties

/-- The worklist that starts with the seeds ends with the states reached from them. -/
theorem exists_empties_seeds {seeds : StateSet} (hseeds : nfa.Within seeds) :
    ∃ taken final, Empties nfa mode seeds.ids.reverse seeds taken final ∧
      taken.length ≤ nfa.size ∧ ∀ q, q ∈ final ↔ ∃ p ∈ seeds, nfa.Reaches mode p q := by
  have hstack : ∀ q ∈ seeds.ids.reverse, q ∈ seeds := fun q hq => List.mem_reverse.mp hq
  have hleft : seeds.ids.reverse.length + nfa.size ≤ nfa.size + seeds.size := by
    rw [List.length_reverse, Nat.add_comm]
    exact Nat.le_refl _
  obtain ⟨taken, final, hrun, htaken⟩ :=
    @exists_empties nfa mode _ _ _ hleft (fun q hq => hseeds q (hstack q hq)) hseeds
  refine ⟨taken, final, hrun, htaken, hrun.mem_iff hstack ?_⟩
  intro p hp hnot
  exact absurd (List.mem_reverse.mpr hp) hnot

theorem closure_yields {seeds : StateSet} (hseeds : nfa.Within seeds) :
    Yields (nfa.closure mode seeds) fun q => ∃ p ∈ seeds, nfa.Reaches mode p q := by
  obtain ⟨taken, final, hrun, htaken, hmem⟩ := @exists_empties_seeds nfa mode seeds hseeds
  exact ⟨final, hrun.expand_eq (Nat.le_succ_of_le htaken), hmem⟩

theorem start_closure_yields (nfa : Nfa) (mode : ClosureMode) :
    Yields (nfa.closure mode (.singleton nfa.start)) (nfa.Reaches mode nfa.start) := by
  have hwithin : nfa.Within (.singleton nfa.start) := by
    intro q hq
    rw [StateSet.mem_singleton.mp hq]
    exact nfa.start_lt
  exact (closure_yields hwithin).congr fun q => by simp

/-! ### Moves -/

theorem foldlM_step_yields {symbol : Char} {ids : List StateId} {reached : StateSet}
    (hids : ∀ p ∈ ids, p < nfa.size) :
    Yields
      (ids.foldlM (fun reached state => do
        let node ← nfa.node state
        return reached.insertAll (node.on symbol)) reached)
      fun q => q ∈ reached ∨ ∃ p ∈ ids, links nfa.nodes p (.symbol symbol) q := by
  induction ids generalizing reached with
  | nil => exact ⟨reached, rfl, by simp⟩
  | cons p ids ih =>
    have hlt : p < nfa.nodes.size := hids p (List.mem_cons_self ..)
    have hlinks : ∀ q, links nfa.nodes p (.symbol symbol) q ↔ q ∈ nfa.nodes[p].on symbol := by
      simp [links, Array.getElem?_eq_getElem hlt, Node.along]
    rw [List.foldlM_cons, node_of_lt hlt]
    refine (ih fun q hq => hids q (List.mem_cons_of_mem p hq)).congr fun q => ?_
    rw [StateSet.mem_insertAll, ← hlinks, or_assoc]
    simp

theorem step_yields {set : StateSet} (hset : nfa.Within set) (symbol : Char) :
    Yields (nfa.step set symbol) fun q => ∃ p ∈ set, links nfa.nodes p (.symbol symbol) q :=
  (foldlM_step_yields hset).congr fun q => by simp [EmptyCollection.emptyCollection]

theorem step_closure_yields {set : StateSet} (hset : nfa.Within set) (mode : ClosureMode)
    (symbol : Char) :
    Yields (do let moved ← nfa.step set symbol; nfa.closure mode moved) fun q =>
      ∃ r, (∃ p ∈ set, links nfa.nodes p (.symbol symbol) r) ∧ nfa.Reaches mode r q := by
  obtain ⟨moved, hmoved, hmem⟩ := step_yields hset symbol
  have hwithin : nfa.Within moved := by
    intro q hq
    obtain ⟨p, -, hedge⟩ := (hmem q).mp hq
    exact target_lt_of_links nfa.closed hedge
  rw [hmoved]
  exact (closure_yields hwithin).congr fun q => exists_congr fun r => by rw [hmem]

end Nfa

end PatternAutomata
