import Mathlib.Data.Finset.Powerset
import PatternAutomata.Proofs.Dfa.Tables
import PatternAutomata.Proofs.Nfa.Closure

/-!
# Exploring sets of states

The exploration of the sets of an ε-automaton keeps a table sound: its states stand for different
sets, and a cell that is filled holds the state of the set that a move and a closure give.  Writing
a cell is the one step of the exploration; it keeps the table sound, keeps every cell that was
filled before, and names the state that it may add after all others.  So the names follow the order
of the cells, row by row, in which the states are first written.  There are at most as many states
as there are sets, so the fuel is enough to write every row.
-/

namespace PatternAutomata.Dfa

variable {nfa : Nfa} {mode : ClosureMode}

/-! ### Successors -/

theorem successor_yields {subset : StateSet} (hsubset : nfa.Within subset) (mode : ClosureMode)
    (symbol : Char) :
    Yields (successor nfa mode subset symbol) fun q =>
      ∃ r, (∃ p ∈ subset, Nfa.links nfa.nodes p (.symbol symbol) r) ∧ nfa.Reaches mode r q :=
  Nfa.step_closure_yields hsubset mode symbol

theorem exists_successor {subset : StateSet} (hsubset : nfa.Within subset) (mode : ClosureMode)
    (symbol : Char) :
    ∃ reached, successor nfa mode subset symbol = .ok reached ∧ nfa.Within reached := by
  obtain ⟨reached, hreached, hmem⟩ := successor_yields hsubset mode symbol
  refine ⟨reached, hreached, fun q hq => ?_⟩
  obtain ⟨r, ⟨p, -, hedge⟩, hreach⟩ := (hmem q).mp hq
  exact Nfa.lt_of_reaches (Nfa.target_lt_of_links nfa.closed hedge) hreach

theorem successor_empty (symbol : Char) : successor nfa mode ∅ symbol = .ok ∅ := by
  have hwithin : nfa.Within ∅ := fun q hq => absurd hq (StateSet.not_mem_empty q)
  refine (successor_yields hwithin mode symbol).unique ⟨∅, rfl, fun q => ?_⟩
  constructor
  · intro hq
    exact absurd hq (StateSet.not_mem_empty q)
  · rintro ⟨r, ⟨p, hp, -⟩, -⟩
    exact absurd hp (StateSet.not_mem_empty p)

namespace Table

variable {table middle next : Table} {source index : Nat} {subset reached : StateSet}

/-! ### The invariant -/

/-- What the exploration keeps of a table. -/
structure Sound (nfa : Nfa) (mode : ClosureMode) (table : Table) : Prop where
  within : ∀ subset ∈ table.subsets, nfa.Within subset
  distinct : ∀ (p q : Nat) (subset : StateSet), table.subsets[p]? = some subset →
    table.subsets[q]? = some subset → p = q
  dead_iff : ∀ q, table.dead = some q ↔ table.subsets[q]? = some ∅
  accepting_iff : ∀ q, q ∈ table.accepting ↔
    ∃ subset, table.subsets[q]? = some subset ∧ nfa.accept ∈ subset
  /-- A filled cell holds the state of the set that is reached. -/
  cells : ∀ (p i q : Nat) (subset : StateSet) (symbol : Char), table.Cell p i q →
    table.subsets[p]? = some subset → table.alphabet[i]? = some symbol →
    ∃ reached, table.subsets[q]? = some reached ∧ successor nfa mode subset symbol = .ok reached
  /-- The row of the dead state is filled from the beginning. -/
  dead_filled : ∀ p : Nat, table.subsets[p]? = some ∅ →
    ∀ i < table.alphabet.length, ∃ q, table.Cell p i q

/-- The first cell is written before the second: its row is an earlier one, or it stands earlier in
the same row. -/
def Earlier (p i q j : Nat) : Prop :=
  p < q ∨ p = q ∧ i < j

/-- Where the exploration has come to a cell, the names of the states follow the order in which they
were found. -/
structure Discovered (table : Table) (source index : Nat) : Prop where
  /-- Every state but the first is written in the row of an older state, before the cell. -/
  found : ∀ q < table.subsets.size,
    q = 0 ∨ ∃ p < q, ∃ i, Earlier p i source index ∧ table.Cell p i q
  /-- States with smaller names are written earlier. -/
  ordered : ∀ p i q, table.Cell p i q →
    ∀ r < q, r = 0 ∨ ∃ p' i', Earlier p' i' p i ∧ table.Cell p' i' r

/-- The second table has the states and the filled cells of the first. -/
structure Grows (before after : Table) : Prop where
  alphabet_eq : after.alphabet = before.alphabet
  subsets : ∀ (q : Nat) (subset : StateSet), before.subsets[q]? = some subset →
    after.subsets[q]? = some subset
  cells : ∀ p i q, before.Cell p i q → after.Cell p i q

theorem Grows.refl (table : Table) : Grows table table :=
  ⟨rfl, fun _ _ h => h, fun _ _ _ h => h⟩

theorem Grows.trans (h : Grows table middle) (h' : Grows middle next) : Grows table next :=
  ⟨h'.alphabet_eq.trans h.alphabet_eq,
    fun q subset hq => h'.subsets q subset (h.subsets q subset hq),
    fun p i q hcell => h'.cells p i q (h.cells p i q hcell)⟩

/-! ### Adding a state -/

theorem Allocates.subsets_iff {accept state q : StateId}
    (h : Allocates table next accept reached state) :
    next.subsets[q]? = some subset ↔
      table.subsets[q]? = some subset ∨ q = state ∧ subset = reached := by
  rw [h.subsets_eq, Array.getElem?_push, h.state_eq]
  by_cases hq : q = table.subsets.size
  · have hnone : table.subsets[q]? = none := Array.getElem?_eq_none (Nat.le_of_eq hq.symm)
    rw [if_pos hq, hnone]
    constructor
    · intro hsome
      exact .inr ⟨hq, (Option.some.inj hsome).symm⟩
    · rintro (hnone | ⟨-, rfl⟩)
      · cases hnone
      · rfl
  · simp [hq]

theorem Allocates.grows {accept state : StateId}
    (h : Allocates table next accept reached state) : Grows table next where
  alphabet_eq := h.alphabet_eq
  subsets _ _ hq := h.subsets_iff.mpr (.inl hq)
  cells _ _ _ hcell := h.cell_iff.mpr (.inl hcell)

/-- A state of the first table is named, or one is added behind all others, whose cells that are
filled lead to itself. -/
structure Names (table next : Table) (state : StateId) : Prop extends Grows table next where
  state_le : state ≤ table.subsets.size
  states : ∀ q < next.subsets.size, q < table.subsets.size ∨ q = state ∧ q = table.subsets.size
  cell_cases : ∀ p i q, next.Cell p i q →
    table.Cell p i q ∨ p = state ∧ q = state ∧ state = table.subsets.size

theorem Names.refl {state : StateId} (h : state < table.subsets.size) :
    Names table table state where
  toGrows := .refl table
  state_le := Nat.le_of_lt h
  states _ hq := .inl hq
  cell_cases _ _ _ hcell := .inl hcell

theorem Allocates.names {accept state : StateId}
    (h : Allocates table next accept reached state) : Names table next state where
  toGrows := h.grows
  state_le := Nat.le_of_eq h.state_eq
  states q hq := by
    rw [h.subsets_eq, Array.size_push] at hq
    rcases Nat.lt_or_eq_of_le (Nat.le_of_lt_succ hq) with hq | hq
    · exact .inl hq
    · exact .inr ⟨hq.trans h.state_eq.symm, hq⟩
  cell_cases p i q hcell := by
    rcases h.cell_iff.mp hcell with hcell | ⟨-, rfl, rfl, -⟩
    · exact .inl hcell
    · exact .inr ⟨rfl, rfl, h.state_eq⟩

section Allocates

variable {state : StateId} (h : Allocates table next nfa.accept reached state)
  (hsound : Sound nfa mode table)

include h in
theorem Allocates.subset_new (q : Nat) : ¬ table.subsets[q]? = some reached :=
  fun hq => h.new (Array.mem_of_getElem? hq)

include h hsound

theorem Allocates.distinct (p q : Nat) (subset : StateSet) (hp : next.subsets[p]? = some subset)
    (hq : next.subsets[q]? = some subset) : p = q := by
  rcases h.subsets_iff.mp hp with hp | ⟨rfl, rfl⟩
  · rcases h.subsets_iff.mp hq with hq | ⟨rfl, rfl⟩
    · exact hsound.distinct p q subset hp hq
    · exact absurd hp (h.subset_new p)
  · rcases h.subsets_iff.mp hq with hq | ⟨rfl, -⟩
    · exact absurd hq (h.subset_new q)
    · rfl

theorem Allocates.dead_iff (q : StateId) : next.dead = some q ↔ next.subsets[q]? = some ∅ := by
  rw [h.dead_eq, h.subsets_iff]
  by_cases hempty : reached.isEmpty = true
  · obtain rfl := StateSet.isEmpty_iff_eq_empty.mp hempty
    rw [if_pos hempty]
    constructor
    · intro hq
      exact .inr ⟨(Option.some.inj hq).symm, rfl⟩
    · rintro (hq | ⟨rfl, -⟩)
      · exact absurd hq (h.subset_new q)
      · rfl
  · have hne : ¬ ∅ = reached := fun e => hempty (StateSet.isEmpty_iff_eq_empty.mpr e.symm)
    rw [if_neg hempty, hsound.dead_iff]
    simp [hne]

theorem Allocates.mem_accepting_iff (q : StateId) : q ∈ next.accepting ↔
    ∃ subset, next.subsets[q]? = some subset ∧ nfa.accept ∈ subset := by
  rw [h.accepting_iff, hsound.accepting_iff]
  simp only [h.subsets_iff]
  constructor
  · rintro (⟨subset, hq, haccept⟩ | ⟨haccept, rfl⟩)
    · exact ⟨subset, .inl hq, haccept⟩
    · exact ⟨reached, .inr ⟨rfl, rfl⟩, haccept⟩
  · rintro ⟨subset, hq | ⟨rfl, rfl⟩, haccept⟩
    · exact .inl ⟨subset, hq, haccept⟩
    · exact .inr ⟨haccept, rfl⟩

theorem Allocates.cells (p i q : Nat) (subset : StateSet) (symbol : Char) (hcell : next.Cell p i q)
    (hp : next.subsets[p]? = some subset) (hi : next.alphabet[i]? = some symbol) :
    ∃ reached, next.subsets[q]? = some reached ∧
      successor nfa mode subset symbol = .ok reached := by
  rw [h.alphabet_eq] at hi
  rcases h.cell_iff.mp hcell with hcell | ⟨rfl, rfl, rfl, -⟩
  · -- a cell that was filled before belongs to a state that was there before
    rcases h.subsets_iff.mp hp with hp | ⟨rfl, -⟩
    · obtain ⟨target, htarget, hsuccessor⟩ := hsound.cells p i q subset symbol hcell hp hi
      exact ⟨target, h.subsets_iff.mpr (.inl htarget), hsuccessor⟩
    · exact absurd hcell.lt (Nat.not_lt.mpr (Nat.le_of_eq h.state_eq.symm))
  · rcases h.subsets_iff.mp hp with hp | ⟨-, rfl⟩
    · have hlt := (Array.getElem?_eq_some_iff.mp hp).1
      exact absurd hlt (Nat.not_lt.mpr (Nat.le_of_eq h.state_eq.symm))
    · exact ⟨∅, h.subsets_iff.mpr (.inr ⟨rfl, rfl⟩), successor_empty symbol⟩

theorem Allocates.dead_filled (p : Nat) (hp : next.subsets[p]? = some ∅) (i : Nat)
    (hi : i < next.alphabet.length) : ∃ q, next.Cell p i q := by
  rw [h.alphabet_eq] at hi
  rcases h.subsets_iff.mp hp with hp | ⟨rfl, rfl⟩
  · obtain ⟨q, hcell⟩ := hsound.dead_filled p hp i hi
    exact ⟨q, h.cell_iff.mpr (.inl hcell)⟩
  · exact ⟨p, h.cell_iff.mpr (.inr ⟨rfl, rfl, rfl, hi⟩)⟩

theorem Allocates.sound (hwithin : nfa.Within reached) : Sound nfa mode next where
  within := by
    intro subset hsubset
    rw [h.subsets_eq, Array.mem_push] at hsubset
    rcases hsubset with hsubset | rfl
    · exact hsound.within subset hsubset
    · exact hwithin
  distinct := h.distinct hsound
  dead_iff := h.dead_iff hsound
  accepting_iff := h.mem_accepting_iff hsound
  cells := h.cells hsound
  dead_filled := h.dead_filled hsound

end Allocates

theorem Sound.stateFor (hsound : Sound nfa mode table) (hwithin : nfa.Within reached) :
    ∃ state next, table.stateFor nfa.accept reached = (state, next) ∧ Sound nfa mode next ∧
      Names table next state ∧ next.subsets[state]? = some reached := by
  have hcases := stateFor_cases nfa.accept reached hsound.dead_iff
  rcases hstate : table.stateFor nfa.accept reached with ⟨state, next⟩
  rw [hstate] at hcases
  refine ⟨state, next, rfl, ?_⟩
  rcases hcases with ⟨rfl, hsubset⟩ | halloc
  · exact ⟨hsound, .refl (Array.getElem?_eq_some_iff.mp hsubset).1, hsubset⟩
  · exact ⟨halloc.sound hsound hwithin, halloc.names, halloc.subsets_iff.mpr (.inr ⟨rfl, rfl⟩)⟩

/-! ### Writing a row -/

/-- What a part of the exploration makes of a table. -/
structure Advances (nfa : Nfa) (mode : ClosureMode) (before after : Table) : Prop
    extends Grows before after where
  sound : Sound nfa mode after

theorem Advances.refl (hsound : Sound nfa mode table) : Advances nfa mode table table :=
  ⟨.refl table, hsound⟩

theorem Advances.trans (h : Advances nfa mode table middle) (h' : Advances nfa mode middle next) :
    Advances nfa mode table next :=
  ⟨h.toGrows.trans h'.toGrows, h'.sound⟩

theorem Writes.sound {target : StateId} {symbol : Char}
    (h : Writes table next source index target) (hsound : Sound nfa mode table)
    (hsame : ∀ q, table.Cell source index q → q = target)
    (hsource : table.subsets[source]? = some subset)
    (hindex : table.alphabet[index]? = some symbol)
    (hreached : successor nfa mode subset symbol = .ok reached)
    (htarget : table.subsets[target]? = some reached) : Sound nfa mode next where
  within := h.subsets_eq ▸ hsound.within
  distinct := h.subsets_eq ▸ hsound.distinct
  dead_iff := h.subsets_eq ▸ h.dead_eq ▸ hsound.dead_iff
  accepting_iff := h.subsets_eq ▸ h.accepting_eq ▸ hsound.accepting_iff
  cells := by
    rw [h.subsets_eq, h.alphabet_eq]
    intro p i q set c hcell hp hi
    rcases h.cell_cases hcell with hcell | ⟨rfl, rfl, rfl⟩
    · exact hsound.cells p i q set c hcell hp hi
    · rw [hsource] at hp
      rw [hindex] at hi
      cases hp
      cases hi
      exact ⟨reached, htarget, hreached⟩
  dead_filled := by
    rw [h.subsets_eq, h.alphabet_eq]
    intro p hp i hi
    obtain ⟨q, hcell⟩ := hsound.dead_filled p hp i hi
    exact ⟨q, h.keeps hsame hcell⟩

/-- The state that a cell is written with is found there, if it is not found before. -/
theorem Discovered.write {state : StateId} (h : Discovered table source index)
    (hnames : Names table middle state) (hwrites : Writes middle next source index state)
    (hsource : source < table.subsets.size)
    (hkeeps : ∀ p i q, table.Cell p i q → next.Cell p i q) :
    Discovered next source (index + 1) where
  found q hq := by
    rw [hwrites.subsets_eq] at hq
    rcases hnames.states q hq with hq | ⟨rfl, hq⟩
    · rcases h.found q hq with hzero | ⟨p, hp, i, hearlier, hcell⟩
      · exact .inl hzero
      · have hearlier' : Earlier p i source (index + 1) :=
          hearlier.imp_right fun ⟨hp, hi⟩ => ⟨hp, Nat.lt_succ_of_lt hi⟩
        exact .inr ⟨p, hp, i, hearlier', hkeeps p i q hcell⟩
    · exact .inr ⟨source, hq ▸ hsource, index, .inr ⟨rfl, Nat.lt_succ_self index⟩, hwrites.written⟩
  ordered p i q hcell r hr := by
    rcases hwrites.cell_cases hcell with hcell | ⟨rfl, rfl, rfl⟩
    · rcases hnames.cell_cases p i q hcell with hcell | ⟨rfl, rfl, hnew⟩
      · rcases h.ordered p i q hcell r hr with hzero | ⟨p', i', hearlier, hcell'⟩
        · exact .inl hzero
        · exact .inr ⟨p', i', hearlier, hkeeps p' i' r hcell'⟩
      · -- in the row of a new state, which comes after the rows in which the others were found
        rcases h.found r (hnew ▸ hr) with hzero | ⟨p', hp', i', -, hcell'⟩
        · exact .inl hzero
        · exact .inr ⟨p', i', .inl (Nat.lt_trans hp' hr), hkeeps p' i' r hcell'⟩
    · have hold : r < table.subsets.size := Nat.lt_of_lt_of_le hr hnames.state_le
      rcases h.found r hold with hzero | ⟨p', -, i', hearlier, hcell'⟩
      · exact .inl hzero
      · exact .inr ⟨p', i', hearlier, hkeeps p' i' r hcell'⟩

theorem Discovered.nextRow (h : Discovered table source index) :
    Discovered table (source + 1) 0 where
  found q hq := by
    rcases h.found q hq with hzero | ⟨p, hp, i, hearlier, hcell⟩
    · exact .inl hzero
    · have hlt : p < source + 1 := by
        rcases hearlier with hlt | ⟨rfl, -⟩
        · exact Nat.lt_succ_of_lt hlt
        · exact Nat.lt_succ_self p
      exact .inr ⟨p, hp, i, .inl hlt, hcell⟩
  ordered := h.ordered

/-- **One step of the exploration.**  The cell of a state and a symbol is written with the state of
the set that is reached. -/
theorem Sound.writeCell (hsound : Sound nfa mode table) {symbol : Char}
    (hsource : table.subsets[source]? = some subset)
    (hindex : table.alphabet[index]? = some symbol)
    (hreached : successor nfa mode subset symbol = .ok reached) (hwithin : nfa.Within reached) :
    ∃ state middle next, table.stateFor nfa.accept reached = (state, middle) ∧
      middle.setTransition source index state = .ok next ∧ Advances nfa mode table next ∧
      (∃ q, next.Cell source index q) ∧
      (Discovered table source index → Discovered next source (index + 1)) := by
  obtain ⟨state, middle, hstate, hmiddle, hnames, hsubset⟩ := hsound.stateFor hwithin
  have hsource' := hnames.subsets source subset hsource
  have hindex' : middle.alphabet[index]? = some symbol := hnames.alphabet_eq ▸ hindex
  obtain ⟨next, hnext, hwrites⟩ := setTransition_writes
    (Array.getElem?_eq_some_iff.mp hsource').1 (List.getElem?_eq_some_iff.mp hindex').1 state
  have hsame : ∀ q, middle.Cell source index q → q = state := by
    -- a cell that is filled holds the same state, as different states have different sets
    intro q hcell
    obtain ⟨reached', hq, hreached'⟩ :=
      hmiddle.cells source index q subset symbol hcell hsource' hindex'
    rw [hreached] at hreached'
    cases hreached'
    exact hmiddle.distinct q state reached hq hsubset
  have hkeeps : ∀ p i q, table.Cell p i q → next.Cell p i q := by
    intro p i q hcell
    exact hwrites.keeps hsame (hnames.cells p i q hcell)
  refine ⟨state, middle, next, hstate, hnext, ⟨⟨?_, ?_, hkeeps⟩, ?_⟩, ⟨state, hwrites.written⟩, ?_⟩
  · exact hwrites.alphabet_eq.trans hnames.alphabet_eq
  · intro q set hq
    rw [hwrites.subsets_eq]
    exact hnames.subsets q set hq
  · exact hwrites.sound hmiddle hsame hsource' hindex' hreached hsubset
  · intro hdiscovered
    exact hdiscovered.write hnames hwrites (Array.getElem?_eq_some_iff.mp hsource).1 hkeeps

theorem Sound.writeRow {symbols : List Char} (hsound : Sound nfa mode table)
    (hsource : table.subsets[source]? = some subset)
    (hsymbols : table.alphabet.drop index = symbols)
    (hfilled : ∀ i < index, ∃ q, table.Cell source i q) :
    ∃ next, Table.writeRow nfa mode source subset table index symbols = .ok next ∧
      Advances nfa mode table next ∧ (∀ i < table.alphabet.length, ∃ q, next.Cell source i q) ∧
      (Discovered table source index → Discovered next (source + 1) 0) := by
  induction symbols generalizing table index with
  | nil =>
    refine ⟨table, rfl, .refl hsound, fun i hi => hfilled i ?_, Discovered.nextRow⟩
    exact Nat.lt_of_lt_of_le hi (List.drop_eq_nil_iff.mp hsymbols)
  | cons symbol symbols ih =>
    have hindex : table.alphabet[index]? = some symbol := by
      rw [← List.head?_drop, hsymbols]
      rfl
    have hrest : table.alphabet.drop (index + 1) = symbols := by
      rw [← List.tail_drop, hsymbols]
      rfl
    obtain ⟨reached, hreached, hwithin⟩ := exists_successor
      (hsound.within subset (Array.mem_of_getElem? hsource)) mode symbol
    obtain ⟨state, middle, cellWritten, hstate, hwrite, hadvances, ⟨q, hcell⟩, hdiscovered⟩ :=
      hsound.writeCell hsource hindex hreached hwithin
    have hunfold : Table.writeRow nfa mode source subset table index (symbol :: symbols) =
        Table.writeRow nfa mode source subset cellWritten (index + 1) symbols := by
      simp only [Table.writeRow, hreached, hstate, hwrite, bind, Except.bind]
    have hfilled' : ∀ i < index + 1, ∃ q, cellWritten.Cell source i q := by
      intro i hi
      rcases Nat.lt_or_eq_of_le (Nat.le_of_lt_succ hi) with hi | rfl
      · obtain ⟨q, hcell⟩ := hfilled i hi
        exact ⟨q, hadvances.cells source i q hcell⟩
      · exact ⟨q, hcell⟩
    rw [hunfold]
    obtain ⟨next, hnext, hadvances', hrow, hdiscovered'⟩ := ih hadvances.sound
      (hadvances.subsets source subset hsource) (hadvances.alphabet_eq ▸ hrest) hfilled'
    exact ⟨next, hnext, hadvances.trans hadvances', hadvances.alphabet_eq ▸ hrow,
      hdiscovered' ∘ hdiscovered⟩

/-! ### The whole exploration -/

theorem Sound.size_le (hsound : Sound nfa mode table) :
    table.subsets.size ≤ Nat.pow 2 nfa.size := by
  let members (p : Nat) : Finset Nat := (table.subsets[p]?.getD ∅).ids.toFinset
  have hmaps : ∀ p ∈ Finset.range table.subsets.size,
      members p ∈ (Finset.range nfa.size).powerset := by
    intro p hp
    have hp' : p < table.subsets.size := Finset.mem_range.mp hp
    rw [Finset.mem_powerset]
    intro q hq
    simp only [members, Array.getElem?_eq_getElem hp', Option.getD_some, List.mem_toFinset] at hq
    exact Finset.mem_range.mpr (hsound.within _ (Array.getElem_mem hp') q hq)
  have hinjective : Set.InjOn members (Finset.range table.subsets.size) := by
    intro p hp q hq heq
    have hp' : p < table.subsets.size := Finset.mem_range.mp hp
    have hq' : q < table.subsets.size := Finset.mem_range.mp hq
    have hset : table.subsets[p] = table.subsets[q] := by
      ext r
      have hmem := Finset.ext_iff.mp heq r
      simpa [members, hp', hq'] using hmem
    exact hsound.distinct p q _ (Array.getElem?_eq_getElem hp')
      (hset ▸ Array.getElem?_eq_getElem hq')
  have hcard := Finset.card_le_card_of_injOn members hmaps hinjective
  rwa [Finset.card_range, Finset.card_powerset, Finset.card_range] at hcard

/-- The exploration fills the table, if the rows before `source` are filled and there is fuel for
every set that may still be found. -/
theorem Sound.explore {fuel : Nat} (hsound : Sound nfa mode table)
    (hfuel : Nat.pow 2 nfa.size < fuel + source)
    (hfilled : ∀ p < source, ∀ i < table.alphabet.length, ∃ q, table.Cell p i q)
    (hdiscovered : Discovered table source 0) :
    ∃ next last, Table.explore nfa mode fuel source table = .ok next ∧
      Advances nfa mode table next ∧ next.Filled ∧ Discovered next last 0 := by
  induction fuel generalizing table source with
  | zero =>
    refine ⟨table, source, rfl, .refl hsound, fun p hp => hfilled p ?_, hdiscovered⟩
    have hsize := hsound.size_le
    omega
  | succ fuel ih =>
    cases hsource : table.subsets[source]? with
    | none =>
      have hend : table.subsets.size ≤ source := Array.getElem?_eq_none_iff.mp hsource
      refine ⟨table, source, by simp only [Table.explore, hsource], .refl hsound,
        fun p hp => hfilled p ?_, hdiscovered⟩
      exact Nat.lt_of_lt_of_le hp hend
    | some subset =>
      have hrow : ∃ middle, Table.explore nfa mode (fuel + 1) source table =
          Table.explore nfa mode fuel (source + 1) middle ∧ Advances nfa mode table middle ∧
          (∀ i < table.alphabet.length, ∃ q, middle.Cell source i q) ∧
          Discovered middle (source + 1) 0 := by
        by_cases hempty : subset.isEmpty = true
        · obtain rfl := StateSet.isEmpty_iff_eq_empty.mp hempty
          refine ⟨table, ?_, .refl hsound, hsound.dead_filled source hsource, hdiscovered.nextRow⟩
          simp only [Table.explore, hsource, if_pos hempty]
          rfl
        · obtain ⟨middle, hmiddle, hadvances, hwritten, hdiscovered'⟩ :=
            hsound.writeRow hsource (List.drop_zero ..) fun i hi => absurd hi (Nat.not_lt_zero i)
          refine ⟨middle, ?_, hadvances, hwritten, hdiscovered' hdiscovered⟩
          simp only [Table.explore, hsource, if_neg hempty, hmiddle, bind, Except.bind]
      obtain ⟨middle, hunfold, hadvances, hwritten, hdiscovered'⟩ := hrow
      have hfilled' : ∀ p < source + 1, ∀ i < middle.alphabet.length, ∃ q, middle.Cell p i q := by
        intro p hp i hi
        rw [hadvances.alphabet_eq] at hi
        rcases Nat.lt_or_eq_of_le (Nat.le_of_lt_succ hp) with hp | rfl
        · obtain ⟨q, hcell⟩ := hfilled p hp i hi
          exact ⟨q, hadvances.cells p i q hcell⟩
        · exact hwritten i hi
      rw [hunfold]
      obtain ⟨next, last, hnext, hadvances', hall, hlast⟩ :=
        ih hadvances.sound (by omega) hfilled' hdiscovered'
      exact ⟨next, last, hnext, hadvances.trans hadvances', hall, hlast⟩

end Table

end PatternAutomata.Dfa
