import PatternAutomata.Proofs.Dfa.Exploration

/-!
# The subset construction

The deterministic automaton of an ε-automaton under a closure always exists.  Its states stand for
different sets of states, each found from an earlier one, and its table holds the set that a move
and the closure give.  The names of its states follow the order in which they are found, so these
laws say all there is to know about it.
-/

namespace PatternAutomata

namespace Dfa

/-! ### Cells of a finished automaton -/

section Cells

variable {dfa : Dfa} {p q : StateId} {symbol : Char} {i : Nat} {subset : StateSet}

theorem symbolIndex?_eq_some_iff :
    dfa.symbolIndex? symbol = some i ↔ dfa.alphabet[i]? = some symbol := by
  have hnodup : dfa.alphabet.Nodup := dfa.alphabet_ascending.nodup
  unfold symbolIndex?
  rw [List.idxOf?_eq_some_iff, List.getElem?_eq_some_iff]
  constructor
  · rintro ⟨hi, heq, -⟩
    exact ⟨hi, heq⟩
  · rintro ⟨hi, heq⟩
    refine ⟨hi, heq, fun j hj heq' => ?_⟩
    exact absurd (hnodup.getElem_inj_iff.mp (heq'.trans heq.symm)) (Nat.ne_of_lt hj)

theorem next_of_not_mem (h : symbol ∉ dfa.alphabet) (p : StateId) :
    dfa.next p symbol = .ok none := by
  have hnone : dfa.symbolIndex? symbol = none := List.idxOf?_eq_none_iff.mpr h
  simp only [next, hnone]

/-- A symbol leads nowhere only because the alphabet does not have it. -/
theorem next_eq_none_iff : dfa.next p symbol = .ok none ↔ symbol ∉ dfa.alphabet := by
  constructor
  · intro h hmem
    obtain ⟨i, hi⟩ := List.mem_iff_getElem?.mp hmem
    simp only [next, symbolIndex?_eq_some_iff.mpr hi] at h
    obtain ⟨row, -, hcell⟩ := bind_eq_ok_iff.mp h
    split at hcell <;> cases hcell
  · intro h
    exact next_of_not_mem h p

theorem row_eq_ok_iff {row : List StateId} : dfa.row p = .ok row ↔ dfa.table[p]? = some row := by
  unfold Dfa.row
  cases dfa.table[p]? <;> simp

theorem exists_cell_of_next (h : dfa.next p symbol = .ok (some q)) :
    ∃ (row : List StateId) (i : Nat), dfa.table[p]? = some row ∧
      dfa.alphabet[i]? = some symbol ∧ row[i]? = some q := by
  cases hindex : dfa.symbolIndex? symbol with
  | none =>
    simp only [next, hindex] at h
    cases h
  | some i =>
    simp only [next, hindex] at h
    obtain ⟨row, hrow, hcell⟩ := bind_eq_ok_iff.mp h
    refine ⟨row, i, row_eq_ok_iff.mp hrow, symbolIndex?_eq_some_iff.mp hindex, ?_⟩
    split at hcell
    · next other hother =>
      cases hcell
      exact hother
    · cases hcell

theorem next_of_cell {row : List StateId} (hsymbol : dfa.alphabet[i]? = some symbol)
    (hrow : dfa.table[p]? = some row) (hcell : row[i]? = some q) :
    dfa.next p symbol = .ok (some q) := by
  simp only [next, symbolIndex?_eq_some_iff.mpr hsymbol, Dfa.row, hrow, bind, Except.bind, hcell]
  rfl

theorem subset_eq_ok_iff : dfa.subset p = .ok subset ↔ dfa.subsets[p]? = some subset := by
  unfold Dfa.subset
  cases dfa.subsets[p]? <;> simp

end Cells

/-! ### The construction -/

/-- The deterministic automaton is the subset construction of an ε-automaton under a closure. -/
structure Determinizes (dfa : Dfa) (nfa : Nfa) (mode : ClosureMode) : Prop where
  alphabet_eq : dfa.alphabet = nfa.alphabet
  start_eq : dfa.start = 0
  start_subset : ∃ seed, nfa.closure mode (.singleton nfa.start) = .ok seed ∧
    dfa.subset dfa.start = .ok seed
  within : ∀ q subset, dfa.subset q = .ok subset → nfa.Within subset
  distinct : ∀ p q subset, dfa.subset p = .ok subset → dfa.subset q = .ok subset → p = q
  dead_iff : ∀ q, dfa.dead = some q ↔ dfa.subset q = .ok ∅
  accepting_iff : ∀ q subset, dfa.subset q = .ok subset →
    (dfa.isAccepting q = true ↔ nfa.accept ∈ subset)
  next_eq : ∀ p subset symbol, dfa.subset p = .ok subset → symbol ∈ dfa.alphabet →
    ∃ q reached, dfa.next p symbol = .ok (some q) ∧ dfa.subset q = .ok reached ∧
      successor nfa mode subset symbol = .ok reached
  accepting_lt : ∀ q, dfa.isAccepting q = true → q < dfa.size
  connected : ∀ q < dfa.size, q = 0 ∨ ∃ p < q, ∃ symbol, dfa.next p symbol = .ok (some q)
  /-- States with smaller names are found earlier. -/
  ordered : ∀ p symbol q, dfa.next p symbol = .ok (some q) → ∀ r < q, r = 0 ∨
    ∃ p' symbol', Table.Earlier p' symbol'.toNat p symbol.toNat ∧
      dfa.next p' symbol' = .ok (some r)

namespace Table

variable {nfa : Nfa} {mode : ClosureMode} {table : Table}

theorem ascendingOf_alphabet (nfa : Nfa) : ascendingOf Char.toNat nfa.alphabet = nfa.alphabet := by
  refine (ascending_ascendingOf _).eq_of_mem_iff (ascending_ascendingOf _) fun symbol => ?_
  exact mem_ascendingOf fun c d h => Char.toNat_inj.mp h

theorem new_sound (symbols : List Char) : Sound nfa mode (new symbols) := by
  have hnone : ∀ q : Nat, (new symbols).subsets[q]? = none := fun q => rfl
  constructor
  · intro subset hsubset
    exact absurd hsubset (Array.not_mem_empty subset)
  · intro p q subset hp
    rw [hnone] at hp
    cases hp
  · intro q
    rw [hnone]
    exact ⟨nofun, nofun⟩
  · intro q
    refine ⟨fun hq => absurd hq (StateSet.not_mem_empty q), ?_⟩
    rintro ⟨subset, hq, -⟩
    rw [hnone] at hq
    cases hq
  · intro p i q subset symbol hcell
    exact absurd hcell.lt (Nat.not_lt_zero p)
  · intro p hp
    rw [hnone] at hp
    cases hp

/-- The cells of a row are written in the order of their symbols. -/
theorem Earlier.symbols {p i q j : Nat} {symbols : List Char} {c d : Char} (h : Earlier p i q j)
    (hsymbols : Ascending Char.toNat symbols) (hc : symbols[i]? = some c)
    (hd : symbols[j]? = some d) : Earlier p c.toNat q d.toNat := by
  refine h.imp_right fun ⟨hp, hlt⟩ => ⟨hp, ?_⟩
  obtain ⟨hi, rfl⟩ := List.getElem?_eq_some_iff.mp hc
  obtain ⟨hj, rfl⟩ := List.getElem?_eq_some_iff.mp hd
  exact List.pairwise_iff_getElem.mp hsymbols i j hi hj hlt

/-- Where one state is named, nothing is left to be found before the first cell. -/
theorem Names.discovered {symbols : List Char} {state : StateId}
    (h : Names (new symbols) table state) : Discovered table 0 0 where
  found q hq := by
    rcases h.states q hq with hq | ⟨-, hq⟩
    · exact absurd hq (Nat.not_lt_zero q)
    · exact .inl hq
  ordered p i q hcell r hr := by
    rcases h.cell_cases p i q hcell with hcell | ⟨-, rfl, hnew⟩
    · exact absurd hcell.lt (Nat.not_lt_zero p)
    · rw [hnew] at hr
      exact absurd hr (Nat.not_lt_zero r)

theorem Sound.finish {last : Nat} (hsound : Sound nfa mode table)
    (hdiscovered : Discovered table last 0) (hfilled : table.Filled)
    (halphabet : table.alphabet = nfa.alphabet) {seed : StateSet}
    (hseed : nfa.closure mode (.singleton nfa.start) = .ok seed)
    (hstart : table.subsets[0]? = some seed) :
    ∃ dfa, table.finish 0 = .ok dfa ∧ dfa.Determinizes nfa mode := by
  have hpositive : 0 < table.subsets.size := (Array.getElem?_eq_some_iff.mp hstart).1
  obtain ⟨dfa, hdfa, hcloses⟩ := hfilled.finish hpositive
  have hsubset : ∀ p subset, dfa.subset p = .ok subset ↔ table.subsets[p]? = some subset := by
    intro p subset
    rw [subset_eq_ok_iff, hcloses.subsets_eq]
  have hnext : ∀ p i q symbol, table.Cell p i q → table.alphabet[i]? = some symbol →
      dfa.next p symbol = .ok (some q) := by
    intro p i q symbol hcell hsymbol
    obtain ⟨row, hrow, hq⟩ := (hcloses.cell_iff p i q).mpr hcell
    exact next_of_cell (hcloses.alphabet_eq ▸ hsymbol) hrow hq
  refine ⟨dfa, hdfa, ?_⟩
  exact
    { alphabet_eq := hcloses.alphabet_eq.trans halphabet
      start_eq := hcloses.start_eq
      start_subset := by
        refine ⟨seed, hseed, ?_⟩
        rw [hcloses.start_eq, hsubset]
        exact hstart
      within := by
        intro q subset hq
        exact hsound.within subset (Array.mem_of_getElem? ((hsubset q subset).mp hq))
      distinct := by
        intro p q subset hp hq
        exact hsound.distinct p q subset ((hsubset p subset).mp hp) ((hsubset q subset).mp hq)
      dead_iff := by
        intro q
        rw [hcloses.dead_eq, hsubset]
        exact hsound.dead_iff q
      accepting_iff := by
        intro q subset hq
        rw [hsubset] at hq
        rw [isAccepting, StateSet.contains_iff, hcloses.accepting_eq, hsound.accepting_iff]
        constructor
        · rintro ⟨subset', hq', haccept⟩
          rw [hq] at hq'
          cases hq'
          exact haccept
        · intro haccept
          exact ⟨subset, hq, haccept⟩
      next_eq := by
        intro p subset symbol hp hsymbol
        rw [hsubset] at hp
        rw [hcloses.alphabet_eq] at hsymbol
        obtain ⟨i, hi⟩ := List.mem_iff_getElem?.mp hsymbol
        obtain ⟨q, hcell⟩ := hfilled p (Array.getElem?_eq_some_iff.mp hp).1 i
          (List.getElem?_eq_some_iff.mp hi).1
        obtain ⟨reached, hq, hreached⟩ := hsound.cells p i q subset symbol hcell hp hi
        exact ⟨q, reached, hnext p i q symbol hcell hi, (hsubset q reached).mpr hq, hreached⟩
      accepting_lt := by
        intro q hq
        rw [isAccepting, StateSet.contains_iff, hcloses.accepting_eq, hsound.accepting_iff] at hq
        obtain ⟨subset, hq, -⟩ := hq
        have hlt := (Array.getElem?_eq_some_iff.mp hq).1
        rwa [← hcloses.subsets_eq, dfa.subsets_size] at hlt
      connected := by
        intro q hq
        have hq' : q < table.subsets.size := by
          rw [← hcloses.subsets_eq, dfa.subsets_size]
          exact hq
        rcases hdiscovered.found q hq' with hzero | ⟨p, hp, i, -, hcell⟩
        · exact .inl hzero
        · have hi := List.getElem?_eq_getElem hcell.index_lt
          exact .inr ⟨p, hp, _, hnext p i q _ hcell hi⟩
      ordered := by
        intro p symbol q hq r hr
        obtain ⟨row, i, hrow, hsymbol, hi⟩ := exists_cell_of_next hq
        have hcell : table.Cell p i q := (hcloses.cell_iff p i q).mp ⟨row, hrow, hi⟩
        rw [hcloses.alphabet_eq] at hsymbol
        rcases hdiscovered.ordered p i q hcell r hr with hzero | ⟨p', i', hearlier, hcell'⟩
        · exact .inl hzero
        · have hi' := List.getElem?_eq_getElem hcell'.index_lt
          refine .inr ⟨p', _, ?_, hnext p' i' r _ hcell' hi'⟩
          exact hearlier.symbols table.alphabet_ascending hi' hsymbol }

end Table

end Dfa

open Dfa

/-- **The subset construction.**  Every ε-automaton has a deterministic automaton under either
closure. -/
theorem Nfa.exists_determinize (nfa : Nfa) (mode : ClosureMode) :
    ∃ dfa, nfa.determinize mode = .ok dfa ∧ dfa.Determinizes nfa mode := by
  obtain ⟨seed, hseed, hmem⟩ := nfa.start_closure_yields mode
  have hwithin : nfa.Within seed := fun q hq => lt_of_reaches nfa.start_lt ((hmem q).mp hq)
  obtain ⟨state, table, hstate, hsound, hnames, hsubset⟩ :=
    (Table.new_sound nfa.alphabet).stateFor hwithin
  obtain rfl : state = 0 := Nat.le_zero.mp hnames.state_le
  obtain ⟨full, last, hfull, hadvances, hfilled, hdiscovered⟩ := @Table.Sound.explore nfa mode table
    0 (Nat.pow 2 nfa.size + 1) hsound (Nat.lt_succ_self _)
    (fun p hp => absurd hp (Nat.not_lt_zero p)) hnames.discovered
  have halphabet : full.alphabet = nfa.alphabet := by
    rw [hadvances.alphabet_eq, hnames.alphabet_eq]
    exact Table.ascendingOf_alphabet nfa
  obtain ⟨dfa, hdfa, hlaws⟩ := hadvances.sound.finish hdiscovered hfilled halphabet hseed
    (hadvances.subsets 0 seed hsubset)
  refine ⟨dfa, ?_, hlaws⟩
  simp only [determinize, hseed, hstate, hfull, hdfa, liftFault, Except.mapError, bind, Except.bind]

end PatternAutomata
