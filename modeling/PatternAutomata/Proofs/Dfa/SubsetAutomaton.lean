import PatternAutomata.Proofs.Dfa.Determinization
import PatternAutomata.Proofs.Nfa.Sealing
import PatternAutomata.Proofs.Nfa.Trees

/-!
# What the subset construction guarantees

The table of a subset automaton is total and names its own states only, every state stands for a set
of its own and can be reached from the start, and the successor of a state stands for what a move
and a closure make of its set.  There is a dead state exactly if some move leaves nothing: the empty
set is not that of the start, so it has a state only if it is found as a successor, and a closure is
empty only if the move before it is.
-/

namespace PatternAutomata

namespace Dfa

/-- The automaton goes from the first state to the second under some symbol. -/
def Leads (dfa : Dfa) (p q : StateId) : Prop :=
  ∃ symbol, dfa.next p symbol = .ok (some q)

/-- The automaton can be in the state after some input. -/
def Reachable (dfa : Dfa) (q : StateId) : Prop :=
  Relation.ReflTransGen dfa.Leads dfa.start q

/-- Nothing is left of the set of some state when some symbol is read. -/
def HasEmptyMove (dfa : Dfa) (nfa : Nfa) : Prop :=
  ∃ q set, dfa.subset q = .ok set ∧ ∃ symbol ∈ dfa.alphabet, nfa.step set symbol = .ok ∅

/-- The automaton is the subset automaton of an ε-automaton under a closure. -/
structure IsSubsetAutomaton (dfa : Dfa) (nfa : Nfa) (mode : ClosureMode) : Prop where
  /-- A row has one cell for each symbol, and every cell names a state. -/
  rows : ∀ row ∈ dfa.table, row.length = dfa.alphabet.length ∧ ∀ q ∈ row, q < dfa.size
  /-- The symbols ascend, so none comes twice. -/
  alphabet_ascending : Ascending Char.toNat dfa.alphabet
  mem_alphabet_iff : ∀ symbol,
    symbol ∈ dfa.alphabet ↔ ∃ p q, Nfa.links nfa.nodes p (.symbol symbol) q
  start_subset : ∃ seed, nfa.closure mode (.singleton nfa.start) = .ok seed ∧
    dfa.subset dfa.start = .ok seed
  next_subset : ∀ p < dfa.size, ∀ symbol ∈ dfa.alphabet, ∃ set moved reached q,
    dfa.subset p = .ok set ∧ nfa.step set symbol = .ok moved ∧
      nfa.closure mode moved = .ok reached ∧ dfa.next p symbol = .ok (some q) ∧
        dfa.subset q = .ok reached
  distinct : ∀ p < dfa.size, ∀ q < dfa.size, dfa.subset p = dfa.subset q → p = q
  accepting_iff : ∀ q < dfa.size,
    (dfa.isAccepting q = true ↔ ∃ set, dfa.subset q = .ok set ∧ nfa.accept ∈ set)
  reachable : ∀ q < dfa.size, dfa.Reachable q
  dead_iff : (∃ dead, dfa.dead = some dead) ↔ dfa.HasEmptyMove nfa
  /-- The dead state alone stands for the empty set; it does not accept and is never left. -/
  dead_laws : ∀ dead, dfa.dead = some dead → dead < dfa.size ∧
    (∀ q, dfa.subset q = .ok ∅ ↔ q = dead) ∧ dfa.isAccepting dead = false ∧
      ∀ symbol ∈ dfa.alphabet, dfa.next dead symbol = .ok (some dead)

variable {dfa : Dfa} {nfa : Nfa} {mode : ClosureMode} {p q : StateId} {symbol : Char}
  {set : StateSet}

theorem exists_subset (h : q < dfa.size) : ∃ set, dfa.subset q = .ok set := by
  have hlt : q < dfa.subsets.size := dfa.subsets_size ▸ h
  exact ⟨dfa.subsets[q], subset_eq_ok_iff.mpr (Array.getElem?_eq_getElem hlt)⟩

theorem lt_of_subset (h : dfa.subset q = .ok set) : q < dfa.size := by
  have hlt := (Array.getElem?_eq_some_iff.mp (subset_eq_ok_iff.mp h)).1
  rw [dfa.subsets_size] at hlt
  exact hlt

theorem mem_alphabet_of_next (h : dfa.next p symbol = .ok (some q)) : symbol ∈ dfa.alphabet := by
  by_contra hsymbol
  rw [next_of_not_mem hsymbol] at h
  cases h

theorem lt_of_next (h : dfa.next p symbol = .ok (some q)) : p < dfa.size := by
  by_contra hp
  unfold next at h
  split at h
  · cases h
  · rw [row_of_le (Nat.le_of_not_lt hp)] at h
    cases h

theorem step_empty_of_successor (hset : nfa.Within set)
    (h : successor nfa mode set symbol = .ok ∅) : nfa.step set symbol = .ok ∅ := by
  obtain ⟨moved, hmoved, hclosure⟩ := bind_eq_ok_iff.mp h
  rw [hmoved]
  refine congrArg Except.ok (StateSet.ext fun q => ⟨fun hq => ?_, fun hq => ?_⟩)
  · -- the closure of a set has its members
    obtain ⟨p, hp, hedge⟩ := ((Nfa.step_yields hset symbol).mem_iff hmoved q).mp hq
    exact ((successor_yields hset mode symbol).mem_iff h q).mpr ⟨q, ⟨p, hp, hedge⟩, .refl⟩
  · exact absurd hq (StateSet.not_mem_empty q)

theorem successor_empty_of_step (hset : nfa.Within set) (h : nfa.step set symbol = .ok ∅) :
    successor nfa mode set symbol = .ok ∅ := by
  refine (successor_yields hset mode symbol).unique ⟨∅, rfl, fun q => ?_⟩
  constructor
  · intro hq
    exact absurd hq (StateSet.not_mem_empty q)
  · rintro ⟨r, hr, -⟩
    exact absurd (((Nfa.step_yields hset symbol).mem_iff h r).mpr hr) (StateSet.not_mem_empty r)

namespace Determinizes

theorem start_subset_ne_empty (h : dfa.Determinizes nfa mode) : dfa.subset dfa.start ≠ .ok ∅ := by
  obtain ⟨seed, hseed, hstart⟩ := h.start_subset
  have hmem : nfa.start ∈ seed := ((nfa.start_closure_yields mode).mem_iff hseed _).mpr .refl
  intro hempty
  rw [hstart] at hempty
  cases hempty
  exact StateSet.not_mem_empty _ hmem

theorem reachable (h : dfa.Determinizes nfa mode) (hq : q < dfa.size) : dfa.Reachable q := by
  induction q using Nat.strong_induction_on with
  | _ q ih =>
    rcases h.connected q hq with rfl | ⟨p, hp, symbol, hnext⟩
    · have hzero : dfa.Reachable dfa.start := .refl
      rwa [h.start_eq] at hzero
    · exact (ih p hp (Nat.lt_trans hp hq)).tail ⟨symbol, hnext⟩

/-- A move leads to the state of the successor of a set. -/
theorem successor_of_next (h : dfa.Determinizes nfa mode)
    (hnext : dfa.next p symbol = .ok (some q)) : ∃ set reached,
      dfa.subset p = .ok set ∧ dfa.subset q = .ok reached ∧
        successor nfa mode set symbol = .ok reached := by
  obtain ⟨set, hset⟩ := exists_subset (lt_of_next hnext)
  obtain ⟨q', reached, hnext', hreached, hsuccessor⟩ :=
    h.next_eq p set symbol hset (mem_alphabet_of_next hnext)
  rw [hnext] at hnext'
  cases hnext'
  exact ⟨set, reached, hset, hreached, hsuccessor⟩

theorem rows (h : dfa.Determinizes nfa mode) {row : List StateId} (hrow : row ∈ dfa.table) :
    row.length = dfa.alphabet.length ∧ ∀ q ∈ row, q < dfa.size := by
  have hlength := dfa.row_length row hrow
  refine ⟨hlength, fun q hq => ?_⟩
  obtain ⟨p, hp⟩ := Array.mem_iff_getElem?.mp hrow
  obtain ⟨i, hi⟩ := List.mem_iff_getElem?.mp hq
  have hi' : i < dfa.alphabet.length := hlength ▸ (List.getElem?_eq_some_iff.mp hi).1
  obtain ⟨_, reached, _, hreached, _⟩ :=
    h.successor_of_next (next_of_cell (List.getElem?_eq_getElem hi') hp hi)
  exact lt_of_subset hreached

theorem next_subset (h : dfa.Determinizes nfa mode) (hp : p < dfa.size)
    (hsymbol : symbol ∈ dfa.alphabet) : ∃ set moved reached q,
      dfa.subset p = .ok set ∧ nfa.step set symbol = .ok moved ∧
        nfa.closure mode moved = .ok reached ∧ dfa.next p symbol = .ok (some q) ∧
          dfa.subset q = .ok reached := by
  obtain ⟨set, hset⟩ := exists_subset hp
  obtain ⟨q, reached, hnext, hq, hsuccessor⟩ := h.next_eq p set symbol hset hsymbol
  obtain ⟨moved, hmoved, hclosure⟩ := bind_eq_ok_iff.mp hsuccessor
  exact ⟨set, moved, reached, q, hset, hmoved, hclosure, hnext, hq⟩

/-- There is a dead state exactly if some move leaves nothing. -/
theorem exists_dead_iff (h : dfa.Determinizes nfa mode) :
    (∃ dead, dfa.dead = some dead) ↔ dfa.HasEmptyMove nfa := by
  constructor
  · rintro ⟨dead, hdead⟩
    have hempty := (h.dead_iff dead).mp hdead
    rcases h.connected dead (lt_of_subset hempty) with hstart | ⟨p, -, symbol, hnext⟩
    · rw [hstart, ← h.start_eq] at hempty
      exact absurd hempty h.start_subset_ne_empty
    · obtain ⟨set, reached, hset, hreached, hsuccessor⟩ := h.successor_of_next hnext
      rw [hempty] at hreached
      cases hreached
      have hstep := step_empty_of_successor (h.within p set hset) hsuccessor
      exact ⟨p, set, hset, symbol, mem_alphabet_of_next hnext, hstep⟩
  · rintro ⟨p, set, hset, symbol, hsymbol, hstep⟩
    obtain ⟨q, reached, -, hreached, hsuccessor⟩ := h.next_eq p set symbol hset hsymbol
    rw [successor_empty_of_step (h.within p set hset) hstep] at hsuccessor
    cases hsuccessor
    exact ⟨q, (h.dead_iff q).mpr hreached⟩

theorem dead_laws (h : dfa.Determinizes nfa mode) {dead : StateId} (hdead : dfa.dead = some dead) :
    dead < dfa.size ∧ (∀ q, dfa.subset q = .ok ∅ ↔ q = dead) ∧ dfa.isAccepting dead = false ∧
      ∀ symbol ∈ dfa.alphabet, dfa.next dead symbol = .ok (some dead) := by
  have hempty := (h.dead_iff dead).mp hdead
  refine ⟨lt_of_subset hempty, fun q => ⟨fun hq => h.distinct q dead ∅ hq hempty, ?_⟩, ?_, ?_⟩
  · rintro rfl
    exact hempty
  · rw [Bool.eq_false_iff]
    intro haccepting
    exact StateSet.not_mem_empty _ ((h.accepting_iff dead ∅ hempty).mp haccepting)
  · intro symbol hsymbol
    obtain ⟨q, reached, hnext, hreached, hsuccessor⟩ := h.next_eq dead ∅ symbol hempty hsymbol
    rw [successor_empty] at hsuccessor
    cases hsuccessor
    rwa [h.distinct q dead ∅ hreached hempty] at hnext

theorem isSubsetAutomaton (h : dfa.Determinizes nfa mode) (hsealed : nfa.Sealed) :
    dfa.IsSubsetAutomaton nfa mode where
  rows _ hrow := h.rows hrow
  alphabet_ascending := dfa.alphabet_ascending
  mem_alphabet_iff symbol := by
    rw [h.alphabet_eq]
    exact hsealed.mem_alphabet_iff_links
  start_subset := h.start_subset
  next_subset _ hp _ hsymbol := h.next_subset hp hsymbol
  distinct p hp q hq heq := by
    obtain ⟨set, hset⟩ := exists_subset hp
    exact h.distinct p q set hset (heq ▸ hset)
  accepting_iff q hq := by
    obtain ⟨set, hset⟩ := exists_subset hq
    rw [h.accepting_iff q set hset]
    simp [hset]
  reachable _ hq := h.reachable hq
  dead_iff := h.exists_dead_iff
  dead_laws _ hdead := h.dead_laws hdead

end Determinizes

end Dfa

/-- **The subset automaton.**  The subset construction never fails, and what it gives has all the
laws of a subset automaton, under either closure. -/
theorem Nfa.determinize_isSubsetAutomaton {nfa : Nfa} (h : nfa.Sealed) (mode : ClosureMode) :
    ∃ dfa, nfa.determinize mode = .ok dfa ∧ dfa.IsSubsetAutomaton nfa mode := by
  obtain ⟨dfa, hdfa, hlaws⟩ := nfa.exists_determinize mode
  exact ⟨dfa, hdfa, hlaws.isSubsetAutomaton h⟩

theorem Nfa.determinize_isSubsetAutomaton_of_concat :
    ∃ nfa, Nfa.ofPostfix [.symbol 'a', .symbol 'b', .concat] = .ok nfa ∧ nfa.Sealed ∧
      ∃ dfa, nfa.determinize .epsilon = .ok dfa ∧ dfa.IsSubsetAutomaton nfa .epsilon := by
  obtain ⟨nfa, hnfa, -⟩ := ofPostfix_postfixOf (.concat (.symbol 'a') (.symbol 'b'))
  have hsealed := ofPostfix_sealed hnfa
  exact ⟨nfa, hnfa, hsealed, determinize_isSubsetAutomaton hsealed .epsilon⟩

end PatternAutomata
