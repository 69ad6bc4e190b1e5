import Mathlib.Data.Set.Function
import PatternAutomata.Proofs.Dfa.Naming
import PatternAutomata.Proofs.Nfa.Edges

/-!
# Renaming the states of an ε-automaton

Two ε-automata that differ in the names of their states have the same deterministic automaton, but
for what its states stand for.  The sets that are found differ by the renaming alone, so the same
words lead to states for corresponding sets; and as the least of these words give the names of the
states, the names are the same.
-/

namespace PatternAutomata

/-! ### Other names for the states of an ε-automaton -/

namespace Nfa

variable {rename : StateId → StateId} {nfa other : Nfa} {mode : ClosureMode} {p q : StateId}
  {symbol : Char}

/-- The second automaton is the first one with other names for its states. -/
structure Renames (rename : StateId → StateId) (nfa other : Nfa) : Prop where
  bijOn : Set.BijOn rename { p | p < nfa.size } { p | p < other.size }
  start_eq : other.start = rename nfa.start
  accept_eq : other.accept = rename nfa.accept
  links_iff : ∀ p < nfa.size, ∀ label, ∀ q < nfa.size,
    (links other.nodes (rename p) label (rename q) ↔ links nfa.nodes p label q)

/-- The members of the second set are those of the first one under their other names. -/
structure Renames.Images (rename : StateId → StateId) (nfa other : Nfa) (set set' : StateSet) :
    Prop where
  within : nfa.Within set
  within' : other.Within set'
  mem_iff : ∀ p < nfa.size, (rename p ∈ set' ↔ p ∈ set)

namespace Renames

theorem exists_name (h : Renames rename nfa other) (hp : p < other.size) :
    ∃ q < nfa.size, rename q = p := by
  obtain ⟨q, hq, rfl⟩ := h.bijOn.surjOn hp
  exact ⟨q, hq, rfl⟩

theorem injective (h : Renames rename nfa other) (hp : p < nfa.size) (hq : q < nfa.size)
    (heq : rename p = rename q) : p = q :=
  h.bijOn.injOn hp hq heq

theorem alphabet_eq (h : Renames rename nfa other) (hnfa : nfa.Sealed) (hother : other.Sealed) :
    other.alphabet = nfa.alphabet := by
  refine (ascending_ascendingOf _).eq_of_mem_iff (ascending_ascendingOf _) fun symbol => ?_
  show symbol ∈ other.alphabet ↔ symbol ∈ nfa.alphabet
  rw [hother.mem_alphabet_iff_links, hnfa.mem_alphabet_iff_links]
  constructor
  · rintro ⟨p, q, hedge⟩
    obtain ⟨p, hp, rfl⟩ := h.exists_name (lt_of_links hedge)
    obtain ⟨q, hq, rfl⟩ := h.exists_name (target_lt_of_links other.closed hedge)
    exact ⟨p, q, (h.links_iff p hp _ q hq).mp hedge⟩
  · rintro ⟨p, q, hedge⟩
    have hp : p < nfa.size := lt_of_links hedge
    have hq : q < nfa.size := target_lt_of_links nfa.closed hedge
    exact ⟨rename p, rename q, (h.links_iff p hp _ q hq).mpr hedge⟩

theorem follows_iff (h : Renames rename nfa other) (hnfa : nfa.Sealed) (hother : other.Sealed)
    (hp : p < nfa.size) (hq : q < nfa.size) :
    other.Follows mode (rename p) (rename q) ↔ nfa.Follows mode p q := by
  cases mode with
  | epsilon => exact h.links_iff p hp .epsilon q hq
  | reachability =>
    rw [hother.follows_iff_links, hnfa.follows_iff_links]
    exact exists_congr fun label => h.links_iff p hp label q hq

/-- What is reached under the other names is reached under the first ones. -/
theorem reaches_iff (h : Renames rename nfa other) (hnfa : nfa.Sealed) (hother : other.Sealed)
    (hp : p < nfa.size) (hq : q < nfa.size) :
    other.Reaches mode (rename p) (rename q) ↔ nfa.Reaches mode p q := by
  constructor
  · intro hreach
    have hback : ∀ q', other.Reaches mode (rename p) q' →
        ∃ q < nfa.size, rename q = q' ∧ nfa.Reaches mode p q := by
      intro q' hreach
      induction hreach with
      | refl => exact ⟨p, hp, rfl, .refl⟩
      | tail _ hedge ih =>
        obtain ⟨r, hr, rfl, hreach⟩ := ih
        obtain ⟨q, hq, rfl⟩ := h.exists_name (lt_of_follows hedge)
        exact ⟨q, hq, rfl, hreach.tail ((h.follows_iff hnfa hother hr hq).mp hedge)⟩
    obtain ⟨r, hr, heq, hreach⟩ := hback _ hreach
    rwa [h.injective hr hq heq] at hreach
  · intro hreach
    refine hreach.lift rename fun r s hedge => ?_
    exact (h.follows_iff hnfa hother (source_lt_of_follows hedge) (lt_of_follows hedge)).mpr hedge

namespace Images

variable {set set' set₁ set₂ reached reached' : StateSet}

theorem eq_left (h : Images rename nfa other set₁ set') (h' : Images rename nfa other set₂ set') :
    set₁ = set₂ := by
  ext p
  constructor
  · intro hp
    have hlt := h.within p hp
    exact (h'.mem_iff p hlt).mp ((h.mem_iff p hlt).mpr hp)
  · intro hp
    have hlt := h'.within p hp
    exact (h.mem_iff p hlt).mp ((h'.mem_iff p hlt).mpr hp)

theorem eq_right (hnames : Renames rename nfa other) (h : Images rename nfa other set set₁)
    (h' : Images rename nfa other set set₂) : set₁ = set₂ := by
  ext p
  constructor
  · intro hp
    obtain ⟨q, hq, rfl⟩ := hnames.exists_name (h.within' p hp)
    exact (h'.mem_iff q hq).mpr ((h.mem_iff q hq).mp hp)
  · intro hp
    obtain ⟨q, hq, rfl⟩ := hnames.exists_name (h'.within' p hp)
    exact (h.mem_iff q hq).mpr ((h'.mem_iff q hq).mp hp)

theorem eq_empty_iff (hnames : Renames rename nfa other) (h : Images rename nfa other set set') :
    set = ∅ ↔ set' = ∅ := by
  have hempty : Images rename nfa other ∅ ∅ :=
    { within := fun p hp => absurd hp (StateSet.not_mem_empty p)
      within' := fun p hp => absurd hp (StateSet.not_mem_empty p)
      mem_iff := fun p _ =>
        iff_of_false (StateSet.not_mem_empty (rename p)) (StateSet.not_mem_empty p) }
  constructor
  · rintro rfl
    exact h.eq_right hnames hempty
  · rintro rfl
    exact h.eq_left hempty

end Images

theorem start_images (h : Renames rename nfa other) (hnfa : nfa.Sealed) (hother : other.Sealed)
    {seed seed' : StateSet} (hwithin : nfa.Within seed) (hwithin' : other.Within seed')
    (hseed : nfa.closure mode (.singleton nfa.start) = .ok seed)
    (hseed' : other.closure mode (.singleton other.start) = .ok seed') :
    Images rename nfa other seed seed' where
  within := hwithin
  within' := hwithin'
  mem_iff p hp := by
    rw [(nfa.start_closure_yields mode).mem_iff hseed,
      (other.start_closure_yields mode).mem_iff hseed', h.start_eq]
    exact h.reaches_iff hnfa hother nfa.start_lt hp

/-- A move and a closure reach the same states, whatever their names are. -/
theorem successor_images (h : Renames rename nfa other) (hnfa : nfa.Sealed)
    (hother : other.Sealed) {set set' reached reached' : StateSet}
    (hset : Images rename nfa other set set') (hwithin : nfa.Within reached)
    (hwithin' : other.Within reached')
    (hreached : Dfa.successor nfa mode set symbol = .ok reached)
    (hreached' : Dfa.successor other mode set' symbol = .ok reached') :
    Images rename nfa other reached reached' where
  within := hwithin
  within' := hwithin'
  mem_iff q hq := by
    rw [(Dfa.successor_yields hset.within mode symbol).mem_iff hreached,
      (Dfa.successor_yields hset.within' mode symbol).mem_iff hreached']
    constructor
    · rintro ⟨r, ⟨p, hp, hedge⟩, hreach⟩
      obtain ⟨p, hlt, rfl⟩ := h.exists_name (hset.within' p hp)
      obtain ⟨r, hr, rfl⟩ := h.exists_name (target_lt_of_links other.closed hedge)
      refine ⟨r, ⟨p, (hset.mem_iff p hlt).mp hp, ?_⟩, ?_⟩
      · exact (h.links_iff p hlt _ r hr).mp hedge
      · exact (h.reaches_iff hnfa hother hr hq).mp hreach
    · rintro ⟨r, ⟨p, hp, hedge⟩, hreach⟩
      have hlt := hset.within p hp
      have hr : r < nfa.size := target_lt_of_links nfa.closed hedge
      refine ⟨rename r, ⟨rename p, (hset.mem_iff p hlt).mpr hp, ?_⟩, ?_⟩
      · exact (h.links_iff p hlt _ r hr).mpr hedge
      · exact (h.reaches_iff hnfa hother hr hq).mpr hreach

end Renames

end Nfa

/-! ### The deterministic automata -/

namespace Dfa

variable {rename : StateId → StateId} {nfa other : Nfa} {mode : ClosureMode} {dfa dfa' : Dfa}
  {p q p' q' r r' : StateId} {symbol : Char} {u v : List Char}

/-- The deterministic automata of two ε-automata that differ in the names of their states. -/
structure Twins (rename : StateId → StateId) (nfa other : Nfa) (mode : ClosureMode)
    (dfa dfa' : Dfa) : Prop where
  renames : nfa.Renames rename other
  isSealed : nfa.Sealed
  isSealed' : other.Sealed
  laws : dfa.Determinizes nfa mode
  laws' : dfa'.Determinizes other mode

/-- The states stand for the same set, each under its own names. -/
def Matches (rename : StateId → StateId) (nfa other : Nfa) (dfa dfa' : Dfa) (q q' : StateId) :
    Prop :=
  ∃ set set', dfa.subset q = .ok set ∧ dfa'.subset q' = .ok set' ∧
    Nfa.Renames.Images rename nfa other set set'

namespace Twins

theorem alphabet_eq (h : Twins rename nfa other mode dfa dfa') : dfa'.alphabet = dfa.alphabet := by
  rw [h.laws.alphabet_eq, h.laws'.alphabet_eq]
  exact h.renames.alphabet_eq h.isSealed h.isSealed'

theorem matches_start (h : Twins rename nfa other mode dfa dfa') :
    Matches rename nfa other dfa dfa' dfa.start dfa'.start := by
  obtain ⟨seed, hseed, hstart⟩ := h.laws.start_subset
  obtain ⟨seed', hseed', hstart'⟩ := h.laws'.start_subset
  refine ⟨seed, seed', hstart, hstart', ?_⟩
  exact h.renames.start_images h.isSealed h.isSealed' (h.laws.within _ seed hstart)
    (h.laws'.within _ seed' hstart') hseed hseed'

theorem matches_next (h : Twins rename nfa other mode dfa dfa')
    (hmatches : Matches rename nfa other dfa dfa' p p') (hq : dfa.next p symbol = .ok (some q))
    (hq' : dfa'.next p' symbol = .ok (some q')) : Matches rename nfa other dfa dfa' q q' := by
  obtain ⟨set, set', hset, hset', himages⟩ := hmatches
  obtain ⟨_, reached, hsame, hreached, hsuccessor⟩ := h.laws.successor_of_next hq
  obtain ⟨_, reached', hsame', hreached', hsuccessor'⟩ := h.laws'.successor_of_next hq'
  rw [hset] at hsame
  rw [hset'] at hsame'
  cases hsame
  cases hsame'
  refine ⟨reached, reached', hreached, hreached', ?_⟩
  exact h.renames.successor_images h.isSealed h.isSealed' himages (h.laws.within q _ hreached)
    (h.laws'.within q' _ hreached') hsuccessor hsuccessor'

/-- A word leads to states that stand for the same set. -/
theorem matches_of_access (h : Twins rename nfa other mode dfa dfa') (hq : dfa.Access u q)
    (hq' : dfa'.Access v q') (huv : u = v) : Matches rename nfa other dfa dfa' q q' := by
  induction hq generalizing v q' with
  | nil =>
    cases hq' with
    | nil => exact h.matches_start
    | concat => simp at huv
  | concat _ hnext ih =>
    cases hq' with
    | nil => simp at huv
    | concat haccess hnext' =>
      obtain ⟨hword, hsymbol⟩ := List.append_inj' huv rfl
      cases hsymbol
      exact h.matches_next (ih haccess hword) hnext hnext'

/-- Different states never stand for the same set. -/
theorem eq_iff_of_matches (h : Twins rename nfa other mode dfa dfa')
    (hq : Matches rename nfa other dfa dfa' q q') (hr : Matches rename nfa other dfa dfa' r r') :
    q = r ↔ q' = r' := by
  obtain ⟨set₁, set₁', hset₁, hset₁', himages₁⟩ := hq
  obtain ⟨set₂, set₂', hset₂, hset₂', himages₂⟩ := hr
  constructor
  · rintro rfl
    rw [hset₁] at hset₂
    cases hset₂
    cases himages₁.eq_right h.renames himages₂
    exact h.laws'.distinct q' r' set₁' hset₁' hset₂'
  · rintro rfl
    rw [hset₁'] at hset₂'
    cases hset₂'
    cases himages₁.eq_left himages₂
    exact h.laws.distinct q r set₁ hset₁ hset₂

theorem exists_access_iff (h : Twins rename nfa other mode dfa dfa') :
    (∃ q, dfa.Access u q) ↔ ∃ q', dfa'.Access u q' := by
  rw [h.laws.exists_access_iff, h.laws'.exists_access_iff, h.alphabet_eq]

/-- States that one word leads to have all their access words in common. -/
theorem access_iff (h : Twins rename nfa other mode dfa dfa') (hq : dfa.Access u q)
    (hq' : dfa'.Access u q') : dfa.Access v q ↔ dfa'.Access v q' := by
  have hmatches := h.matches_of_access hq hq' rfl
  constructor
  · intro hv
    obtain ⟨r', hr'⟩ := h.exists_access_iff.mp ⟨q, hv⟩
    have hsame := (h.eq_iff_of_matches hmatches (h.matches_of_access hv hr' rfl)).mp rfl
    rwa [hsame]
  · intro hv'
    obtain ⟨r, hr⟩ := h.exists_access_iff.mpr ⟨q', hv'⟩
    have hsame := (h.eq_iff_of_matches hmatches (h.matches_of_access hr hv' rfl)).mpr rfl
    rwa [hsame]

theorem leastAccess (h : Twins rename nfa other mode dfa dfa') (hq : dfa.Access u q)
    (hq' : dfa'.Access u q') (hv : dfa.LeastAccess v q) : dfa'.LeastAccess v q' where
  access := (h.access_iff hq hq').mp hv.access
  least w hw := hv.least w ((h.access_iff hq hq').mpr hw)

theorem lt_iff (h : Twins rename nfa other mode dfa dfa') (hq : dfa.Access u q)
    (hq' : dfa'.Access u q') (hr : dfa.Access v r) (hr' : dfa'.Access v r') :
    q < r ↔ q' < r' := by
  have hnamed := h.laws.namedByAccess
  obtain ⟨least, hleast⟩ := hnamed.exists_least q (h.laws.lt_of_access hq)
  obtain ⟨least', hleast'⟩ := hnamed.exists_least r (h.laws.lt_of_access hr)
  rw [hnamed.lt_iff q r least least' hleast hleast',
    h.laws'.namedByAccess.lt_iff q' r' least least' (h.leastAccess hq hq' hleast)
      (h.leastAccess hr hr' hleast')]

/-- A word leads to states with the same name: a smaller name on one side would be that of a state
on the other side, whose name is smaller still. -/
theorem eq_of_access (h : Twins rename nfa other mode dfa dfa') (hq : dfa.Access u q)
    (hq' : dfa'.Access u q') : q = q' := by
  induction q using Nat.strong_induction_on generalizing u q' with
  | _ q ih =>
    rcases Nat.lt_trichotomy q q' with hlt | heq | hgt
    · have hsize : q < dfa'.size := Nat.lt_trans hlt (h.laws'.lt_of_access hq')
      obtain ⟨v, hv'⟩ := exists_access (h.laws'.reachable hsize)
      obtain ⟨r, hv⟩ := h.exists_access_iff.mpr ⟨q, hv'⟩
      have hr : r < q := (h.lt_iff hv hv' hq hq').mpr hlt
      exact absurd (ih r hr hv hv') (Nat.ne_of_lt hr)
    · exact heq
    · have hsize : q' < dfa.size := Nat.lt_trans hgt (h.laws.lt_of_access hq)
      obtain ⟨v, hv⟩ := exists_access (h.laws.reachable hsize)
      obtain ⟨r', hv'⟩ := h.exists_access_iff.mp ⟨q', hv⟩
      have hr' : r' < q' := (h.lt_iff hv hv' hq hq').mp hgt
      exact absurd (ih q' hgt hv hv').symm (Nat.ne_of_lt hr')

theorem lt_size_iff (h : Twins rename nfa other mode dfa dfa') : q < dfa.size ↔ q < dfa'.size := by
  constructor
  · intro hq
    obtain ⟨u, hu⟩ := exists_access (h.laws.reachable hq)
    obtain ⟨q', hu'⟩ := h.exists_access_iff.mp ⟨q, hu⟩
    rw [h.eq_of_access hu hu']
    exact h.laws'.lt_of_access hu'
  · intro hq
    obtain ⟨u, hu'⟩ := exists_access (h.laws'.reachable hq)
    obtain ⟨r, hu⟩ := h.exists_access_iff.mpr ⟨q, hu'⟩
    rw [← h.eq_of_access hu hu']
    exact h.laws.lt_of_access hu

/-- A name stands for the same set in both automata. -/
theorem matches_self (h : Twins rename nfa other mode dfa dfa') (hq : q < dfa.size) :
    Matches rename nfa other dfa dfa' q q := by
  obtain ⟨u, hu⟩ := exists_access (h.laws.reachable hq)
  obtain ⟨q', hu'⟩ := h.exists_access_iff.mp ⟨q, hu⟩
  cases h.eq_of_access hu hu'
  exact h.matches_of_access hu hu' rfl

theorem next_eq (h : Twins rename nfa other mode dfa dfa')
    (hnext : dfa.next p symbol = .ok (some q)) : dfa'.next p symbol = .ok (some q) := by
  obtain ⟨set', hset'⟩ := exists_subset (h.lt_size_iff.mp (lt_of_next hnext))
  obtain ⟨q', _, hnext', _⟩ :=
    h.laws'.next_eq p set' symbol hset' (h.alphabet_eq ▸ mem_alphabet_of_next hnext)
  obtain ⟨_, reached, _, hreached, _⟩ := h.laws.successor_of_next hnext
  have hmatches := h.matches_next (h.matches_self (lt_of_next hnext)) hnext hnext'
  have hsame := (h.eq_iff_of_matches (h.matches_self (lt_of_subset hreached)) hmatches).mp rfl
  rwa [hsame]

theorem table_eq (h : Twins rename nfa other mode dfa dfa') : dfa'.table = dfa.table := by
  have hsize : dfa'.table.size = dfa.table.size := by
    refine Nat.le_antisymm (Nat.not_lt.mp fun hlt => ?_) (Nat.not_lt.mp fun hlt => ?_)
    · exact Nat.lt_irrefl _ (h.lt_size_iff.mpr hlt)
    · exact Nat.lt_irrefl _ (h.lt_size_iff.mp hlt)
  refine Array.ext hsize fun p hp' hp => ?_
  have hlength := dfa.row_length _ (Array.getElem_mem hp)
  have hlength' := dfa'.row_length _ (Array.getElem_mem hp')
  rw [h.alphabet_eq] at hlength'
  refine List.ext_getElem (hlength'.trans hlength.symm) fun i hi' hi => ?_
  -- a cell is what the automaton goes to under the symbol of its column
  have hindex : i < dfa.alphabet.length := hlength ▸ hi
  obtain ⟨symbol, hsymbol⟩ : ∃ symbol, dfa.alphabet[i]? = some symbol :=
    ⟨_, List.getElem?_eq_getElem hindex⟩
  have hsymbol' : dfa'.alphabet[i]? = some symbol := h.alphabet_eq ▸ hsymbol
  have hnext := next_of_cell hsymbol (Array.getElem?_eq_getElem hp) (List.getElem?_eq_getElem hi)
  have hnext' :=
    next_of_cell hsymbol' (Array.getElem?_eq_getElem hp') (List.getElem?_eq_getElem hi')
  rw [h.next_eq hnext] at hnext'
  exact (Option.some.inj (Except.ok.inj hnext')).symm

theorem accepting_eq (h : Twins rename nfa other mode dfa dfa') :
    dfa'.accepting = dfa.accepting := by
  ext q
  show q ∈ dfa'.accepting ↔ q ∈ dfa.accepting
  rw [← StateSet.contains_iff, ← StateSet.contains_iff]
  by_cases hq : q < dfa.size
  · obtain ⟨set, set', hset, hset', himages⟩ := h.matches_self hq
    have haccept := himages.mem_iff nfa.accept nfa.accept_lt
    rw [← h.renames.accept_eq] at haccept
    exact (h.laws'.accepting_iff q set' hset').trans
      (haccept.trans (h.laws.accepting_iff q set hset).symm)
  · exact iff_of_false (fun haccept => hq (h.lt_size_iff.mpr (h.laws'.accepting_lt q haccept)))
      (fun haccept => hq (h.laws.accepting_lt q haccept))

theorem dead_eq (h : Twins rename nfa other mode dfa dfa') : dfa'.dead = dfa.dead := by
  ext q
  show dfa'.dead = some q ↔ dfa.dead = some q
  rw [h.laws.dead_iff, h.laws'.dead_iff]
  by_cases hq : q < dfa.size
  · obtain ⟨set, set', hset, hset', himages⟩ := h.matches_self hq
    rw [hset, hset', Except.ok.injEq, Except.ok.injEq, himages.eq_empty_iff h.renames]
  · exact iff_of_false (fun hempty => hq (h.lt_size_iff.mpr (lt_of_subset hempty)))
      (fun hempty => hq (lt_of_subset hempty))

end Twins

end Dfa

open Dfa

/-- **Canonical names.**  The states of a subset automaton, the dead state among them, are named in
the order of the least words that lead to them.  So the automaton does not depend on the names of
the states of the ε-automaton: where these are renamed, its table, its start, its dead state and its
accepting states stay the same. -/
theorem Nfa.determinize_canonical {nfa : Nfa} (h : nfa.Sealed) (mode : ClosureMode) :
    ∃ dfa, nfa.determinize mode = .ok dfa ∧ dfa.NamedByAccess ∧
      ∀ (other : Nfa) (rename : StateId → StateId), other.Sealed → nfa.Renames rename other →
        ∃ dfa', other.determinize mode = .ok dfa' ∧ dfa'.alphabet = dfa.alphabet ∧
          dfa'.table = dfa.table ∧ dfa'.start = dfa.start ∧ dfa'.dead = dfa.dead ∧
            dfa'.accepting = dfa.accepting := by
  obtain ⟨dfa, hdfa, hlaws⟩ := nfa.exists_determinize mode
  refine ⟨dfa, hdfa, hlaws.namedByAccess, fun other rename hother hrenames => ?_⟩
  obtain ⟨dfa', hdfa', hlaws'⟩ := other.exists_determinize mode
  have htwins : Twins rename nfa other mode dfa dfa' := ⟨hrenames, h, hother, hlaws, hlaws'⟩
  refine ⟨dfa', hdfa', htwins.alphabet_eq, htwins.table_eq, ?_, htwins.dead_eq, htwins.accepting_eq⟩
  rw [hlaws.start_eq, hlaws'.start_eq]

/-- Two automata with the edges of the one in the opposite order of states. -/
theorem Nfa.determinize_canonical_of_reversed :
    ∃ nfa other : Nfa, nfa.Sealed ∧ other.Sealed ∧
      nfa.edges = [⟨0, .epsilon, 1⟩, ⟨1, .symbol 'a', 2⟩, ⟨2, .symbol 'b', 1⟩] ∧
      other.edges = [⟨0, .symbol 'b', 1⟩, ⟨1, .symbol 'a', 0⟩, ⟨2, .epsilon, 1⟩] ∧
      ∃ dfa dfa', nfa.determinize .epsilon = .ok dfa ∧ dfa.NamedByAccess ∧
        other.determinize .epsilon = .ok dfa' ∧ dfa'.alphabet = dfa.alphabet ∧
          dfa'.table = dfa.table ∧ dfa'.start = dfa.start ∧ dfa'.dead = dfa.dead ∧
            dfa'.accepting = dfa.accepting := by
  have hstates : Arena.Built Arena.empty.addState.2.addState.2.addState.2 :=
    .addState (.addState (.addState .empty))
  have hnfa : ∃ nfa : Nfa, nfa.Sealed ∧ nfa.size = 3 ∧ nfa.start = 0 ∧ nfa.accept = 2 ∧
      nfa.edges = [⟨0, .epsilon, 1⟩, ⟨1, .symbol 'a', 2⟩, ⟨2, .symbol 'b', 1⟩] := by
    have henter := @Arena.Built.addEpsilon _ _ 0 1 hstates rfl
    have hforth := @Arena.Built.addMove _ _ 1 2 'a' henter rfl
    have hback := @Arena.Built.addMove _ _ 2 1 'b' hforth rfl
    exact ⟨_, ⟨_, 0, 2, hback, rfl⟩, rfl, rfl, rfl, rfl⟩
  have hother : ∃ other : Nfa, other.Sealed ∧ other.size = 3 ∧ other.start = 2 ∧
      other.accept = 0 ∧
      other.edges = [⟨0, .symbol 'b', 1⟩, ⟨1, .symbol 'a', 0⟩, ⟨2, .epsilon, 1⟩] := by
    have henter := @Arena.Built.addEpsilon _ _ 2 1 hstates rfl
    have hforth := @Arena.Built.addMove _ _ 1 0 'a' henter rfl
    have hback := @Arena.Built.addMove _ _ 0 1 'b' hforth rfl
    exact ⟨_, ⟨_, 2, 0, hback, rfl⟩, rfl, rfl, rfl, rfl⟩
  obtain ⟨nfa, hsealed, hsize, hstart, haccept, hedges⟩ := hnfa
  obtain ⟨other, hsealed', hsize', hstart', haccept', hedges'⟩ := hother
  have hrenames : nfa.Renames (2 - ·) other := by
    have hback : ∀ p : Nat, p < 3 → 2 - (2 - p) = p := by omega
    have hinto : Set.MapsTo (2 - ·) { p | p < nfa.size } { p | p < other.size } :=
      fun p _ => hsize' ▸ Nat.sub_lt_succ 2 p
    have hfrom : Set.MapsTo (2 - ·) { p | p < other.size } { p | p < nfa.size } :=
      fun p _ => hsize ▸ Nat.sub_lt_succ 2 p
    have hinverse : Set.InvOn (2 - ·) (2 - ·) { p | p < nfa.size } { p | p < other.size } :=
      ⟨fun p hp => hback p (hsize ▸ hp), fun p hp => hback p (hsize' ▸ hp)⟩
    refine ⟨hinverse.bijOn hinto hfrom, ?_, ?_, ?_⟩
    · rw [hstart, hstart']
    · rw [haccept, haccept']
    · intro p hp label q hq
      rw [hsize] at hp hq
      rw [← hsealed.leads_iff, ← hsealed'.leads_iff, Leads, Leads, hedges, hedges']
      simp only [List.mem_cons, Edge.mk.injEq, List.not_mem_nil, or_false]
      grind
  obtain ⟨dfa, hdfa, hnamed, hsame⟩ := determinize_canonical hsealed .epsilon
  obtain ⟨dfa', hdfa', hlaws⟩ := hsame other (2 - ·) hsealed' hrenames
  exact ⟨nfa, other, hsealed, hsealed', hedges, hedges', dfa, dfa', hdfa, hnamed, hdfa', hlaws⟩

end PatternAutomata
