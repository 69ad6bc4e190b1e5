import PatternAutomata.Proofs.Dfa.Lockstep
import PatternAutomata.Proofs.Nfa.Sealing
import PatternAutomata.Proofs.Nfa.Trees

/-!
# The language under the closure along every edge

The closure along every edge lets a run pass over an edge that reads a symbol without reading it.
So the sets that it gives are never left, and a symbol of the input is read somewhere on the rest of
a path: the symbols before it are passed over.  The deterministic automaton under this closure
therefore accepts exactly the words that are left when symbols are deleted from the words of the
ε-automaton.
-/

namespace PatternAutomata

theorem Decides.eq_true_iff {result : Except Fault Bool} {property : Prop}
    (h : Decides result property) : result = .ok true ↔ property := by
  obtain ⟨answer, rfl, hanswer⟩ := h
  rw [← hanswer, Except.ok.injEq]

namespace Nfa

variable {nfa : Nfa} {set : StateSet} {p q : StateId} {symbol : Char} {word longer : List Char}

/-- No edge leaves the set. -/
def NeverLeft (nfa : Nfa) (set : StateSet) : Prop :=
  ∀ p ∈ set, ∀ label q, links nfa.nodes p label q → q ∈ set

theorem NeverLeft.mem_of_path (h : nfa.NeverLeft set) (hp : p ∈ set)
    (hpath : Path (links nfa.nodes) p word q) : q ∈ set := by
  induction hpath with
  | nil => exact hp
  | step hedge _ ih => exact ih (h _ hp _ _ hedge)

theorem Sealed.exists_path_of_reaches (h : nfa.Sealed) (hreach : nfa.Reaches .reachability p q) :
    ∃ word, Path (links nfa.nodes) p word q := by
  induction hreach with
  | refl => exact ⟨[], Path.nil p⟩
  | tail _ hfollow ih =>
    obtain ⟨word, hpath⟩ := ih
    obtain ⟨label, hedge⟩ := h.follows_iff_links.mp hfollow
    exact ⟨word ++ label.word, hpath.append (Path.edge hedge)⟩

theorem Sealed.neverLeft_of_yields (h : nfa.Sealed) {result : Except Fault StateSet}
    {property : StateId → Prop} (hyields : Yields result property) (hset : result = .ok set)
    (hkept : ∀ p q, property p → nfa.Follows .reachability p q → property q) :
    nfa.NeverLeft set := by
  intro p hp label q hedge
  have hfollow := h.follows_iff_links.mpr ⟨label, hedge⟩
  exact (hyields.mem_iff hset q).mpr (hkept p q ((hyields.mem_iff hset p).mp hp) hfollow)

/-- The first symbol of a subsequence is read on some edge of the path; the states before this edge
are in the set, for the set is never left. -/
theorem NeverLeft.exists_read (h : nfa.NeverLeft set) (hp : p ∈ set)
    (hpath : Path (links nfa.nodes) p longer q) (hword : (symbol :: word).Sublist longer) :
    ∃ p' ∈ set, ∃ r, links nfa.nodes p' (.symbol symbol) r ∧
      ∃ rest, word.Sublist rest ∧ Path (links nfa.nodes) r rest q := by
  induction hpath with
  | nil => cases hword
  | @step p r q label rest hedge hrest ih =>
    have hr : r ∈ set := h p hp label r hedge
    cases label with
    | epsilon => exact ih hr hword
    | symbol c =>
      cases hword with
      | cons _ hword => exact ih hr hword
      | cons_cons _ hword => exact ⟨p, hp, r, hedge, rest, hword, hrest⟩

end Nfa

namespace Dfa.Determinizes

variable {nfa : Nfa} {dfa : Dfa} {q : StateId} {set : StateSet}

/-- From a state whose set is never left, the deterministic automaton accepts the subsequences of
the words along the paths from the set to the accepting state. -/
theorem acceptsFrom_decides (h : dfa.Determinizes nfa .reachability) (hsealed : nfa.Sealed)
    (hq : dfa.subset q = .ok set) (hset : nfa.NeverLeft set) (word : List Char) :
    Decides (dfa.acceptsFrom q word) (∃ p ∈ set, ∃ longer, word.Sublist longer ∧
      Path (Nfa.links nfa.nodes) p longer nfa.accept) := by
  induction word generalizing q set with
  | nil =>
    refine ⟨dfa.isAccepting q, rfl, ?_⟩
    rw [h.accepting_iff q set hq]
    constructor
    · intro haccept
      exact ⟨nfa.accept, haccept, [], .slnil, Path.nil nfa.accept⟩
    · rintro ⟨p, hp, longer, -, hpath⟩
      exact hset.mem_of_path hp hpath
  | cons symbol word ih =>
    by_cases hsymbol : symbol ∈ nfa.alphabet
    · obtain ⟨r, reached, hnext, hr, hreached⟩ :=
        h.next_eq q set symbol hq (h.alphabet_eq ▸ hsymbol)
      have hyields := successor_yields (h.within q set hq) .reachability symbol
      have hmem := hyields.mem_iff hreached
      have hunfold : dfa.acceptsFrom q (symbol :: word) = dfa.acceptsFrom r word := by
        simp only [acceptsFrom, hnext, bind, Except.bind]
      have hset' : nfa.NeverLeft reached := by
        refine hsealed.neverLeft_of_yields hyields hreached ?_
        rintro p q ⟨s, hs, hreach⟩ hfollow
        exact ⟨s, hs, hreach.tail hfollow⟩
      obtain ⟨answer, hanswer, hiff⟩ := ih hr hset'
      refine ⟨answer, hunfold.trans hanswer, hiff.trans ⟨?_, ?_⟩⟩
      · rintro ⟨p', hp', longer, hword, hpath⟩
        obtain ⟨s, ⟨p, hp, hedge⟩, hreach⟩ := (hmem p').mp hp'
        obtain ⟨passed, hpassed⟩ := hsealed.exists_path_of_reaches hreach
        refine ⟨p, hp, symbol :: (passed ++ longer), ?_, Path.step hedge (hpassed.append hpath)⟩
        exact (hword.trans (List.sublist_append_right passed longer)).cons_cons symbol
      · rintro ⟨p, hp, longer, hword, hpath⟩
        obtain ⟨p', hp', s, hedge, rest, hrest, hpath'⟩ := hset.exists_read hp hpath hword
        exact ⟨s, (hmem s).mpr ⟨s, ⟨p', hp', hedge⟩, .refl⟩, rest, hrest, hpath'⟩
    · refine ⟨false, ?_, ?_⟩
      · simp only [acceptsFrom, next_of_not_mem (h.alphabet_eq ▸ hsymbol) q, bind, Except.bind]
        rfl
      · rw [Bool.false_eq_true, false_iff]
        rintro ⟨p, hp, longer, hword, hpath⟩
        obtain ⟨p', -, s, hedge, -⟩ := hset.exists_read hp hpath hword
        exact hsymbol (Nfa.mem_alphabet_of_links hedge)

theorem accepts_decides_subsequence (h : dfa.Determinizes nfa .reachability)
    (hsealed : nfa.Sealed) (word : List Char) :
    Decides (dfa.accepts word) (∃ longer ∈ nfa.language, word.Sublist longer) := by
  obtain ⟨seed, hseed, hstart⟩ := h.start_subset
  have hyields := nfa.start_closure_yields .reachability
  have hset : nfa.NeverLeft seed := by
    refine hsealed.neverLeft_of_yields hyields hseed ?_
    intro p q hreach hfollow
    exact hreach.tail hfollow
  obtain ⟨answer, hanswer, hiff⟩ := h.acceptsFrom_decides hsealed hstart hset word
  refine ⟨answer, hanswer, hiff.trans ⟨?_, ?_⟩⟩
  · rintro ⟨p, hp, longer, hword, hpath⟩
    have hreach : nfa.Reaches .reachability nfa.start p := (hyields.mem_iff hseed p).mp hp
    obtain ⟨passed, hpassed⟩ := hsealed.exists_path_of_reaches hreach
    exact ⟨passed ++ longer, hpassed.append hpath,
      hword.trans (List.sublist_append_right passed longer)⟩
  · rintro ⟨longer, hpath, hword⟩
    have hmem : nfa.start ∈ seed := (hyields.mem_iff hseed _).mpr .refl
    exact ⟨nfa.start, hmem, longer, hword, hpath⟩

end Dfa.Determinizes

/-- **The closure along every edge.**  Under it, a run never fails and accepts exactly the
subsequences of the inputs that the ε-automaton accepts; among these are all inputs that are
accepted under the closure that keeps the language. -/
theorem Nfa.reachability_accepts_subsequences {nfa : Nfa} (h : nfa.Sealed) :
    ∃ narrow wide, nfa.determinize .epsilon = .ok narrow ∧
      nfa.determinize .reachability = .ok wide ∧ ∀ word : List Char,
        Decides (wide.accepts word)
          (∃ longer, nfa.accepts longer = .ok true ∧ word.Sublist longer) ∧
        (narrow.accepts word = .ok true → wide.accepts word = .ok true) := by
  obtain ⟨narrow, hnarrow, hnarrowLaws⟩ := nfa.exists_determinize .epsilon
  obtain ⟨wide, hwide, hwideLaws⟩ := nfa.exists_determinize .reachability
  refine ⟨narrow, wide, hnarrow, hwide, fun word => ?_⟩
  have hdecides : Decides (wide.accepts word)
      (∃ longer, nfa.accepts longer = .ok true ∧ word.Sublist longer) := by
    obtain ⟨answer, hanswer, hiff⟩ := hwideLaws.accepts_decides_subsequence h word
    refine ⟨answer, hanswer, hiff.trans (exists_congr fun longer => ?_)⟩
    rw [(nfa.accepts_decides longer).eq_true_iff]
  refine ⟨hdecides, fun haccepts => hdecides.eq_true_iff.mpr ⟨word, ?_, .refl word⟩⟩
  rw [← hnarrowLaws.accepts_eq word]
  exact haccepts

/-- The second half of a word is accepted, though the ε-automaton rejects it. -/
theorem Nfa.reachability_accepts_subsequences_of_concat :
    ∃ nfa wide, Nfa.ofPostfix [.symbol 'a', .symbol 'b', .concat] = .ok nfa ∧ nfa.Sealed ∧
      nfa.determinize .reachability = .ok wide ∧ wide.accepts ['b'] = .ok true ∧
        nfa.accepts ['b'] ≠ .ok true := by
  obtain ⟨nfa, hnfa, hlanguage⟩ := ofPostfix_postfixOf (.concat (.symbol 'a') (.symbol 'b'))
  have hwords : ∀ word, nfa.accepts word = .ok true ↔ word = ['a', 'b'] := by
    intro word
    rw [(nfa.accepts_decides word).eq_true_iff, hlanguage]
    constructor
    · rintro ⟨_, rfl, _, rfl, rfl⟩
      rfl
    · rintro rfl
      exact ⟨['a'], rfl, ['b'], rfl, rfl⟩
  have hsealed := ofPostfix_sealed hnfa
  obtain ⟨narrow, wide, -, hwide, hword⟩ := reachability_accepts_subsequences hsealed
  refine ⟨nfa, wide, hnfa, hsealed, hwide, ?_, ?_⟩
  · exact (hword ['b']).1.eq_true_iff.mpr ⟨['a', 'b'], (hwords _).mpr rfl, by decide⟩
  · rw [Ne, hwords]
    decide

end PatternAutomata
