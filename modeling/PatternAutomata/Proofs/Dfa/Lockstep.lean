import PatternAutomata.Proofs.Dfa.Determinization
import PatternAutomata.Proofs.Nfa.Runs
import PatternAutomata.Run.Trace

/-!
# Runs in lockstep

An ε-automaton and its deterministic automaton under the closure that keeps the language are read
side by side.  The relation between them is that the state of the one stands for the set of the
other.  It holds at the start, and every symbol of the alphabet keeps it; a symbol that no edge
reads leaves the ε-automaton without states for the rest of the input, and ends the run of the
deterministic automaton.
-/

namespace PatternAutomata

/-! ### What an event shows -/

/-- The states an ε-automaton can be in at an event of its run; there are none when it is stuck. -/
def Event.states? : Event → Option StateSet
  | .start (.states set) => some set
  | .step _ _ (.states set) => some set
  | .stuck _ _ => some ∅
  | _ => none

/-- The state of a deterministic automaton at an event of its run. -/
def Event.state? : Event → Option StateId
  | .start (.state q) => some q
  | .step _ _ (.state q) => some q
  | _ => none

/-- A record reports that nothing is active after the symbol at a position.  The start of the run is
recorded before all symbols. -/
def StuckAt (events : List Event) (position : Nat) : Prop :=
  ∃ symbol, events[position + 1]? = some (.stuck position symbol)

/-- The number of symbols before the first that is not in the alphabet. -/
def Nfa.knownLength (nfa : Nfa) (input : List Char) : Nat :=
  (input.takeWhile (· ∈ nfa.alphabet)).length

namespace Nfa

variable {nfa : Nfa} {set : StateSet} {position : Nat} {symbol : Char} {input rest : List Char}

theorem knownLength_cons_of_mem (h : symbol ∈ nfa.alphabet) :
    nfa.knownLength (symbol :: rest) = nfa.knownLength rest + 1 := by
  simp [knownLength, h]

theorem knownLength_cons_of_not_mem (h : symbol ∉ nfa.alphabet) :
    nfa.knownLength (symbol :: rest) = 0 := by
  simp [knownLength, h]

theorem states?_eventAt : (eventAt position symbol set).states? = some set := by
  unfold eventAt
  by_cases hempty : set.isEmpty = true
  · rw [if_pos hempty, StateSet.isEmpty_iff_eq_empty.mp hempty]
    rfl
  · rw [if_neg hempty]
    rfl

theorem eventAt_eq_stuck_iff {position' : Nat} {symbol' : Char} :
    eventAt position symbol set = .stuck position' symbol' ↔
      set = ∅ ∧ position = position' ∧ symbol = symbol' := by
  unfold eventAt
  by_cases hempty : set.isEmpty = true
  · rw [if_pos hempty]
    simp [StateSet.isEmpty_iff_eq_empty.mp hempty]
  · have hne : set ≠ ∅ := fun e => hempty (StateSet.isEmpty_iff_eq_empty.mpr e)
    simp [hempty, hne]

/-! ### Symbols that no edge reads -/

theorem advance_of_not_mem (hset : nfa.Within set) (h : symbol ∉ nfa.alphabet) :
    nfa.advance set symbol = .ok ∅ := by
  refine (advance_yields hset symbol).unique ⟨∅, rfl, fun q => ?_⟩
  constructor
  · intro hq
    exact absurd hq (StateSet.not_mem_empty q)
  · rintro ⟨r, ⟨p, -, hedge⟩, -⟩
    exact absurd (mem_alphabet_of_links hedge) h

theorem advance_empty : nfa.advance ∅ symbol = .ok ∅ :=
  @Dfa.successor_empty nfa .epsilon symbol

theorem foldlM_advance_empty : input.foldlM nfa.advance ∅ = .ok ∅ := by
  induction input with
  | nil => rfl
  | cons symbol input ih =>
    rw [List.foldlM_cons, advance_empty]
    exact ih

/-- The record of a run that has no states left. -/
def stuckFrom (position : Nat) : List Char → List Event
  | [] => [.finish .rejected]
  | symbol :: rest => .stuck position symbol :: stuckFrom (position + 1) rest

theorem traceFrom_empty : nfa.traceFrom ∅ position input = .ok (stuckFrom position input) := by
  induction input generalizing position with
  | nil =>
    have hcontains : (∅ : StateSet).contains nfa.accept = false :=
      decide_eq_false (StateSet.not_mem_empty nfa.accept)
    simp only [traceFrom, stuckFrom, hcontains]
    rfl
  | cons symbol input ih =>
    simp only [traceFrom, advance_empty, ih, stuckFrom, bind, Except.bind]
    rfl

theorem stuckFrom_getElem? {k : Nat} (hk : k < input.length) :
    ∃ symbol, (stuckFrom position input)[k]? = some (.stuck (position + k) symbol) := by
  induction input generalizing position k with
  | nil => cases hk
  | cons symbol input ih =>
    cases k with
    | zero => exact ⟨symbol, rfl⟩
    | succ k =>
      obtain ⟨symbol', h⟩ := @ih (position + 1) k (Nat.lt_of_succ_lt_succ hk)
      refine ⟨symbol', ?_⟩
      rw [stuckFrom, List.getElem?_cons_succ, h, Nat.add_assoc, Nat.add_comm 1 k]

theorem getLast?_stuckFrom : (stuckFrom position input).getLast? = some (.finish .rejected) := by
  induction input generalizing position with
  | nil => rfl
  | cons symbol input ih => rw [stuckFrom, List.getLast?_cons, ih, Option.getD_some]

end Nfa

/-! ### Records in lockstep -/

/-- The records of the two runs, from a position on, belong together. -/
inductive Lockstep (nfa : Nfa) (dfa : Dfa) :
    Nat → List Char → List Event → List Event → Prop where
  | finish (position : Nat) (verdict : Verdict) :
    Lockstep nfa dfa position [] [.finish verdict] [.finish verdict]
  | step {position : Nat} {symbol : Char} {rest : List Char} {set : StateSet} {q : StateId}
    {nfaEvents dfaEvents : List Event} (hsymbol : symbol ∈ nfa.alphabet)
    (hset : dfa.subset q = .ok set)
    (hrest : Lockstep nfa dfa (position + 1) rest nfaEvents dfaEvents) :
    Lockstep nfa dfa position (symbol :: rest) (Nfa.eventAt position symbol set :: nfaEvents)
      (.step position symbol (.state q) :: dfaEvents)
  | foreign (position : Nat) {symbol : Char} (rest : List Char) (hsymbol : symbol ∉ nfa.alphabet) :
    Lockstep nfa dfa position (symbol :: rest) (Nfa.stuckFrom position (symbol :: rest))
      [.stuck position symbol, .finish .rejected]

namespace Lockstep

variable {nfa : Nfa} {dfa : Dfa} {position : Nat} {input : List Char}
  {nfaEvents dfaEvents : List Event}

theorem subset_eq (h : Lockstep nfa dfa position input nfaEvents dfaEvents) {k : Nat}
    (hk : k < nfa.knownLength input) :
    ∃ q set, dfaEvents[k]?.bind Event.state? = some q ∧
      nfaEvents[k]?.bind Event.states? = some set ∧ dfa.subset q = .ok set := by
  induction h generalizing k with
  | finish => cases hk
  | @step _ _ _ set q _ _ hsymbol hset _ ih =>
    rw [Nfa.knownLength_cons_of_mem hsymbol] at hk
    cases k with
    | zero => exact ⟨q, set, rfl, Nfa.states?_eventAt, hset⟩
    | succ k => exact ih (Nat.lt_of_succ_lt_succ hk)
  | foreign _ _ hsymbol =>
    rw [Nfa.knownLength_cons_of_not_mem hsymbol] at hk
    cases hk

theorem stuck_iff (h : Lockstep nfa dfa position input nfaEvents dfaEvents)
    (hdead : ∀ q, dfa.dead = some q ↔ dfa.subset q = .ok ∅) {k : Nat}
    (hk : k < nfa.knownLength input) :
    (∃ symbol, nfaEvents[k]? = some (.stuck (position + k) symbol)) ↔
      ∃ q, dfaEvents[k]?.bind Event.state? = some q ∧ dfa.dead = some q := by
  induction h generalizing k with
  | finish => cases hk
  | @step position symbol _ set q _ _ hsymbol hset _ ih =>
    rw [Nfa.knownLength_cons_of_mem hsymbol] at hk
    cases k with
    | zero =>
      constructor
      · rintro ⟨symbol', hstuck⟩
        have hempty := (Nfa.eventAt_eq_stuck_iff.mp (Option.some.inj hstuck)).1
        exact ⟨q, rfl, (hdead q).mpr (hempty ▸ hset)⟩
      · rintro ⟨q', hq', hdead'⟩
        obtain rfl : q = q' := Option.some.inj hq'
        have hempty := (hdead q).mp hdead'
        rw [hset] at hempty
        have hstuck : Nfa.eventAt position symbol set = .stuck position symbol :=
          Nfa.eventAt_eq_stuck_iff.mpr ⟨Except.ok.inj hempty, rfl, rfl⟩
        exact ⟨symbol, congrArg some hstuck⟩
    | succ k =>
      have hshift : position + (k + 1) = position + 1 + k := by omega
      simp only [List.getElem?_cons_succ, hshift]
      exact ih (Nat.lt_of_succ_lt_succ hk)
  | foreign _ _ hsymbol =>
    rw [Nfa.knownLength_cons_of_not_mem hsymbol] at hk
    cases hk

theorem stuck_dfa (h : Lockstep nfa dfa position input nfaEvents dfaEvents)
    (hk : nfa.knownLength input < input.length) :
    (∃ symbol, dfaEvents[nfa.knownLength input]? =
      some (.stuck (position + nfa.knownLength input) symbol)) ∧
      dfaEvents.getLast? = some (.finish .rejected) := by
  induction h with
  | finish => cases hk
  | @step position _ rest _ _ _ _ hsymbol _ _ ih =>
    rw [Nfa.knownLength_cons_of_mem hsymbol] at hk ⊢
    obtain ⟨hstuck, hlast⟩ := ih (Nat.lt_of_succ_lt_succ hk)
    have hshift : position + (nfa.knownLength rest + 1) = position + 1 + nfa.knownLength rest := by
      omega
    rw [List.getElem?_cons_succ, hshift, List.getLast?_cons, hlast]
    exact ⟨hstuck, rfl⟩
  | @foreign _ symbol _ hsymbol =>
    rw [Nfa.knownLength_cons_of_not_mem hsymbol]
    exact ⟨⟨symbol, rfl⟩, rfl⟩

theorem stuck_nfa (h : Lockstep nfa dfa position input nfaEvents dfaEvents) {k : Nat}
    (hfrom : nfa.knownLength input ≤ k) (hk : k < input.length) :
    ∃ symbol, nfaEvents[k]? = some (.stuck (position + k) symbol) := by
  induction h generalizing k with
  | finish => cases hk
  | @step position _ _ _ _ _ _ hsymbol _ _ ih =>
    rw [Nfa.knownLength_cons_of_mem hsymbol] at hfrom
    cases k with
    | zero => cases hfrom
    | succ k =>
      have hshift : position + (k + 1) = position + 1 + k := by omega
      rw [List.getElem?_cons_succ, hshift]
      exact ih (Nat.le_of_succ_le_succ hfrom) (Nat.lt_of_succ_lt_succ hk)
  | foreign => exact Nfa.stuckFrom_getElem? hk

theorem verdict_eq (h : Lockstep nfa dfa position input nfaEvents dfaEvents) :
    ∃ verdict, nfaEvents.getLast? = some (.finish verdict) ∧
      dfaEvents.getLast? = some (.finish verdict) := by
  induction h with
  | finish _ verdict => exact ⟨verdict, rfl, rfl⟩
  | step _ _ _ ih =>
    obtain ⟨verdict, hnfa, hdfa⟩ := ih
    refine ⟨verdict, ?_, ?_⟩
    · rw [List.getLast?_cons, hnfa, Option.getD_some]
    · rw [List.getLast?_cons, hdfa, Option.getD_some]
  | foreign => exact ⟨.rejected, Nfa.getLast?_stuckFrom, rfl⟩

end Lockstep

/-! ### The simulation -/

namespace Dfa.Determinizes

variable {nfa : Nfa} {dfa : Dfa} {q : StateId} {set : StateSet}

theorem isAccepting_eq (h : dfa.Determinizes nfa .epsilon) (hq : dfa.subset q = .ok set) :
    dfa.isAccepting q = set.contains nfa.accept := by
  rw [Bool.eq_iff_iff, h.accepting_iff q set hq, StateSet.contains_iff]

/-- The runs from a state and from the set it stands for are in lockstep. -/
theorem traceFrom_lockstep (h : dfa.Determinizes nfa .epsilon) (hq : dfa.subset q = .ok set)
    (position : Nat) (input : List Char) :
    ∃ nfaEvents dfaEvents, nfa.traceFrom set position input = .ok nfaEvents ∧
      dfa.traceFrom q position input = .ok dfaEvents ∧
      Lockstep nfa dfa position input nfaEvents dfaEvents := by
  induction input generalizing q set position with
  | nil =>
    refine ⟨_, _, rfl, ?_, .finish position (.ofBool (set.contains nfa.accept))⟩
    rw [traceFrom, h.isAccepting_eq hq]
  | cons symbol rest ih =>
    by_cases hsymbol : symbol ∈ nfa.alphabet
    · obtain ⟨r, reached, hnext, hr, hreached⟩ :=
        h.next_eq q set symbol hq (h.alphabet_eq ▸ hsymbol)
      have hadvance : nfa.advance set symbol = .ok reached := hreached
      obtain ⟨nfaEvents, dfaEvents, hnfa, hdfa, hrest⟩ := ih hr (position + 1)
      refine ⟨_, _, ?_, ?_, .step hsymbol hr hrest⟩
      · simp only [Nfa.traceFrom, hadvance, hnfa, bind, Except.bind]
        rfl
      · simp only [traceFrom, hnext, hdfa, bind, Except.bind]
        rfl
    · refine ⟨_, _, ?_, ?_, .foreign position rest hsymbol⟩
      · simp only [Nfa.traceFrom, Nfa.advance_of_not_mem (h.within q set hq) hsymbol,
          Nfa.traceFrom_empty, bind, Except.bind]
        rfl
      · simp only [traceFrom, next_of_not_mem (h.alphabet_eq ▸ hsymbol), bind, Except.bind]
        rfl

theorem acceptsFrom_eq (h : dfa.Determinizes nfa .epsilon) (hq : dfa.subset q = .ok set)
    (input : List Char) :
    dfa.acceptsFrom q input = (do
      let final ← input.foldlM nfa.advance set
      return final.contains nfa.accept) := by
  induction input generalizing q set with
  | nil =>
    rw [acceptsFrom, h.isAccepting_eq hq]
    rfl
  | cons symbol rest ih =>
    by_cases hsymbol : symbol ∈ nfa.alphabet
    · obtain ⟨r, reached, hnext, hr, hreached⟩ :=
        h.next_eq q set symbol hq (h.alphabet_eq ▸ hsymbol)
      have hadvance : nfa.advance set symbol = .ok reached := hreached
      simp only [acceptsFrom, hnext, List.foldlM_cons, hadvance, bind, Except.bind]
      exact ih hr
    · have hcontains : (∅ : StateSet).contains nfa.accept = false :=
        decide_eq_false (StateSet.not_mem_empty nfa.accept)
      rw [List.foldlM_cons, Nfa.advance_of_not_mem (h.within q set hq) hsymbol]
      simp only [acceptsFrom, next_of_not_mem (h.alphabet_eq ▸ hsymbol) q, bind, Except.bind,
        Nfa.foldlM_advance_empty, hcontains]

theorem accepts_eq (h : dfa.Determinizes nfa .epsilon) (input : List Char) :
    dfa.accepts input = nfa.accepts input := by
  obtain ⟨seed, hseed, hstart⟩ := h.start_subset
  have hinitial : nfa.initial = .ok seed := hseed
  rw [accepts, h.acceptsFrom_eq hstart, Nfa.accepts, hinitial]
  rfl

end Dfa.Determinizes

/-- **Lockstep.**  As long as the symbols are in the alphabet, the state of the deterministic
automaton stands for the states the ε-automaton can be in, and it is the dead state exactly when the
ε-automaton is stuck.  The first symbol outside the alphabet ends the one run and leaves the other
stuck.  The verdicts are the same. -/
theorem Nfa.trace_lockstep (nfa : Nfa) :
    ∃ dfa, nfa.determinize .epsilon = .ok dfa ∧
      ∀ input : List Char, ∃ nfaEvents dfaEvents, nfa.trace input = .ok nfaEvents ∧
        dfa.trace input = .ok dfaEvents ∧
        (∀ k ≤ nfa.knownLength input, ∃ q set, dfaEvents[k]?.bind Event.state? = some q ∧
          nfaEvents[k]?.bind Event.states? = some set ∧ dfa.subset q = .ok set) ∧
        (∀ k < nfa.knownLength input, StuckAt nfaEvents k ↔
          ∃ q, dfaEvents[k + 1]?.bind Event.state? = some q ∧ dfa.dead = some q) ∧
        (nfa.knownLength input < input.length →
          StuckAt dfaEvents (nfa.knownLength input) ∧
            dfaEvents.getLast? = some (.finish .rejected) ∧
            ∀ k, nfa.knownLength input ≤ k → k < input.length → StuckAt nfaEvents k) ∧
        ∃ verdict, nfaEvents.getLast? = some (.finish verdict) ∧
          dfaEvents.getLast? = some (.finish verdict) := by
  obtain ⟨dfa, hdfa, hlaws⟩ := nfa.exists_determinize .epsilon
  refine ⟨dfa, hdfa, fun input => ?_⟩
  obtain ⟨seed, hseed, hstart⟩ := hlaws.start_subset
  have hinitial : nfa.initial = .ok seed := hseed
  obtain ⟨nfaEvents, dfaEvents, hnfa, hdfaEvents, hlockstep⟩ :=
    hlaws.traceFrom_lockstep hstart 0 input
  refine ⟨.start (.states seed) :: nfaEvents, .start (.state dfa.start) :: dfaEvents, ?_, ?_, ?_,
    ?_, ?_, ?_⟩
  · simp only [trace, hinitial, hnfa, bind, Except.bind]
    rfl
  · simp only [Dfa.trace, hdfaEvents, bind, Except.bind]
    rfl
  · intro k hk
    cases k with
    | zero => exact ⟨dfa.start, seed, rfl, rfl, hstart⟩
    | succ k => exact hlockstep.subset_eq hk
  · intro k hk
    have hiff := hlockstep.stuck_iff hlaws.dead_iff hk
    rwa [Nat.zero_add] at hiff
  · intro hforeign
    obtain ⟨hstuck, hlast⟩ := hlockstep.stuck_dfa hforeign
    rw [Nat.zero_add] at hstuck
    refine ⟨hstuck, ?_, fun k hfrom hk => ?_⟩
    · rw [List.getLast?_cons, hlast, Option.getD_some]
    · have hstuck' := hlockstep.stuck_nfa hfrom hk
      rwa [Nat.zero_add] at hstuck'
  · obtain ⟨verdict, hnfaLast, hdfaLast⟩ := hlockstep.verdict_eq
    refine ⟨verdict, ?_, ?_⟩
    · rw [List.getLast?_cons, hnfaLast, Option.getD_some]
    · rw [List.getLast?_cons, hdfaLast, Option.getD_some]

end PatternAutomata
