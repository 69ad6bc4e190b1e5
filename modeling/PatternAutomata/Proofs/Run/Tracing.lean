import PatternAutomata.Proofs.Compilation
import PatternAutomata.Proofs.Listing.Language
import PatternAutomata.Proofs.Nfa.Records
import PatternAutomata.Run.Tracer

/-!
# What a tracer is told

A tracer is told the events of the traced run, one after the other, and the answer is that of the
plain run; this holds of every automaton, even if the run faults.  What the events are depends on
the kind of automaton.  An ε-automaton tells one event for every symbol, and once it is stuck it
tells nothing else, as no state can be active after a symbol if none was before.  A deterministic
automaton tells a step for every symbol up to the first that its alphabet does not have; there it is
stuck, and the run is over.
-/

namespace PatternAutomata

variable {σ : Type} {tracer : Tracer σ} {state : σ} {automaton : Automaton} {input rest : List Char}
  {symbol : Char} {position : Nat}

/-! ### The run and its record -/

theorem Nfa.tell_eventAt {set : StateSet} :
    tracer.tell state (eventAt position symbol set) =
      if set.isEmpty then tracer.stuck position symbol state
      else tracer.step position symbol (.states set) state := by
  unfold eventAt
  split <;> rfl

theorem Nfa.runFrom_eq {nfa : Nfa} (set : StateSet) (position : Nat) (state : σ)
    (input : List Char) :
    nfa.runFrom tracer set position state input = (do
      let events ← nfa.traceFrom set position input
      let final ← input.foldlM nfa.advance set
      return (final.contains nfa.accept, events.foldl tracer.tell state)) := by
  induction input generalizing set position state with
  | nil => rfl
  | cons symbol rest ih =>
    cases hnext : nfa.advance set symbol with
    | error fault => simp only [runFrom, traceFrom, hnext, bind, Except.bind]
    | ok next =>
      simp only [runFrom, traceFrom, List.foldlM_cons, hnext, ok_bind, ih, bind_assoc, pure_bind,
        List.foldl_cons, tell_eventAt]

theorem Dfa.runFrom_eq {dfa : Dfa} (q : StateId) (position : Nat) (state : σ)
    (input : List Char) :
    dfa.runFrom tracer q position state input = (do
      let events ← dfa.traceFrom q position input
      let accepted ← dfa.acceptsFrom q input
      return (accepted, events.foldl tracer.tell state)) := by
  induction input generalizing q position state with
  | nil => rfl
  | cons symbol rest ih =>
    cases hnext : dfa.next q symbol with
    | error fault => simp only [runFrom, traceFrom, hnext, bind, Except.bind]
    | ok target? =>
      cases target? with
      | none =>
        simp only [runFrom, traceFrom, acceptsFrom, hnext, bind, Except.bind]
        rfl
      | some target =>
        simp only [runFrom, traceFrom, acceptsFrom, hnext, ok_bind, ih, bind_assoc, pure_bind,
          List.foldl_cons]
        rfl

/-- **Runs and their records.**  A run with a tracer is the plain run, and the tracer is told what
the traced run records. -/
theorem Automaton.runWith_eq (automaton : Automaton) (tracer : Tracer σ) (state : σ)
    (input : List Char) :
    automaton.runWith tracer state input = (do
      let events ← automaton.trace input
      let accepted ← automaton.accepts input
      return (accepted, events.foldl tracer.tell state)) := by
  cases automaton with
  | nfa nfa =>
    simp only [runWith, Nfa.runWith, trace, Nfa.trace, accepts, Nfa.accepts]
    cases hinitial : nfa.initial with
    | error fault => rfl
    | ok set =>
      simp only [ok_bind, Nfa.runFrom_eq, bind_assoc, pure_bind, List.foldl_cons]
      rfl
  | dfa dfa =>
    simp only [runWith, Dfa.runWith, trace, Dfa.trace, accepts, Dfa.accepts, Dfa.runFrom_eq,
      bind_assoc, pure_bind, List.foldl_cons]
    rfl

/-! ### ε-automata -/

/-- What an ε-automaton tells between the start and the end of a run: an event for every symbol, a
step to some states or that it is stuck; and once it is stuck, it stays stuck. -/
structure Nfa.Tells (input : List Char) (between : List Event) : Prop where
  length_eq : between.length = input.length
  event : ∀ (k : Nat) (symbol : Char), input[k]? = some symbol →
    between[k]? = some (.stuck k symbol) ∨
      ∃ set, set ≠ ∅ ∧ between[k]? = some (.step k symbol (.states set))
  stays_stuck : ∀ (j k : Nat) (first symbol : Char), j ≤ k →
    between[j]? = some (.stuck j first) → input[k]? = some symbol →
    between[k]? = some (.stuck k symbol)

namespace Nfa

variable {nfa : Nfa} {set : StateSet} {active : Nat → StateSet}

theorem accepts_of_activeAfter (h : nfa.activeAfter input = .ok set) :
    nfa.accepts input = .ok (set.contains nfa.accept) := by
  have hbind : nfa.accepts input = nfa.activeAfter input >>= fun set =>
      .ok (set.contains nfa.accept) := (bind_assoc ..).symm
  rw [hbind, h]
  rfl

/-- No state is active after a symbol if none was before. -/
theorem active_eq_empty (h : ∀ k, nfa.activeAfter (input.take k) = .ok (active k)) {j k : Nat}
    (hle : j ≤ k) (hempty : active j = ∅) : active k = ∅ := by
  induction hle with
  | refl => exact hempty
  | @step k _ ih =>
    by_cases hk : k < input.length
    · have hnext : nfa.advance (active k) input[k] = .ok (active (k + 1)) := by
        apply advance_of_activeAfter (h k)
        rw [← List.take_succ_eq_append_getElem hk]
        exact h (k + 1)
      rw [ih, advance_empty] at hnext
      exact (Except.ok.inj hnext).symm
    · have htake : input.take (k + 1) = input.take k := by
        rw [List.take_of_length_le (by omega), List.take_of_length_le (by omega)]
      have hsame := h (k + 1)
      rw [htake, h k] at hsame
      rw [← Except.ok.inj hsame, ih]

/-- The events of a run for its symbols, if the states `active k` are active after `k` symbols. -/
def eventsOf (active : Nat → StateSet) (input : List Char) : List Event :=
  input.mapIdx fun k symbol => eventAt k symbol (active (k + 1))

theorem eventsOf_getElem? {k : Nat} :
    (eventsOf active input)[k]? =
      input[k]?.map fun symbol => eventAt k symbol (active (k + 1)) :=
  List.getElem?_mapIdx

theorem reportFrom_eq (position : Nat) (input : List Char) :
    nfa.reportFrom active position input =
      (input.mapIdx fun k symbol =>
        eventAt (k + position) symbol (active (k + position + 1)))
        ++ [.finish (.ofBool ((active (input.length + position)).contains nfa.accept))] := by
  induction input generalizing position with
  | nil => simp [reportFrom]
  | cons symbol rest ih =>
    have hshift : ∀ k, k + (position + 1) = k + 1 + position := fun k => by omega
    simp only [reportFrom, ih, List.mapIdx_cons, List.cons_append, List.length_cons, Nat.zero_add,
      hshift]

theorem tells_eventsOf (h : ∀ k, nfa.activeAfter (input.take k) = .ok (active k)) :
    Tells input (eventsOf active input) where
  length_eq := List.length_mapIdx
  event k symbol hsymbol := by
    rw [eventsOf_getElem?, hsymbol, Option.map_some, eventAt]
    by_cases hempty : (active (k + 1)).isEmpty = true
    · rw [if_pos hempty]
      exact .inl rfl
    · rw [if_neg hempty]
      exact .inr ⟨_, fun heq => hempty (StateSet.isEmpty_iff_eq_empty.mpr heq), rfl⟩
  stays_stuck j k first symbol hle hstuck hsymbol := by
    rw [eventsOf_getElem?] at hstuck
    obtain ⟨read, -, hread⟩ := Option.map_eq_some_iff.mp hstuck
    have hempty : active (j + 1) = ∅ := (eventAt_eq_stuck_iff.mp hread).1
    have hempty' : active (k + 1) = ∅ := active_eq_empty h (Nat.succ_le_succ hle) hempty
    rw [eventsOf_getElem?, hsymbol, Option.map_some]
    exact congrArg some (eventAt_eq_stuck_iff.mpr ⟨hempty', rfl, rfl⟩)

theorem exists_tells (nfa : Nfa) (input : List Char) :
    ∃ accepted set between, nfa.accepts input = .ok accepted ∧
      nfa.trace input =
        .ok (.start (.states set) :: (between ++ [.finish (.ofBool accepted)])) ∧
      Tells input between := by
  obtain ⟨active, hactive⟩ := nfa.exists_activeAfter_take input
  have hsets : ∀ k, nfa.activeAfter (input.take k) = .ok (active k) := fun k => (hactive k).1
  have hfinal : nfa.activeAfter input = .ok (active input.length) := by
    rw [← hsets input.length, List.take_length]
  refine ⟨_, active 0, eventsOf active input, accepts_of_activeAfter hfinal, ?_,
    tells_eventsOf hsets⟩
  rw [trace_eq_report hsets, reportFrom_eq 0 input]
  rfl

end Nfa

/-! ### Deterministic automata -/

namespace Dfa

variable {dfa : Dfa} {accepted : Bool} {between : List Event}

/-- The number of symbols before the first that is not in the alphabet. -/
def knownLength (dfa : Dfa) (input : List Char) : Nat :=
  (input.takeWhile (· ∈ dfa.alphabet)).length

theorem knownLength_cons_of_mem (h : symbol ∈ dfa.alphabet) :
    dfa.knownLength (symbol :: rest) = dfa.knownLength rest + 1 := by
  simp [knownLength, h]

theorem knownLength_cons_of_not_mem (h : symbol ∉ dfa.alphabet) :
    dfa.knownLength (symbol :: rest) = 0 := by
  simp [knownLength, h]

/-- What a deterministic automaton tells between the start and the end of a run: a step to a state
for every symbol before the first that is not in the alphabet.  If there is such a symbol, it is
stuck there, tells nothing more and rejects. -/
structure Tells (dfa : Dfa) (input : List Char) (accepted : Bool) (between : List Event) :
    Prop where
  step : ∀ (k : Nat) (symbol : Char), k < dfa.knownLength input → input[k]? = some symbol →
    ∃ q, between[k]? = some (.step k symbol (.state q))
  length_eq : dfa.knownLength input = input.length → between.length = input.length
  stops : ∀ symbol : Char, input[dfa.knownLength input]? = some symbol →
    between[dfa.knownLength input]? = some (.stuck (dfa.knownLength input) symbol) ∧
      between.length = dfa.knownLength input + 1 ∧ accepted = false

namespace TellsFrom

theorem step_at (h : dfa.TellsFrom position input accepted between) {k : Nat}
    (hk : k < dfa.knownLength input) (hsymbol : input[k]? = some symbol) :
    ∃ q, between[k]? = some (.step (position + k) symbol (.state q)) := by
  induction h generalizing k with
  | finish => cases hk
  | @step position _ _ _ _ hknown q _ ih =>
    rw [knownLength_cons_of_mem hknown] at hk
    cases k with
    | zero =>
      obtain rfl := Option.some.inj hsymbol
      exact ⟨q, rfl⟩
    | succ k =>
      have hshift : position + (k + 1) = position + 1 + k := by omega
      rw [hshift]
      exact ih (Nat.lt_of_succ_lt_succ hk) hsymbol
  | stop _ _ hforeign =>
    rw [knownLength_cons_of_not_mem hforeign] at hk
    cases hk

theorem length_eq (h : dfa.TellsFrom position input accepted between)
    (hall : dfa.knownLength input = input.length) : between.length = input.length := by
  induction h with
  | finish => rfl
  | step hknown _ _ ih =>
    rw [knownLength_cons_of_mem hknown] at hall
    exact congrArg (· + 1) (ih (Nat.succ.inj hall))
  | stop _ _ hforeign =>
    rw [knownLength_cons_of_not_mem hforeign] at hall
    cases hall

theorem stops (h : dfa.TellsFrom position input accepted between)
    (hsymbol : input[dfa.knownLength input]? = some symbol) :
    between[dfa.knownLength input]? = some (.stuck (position + dfa.knownLength input) symbol) ∧
      between.length = dfa.knownLength input + 1 ∧ accepted = false := by
  induction h with
  | finish => cases hsymbol
  | @step position _ rest _ _ hknown _ _ ih =>
    rw [knownLength_cons_of_mem hknown, List.getElem?_cons_succ] at hsymbol
    obtain ⟨hstuck, hlength, haccepted⟩ := ih hsymbol
    have hshift : position + (dfa.knownLength rest + 1) = position + 1 + dfa.knownLength rest := by
      omega
    rw [knownLength_cons_of_mem hknown, List.getElem?_cons_succ, hshift, List.length_cons, hlength]
    exact ⟨hstuck, rfl, haccepted⟩
  | stop _ _ hforeign =>
    rw [knownLength_cons_of_not_mem hforeign] at hsymbol ⊢
    obtain rfl := Option.some.inj hsymbol
    exact ⟨rfl, rfl, rfl⟩

theorem tells (h : dfa.TellsFrom 0 input accepted between) : dfa.Tells input accepted between where
  step k symbol hk hsymbol := by
    have hstep := h.step_at hk hsymbol
    rwa [Nat.zero_add] at hstep
  length_eq := h.length_eq
  stops symbol hsymbol := by
    have hstops := h.stops hsymbol
    rwa [Nat.zero_add] at hstops

end TellsFrom

theorem exists_tells (h : dfa.graph.Closed) (input : List Char) :
    ∃ accepted between, dfa.accepts input = .ok accepted ∧
      dfa.trace input =
        .ok (.start (.state dfa.start) :: (between ++ [.finish (.ofBool accepted)])) ∧
      dfa.Tells input accepted between := by
  obtain ⟨accepted, between, haccepts, htrace, htells⟩ := exists_traceFrom h dfa.start_lt input 0
  refine ⟨accepted, between, haccepts, ?_, htells.tells⟩
  simp only [trace, htrace, bind, Except.bind]
  rfl

end Dfa

/-! ### Either kind -/

namespace Automaton

/-- What an automaton tells between the start and the end of a run. -/
def Tells (automaton : Automaton) (input : List Char) (accepted : Bool) (between : List Event) :
    Prop :=
  match automaton with
  | .nfa _ => Nfa.Tells input between
  | .dfa machine => machine.Tells input accepted between

theorem exists_tells (h : automaton.graph.Closed) (input : List Char) :
    ∃ accepted active between, automaton.accepts input = .ok accepted ∧
      automaton.trace input = .ok (.start active :: (between ++ [.finish (.ofBool accepted)])) ∧
      automaton.Tells input accepted between := by
  cases automaton with
  | nfa nfa =>
    obtain ⟨accepted, set, between, haccepts, htrace, htells⟩ := nfa.exists_tells input
    exact ⟨accepted, .states set, between, haccepts, htrace, htells⟩
  | dfa dfa =>
    obtain ⟨accepted, between, haccepts, htrace, htells⟩ := Dfa.exists_tells h input
    exact ⟨accepted, .state dfa.start, between, haccepts, htrace, htells⟩

/-- Whatever is compiled, with or without a text, is an automaton that can be made. -/
theorem built_of_assemble {tokens : Postfix} {options : CompileOptions}
    (h : assemble tokens options = .ok automaton) : automaton.Built := by
  obtain ⟨nfa, hnfa, hrest⟩ := bind_eq_ok_iff.mp h
  have hsealed := Nfa.ofPostfix_sealed hnfa
  obtain ⟨kind, closure⟩ := options
  cases kind with
  | nfa =>
    cases hrest
    exact .nfa hsealed
  | dfa =>
    obtain ⟨dfa, hdfa, hautomaton⟩ := bind_eq_ok_iff.mp hrest
    cases hautomaton
    exact .dfa hsealed hdfa

theorem exists_built_of_check {text : String} (h : check text.toList = [])
    (options : CompileOptions) :
    ∃ compiled, compile text options = .ok compiled ∧ compiled.automaton.Built := by
  obtain ⟨e, htree⟩ := (derives_of_check_eq_nil h).exists_parses
  obtain ⟨-, automaton, -, -, hassemble, -⟩ := exists_assemble e options
  exact ⟨_, compile_eq h htree hassemble, built_of_assemble hassemble⟩

/-- **What a tracer is told.**  Every run of an automaton that can be made has an answer, with any
tracer the same as without.  The tracer is told the start first and once, and last and once the
answer; what it is told in between is an event for every symbol of an ε-automaton, and of a
deterministic automaton up to the first symbol that is not in the alphabet. -/
theorem Built.runWith_tells (h : automaton.Built) (input : List Char) :
    ∃ accepted active between, automaton.accepts input = .ok accepted ∧
      automaton.Tells input accepted between ∧
      ∀ {σ : Type} (tracer : Tracer σ) (state : σ),
        automaton.runWith tracer state input =
          .ok (accepted, tracer.finish (.ofBool accepted)
            (between.foldl tracer.tell (tracer.start active state))) := by
  obtain ⟨accepted, active, between, haccepts, htrace, htells⟩ := exists_tells h.graph_closed input
  refine ⟨accepted, active, between, haccepts, htells, ?_⟩
  intro σ tracer state
  rw [runWith_eq, htrace, haccepts, ok_bind, ok_bind, List.foldl_cons, List.foldl_append]
  rfl

/-- A run with a symbol that the alphabet does not have, between two that it has. -/
theorem Built.runWith_tells_of_foreign :
    ∃ compiled, compile "(a|b)*c" ⟨.dfa, .epsilon⟩ = .ok compiled ∧ compiled.automaton.Built ∧
      ∃ accepted active between,
        compiled.automaton.accepts ['a', 'ε', 'c'] = .ok accepted ∧
        compiled.automaton.Tells ['a', 'ε', 'c'] accepted between ∧
        ∀ {σ : Type} (tracer : Tracer σ) (state : σ),
          compiled.automaton.runWith tracer state ['a', 'ε', 'c'] =
            .ok (accepted, tracer.finish (.ofBool accepted)
              (between.foldl tracer.tell (tracer.start active state))) := by
  have hcheck : check "(a|b)*c".toList = [] := by decide
  obtain ⟨compiled, hcompiled, hbuilt⟩ := exists_built_of_check hcheck ⟨.dfa, .epsilon⟩
  exact ⟨compiled, hcompiled, hbuilt, hbuilt.runWith_tells ['a', 'ε', 'c']⟩

end Automaton

end PatternAutomata
