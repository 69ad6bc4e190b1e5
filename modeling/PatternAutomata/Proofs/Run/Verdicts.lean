import PatternAutomata.Proofs.Listing.Walk
import PatternAutomata.Proofs.Nfa.Runs
import PatternAutomata.Run.Suite
import PatternAutomata.Run.Trace

/-!
# Verdicts of runs

In a closed automaton every edge ends at a state, so a run that is at a state stays at states and
never faults.  The traced run goes through the same states as the plain one: its record ends with
the verdict of the plain run, and a suite has that verdict beside the input.
-/

namespace PatternAutomata

variable {automaton : Automaton}

/-- The automaton says whether it accepts the input, in the plain run and at the end of the traced
one. -/
structure Automaton.Gives (automaton : Automaton) (input : List Char) (accepted : Bool) :
    Prop where
  accepts_eq : automaton.accepts input = .ok accepted
  exists_trace : ∃ events,
    automaton.trace input = .ok (events ++ [.finish (.ofBool accepted)])

/-! ### ε-automata -/

namespace Nfa

variable {nfa : Nfa} {set : StateSet}

theorem within_initial (h : nfa.initial = .ok set) : nfa.Within set := by
  intro q hq
  exact lt_of_reaches nfa.start_lt ((initial_yields.mem_iff h q).mp hq)

theorem exists_advance (hset : nfa.Within set) (symbol : Char) :
    ∃ next, nfa.advance set symbol = .ok next ∧ nfa.Within next := by
  obtain ⟨next, hnext, hmem⟩ := advance_yields hset symbol
  refine ⟨next, hnext, fun q hq => ?_⟩
  obtain ⟨r, ⟨p, -, hedge⟩, hreach⟩ := (hmem q).mp hq
  exact lt_of_reaches (target_lt_of_links nfa.closed hedge) hreach

theorem exists_traceFrom (hset : nfa.Within set) (input : List Char) (position : Nat) :
    ∃ final events, input.foldlM nfa.advance set = .ok final ∧
      nfa.traceFrom set position input =
        .ok (events ++ [.finish (.ofBool (final.contains nfa.accept))]) := by
  induction input generalizing set position with
  | nil => exact ⟨set, [], rfl, rfl⟩
  | cons symbol input ih =>
    obtain ⟨next, hnext, hwithin⟩ := exists_advance hset symbol
    obtain ⟨final, events, hfinal, htrace⟩ := ih hwithin (position + 1)
    refine ⟨final, eventAt position symbol next :: events, ?_, ?_⟩
    · rw [List.foldlM_cons, hnext]
      exact hfinal
    · simp only [traceFrom, hnext, htrace, bind, Except.bind]
      rfl

theorem exists_gives (nfa : Nfa) (input : List Char) :
    ∃ accepted, Automaton.Gives (.nfa nfa) input accepted := by
  obtain ⟨start, hstart, -⟩ := @initial_yields nfa
  obtain ⟨final, events, hfinal, htrace⟩ := exists_traceFrom (within_initial hstart) input 0
  refine ⟨final.contains nfa.accept, ?_, .start (.states start) :: events, ?_⟩
  · simp only [Automaton.accepts, Nfa.accepts, hstart, hfinal, bind, Except.bind]
    rfl
  · simp only [Automaton.trace, Nfa.trace, hstart, htrace, bind, Except.bind]
    rfl

end Nfa

/-! ### Deterministic automata -/

namespace Dfa

variable {dfa : Dfa} {q target : StateId} {symbol : Char} {row : List StateId}

/-- The edges of a state are its moves. -/
theorem mem_zip_iff_next (hrow : dfa.table[q]? = some row) :
    (symbol, target) ∈ dfa.alphabet.zip row ↔ dfa.next q symbol = .ok (some target) := by
  rw [List.mem_iff_getElem?]
  constructor
  · rintro ⟨i, hi⟩
    obtain ⟨hsymbol, htarget⟩ := List.getElem?_zip_eq_some.mp hi
    exact next_of_cell hsymbol hrow htarget
  · intro h
    obtain ⟨other, i, hother, hsymbol, htarget⟩ := exists_cell_of_next h
    rw [hrow] at hother
    cases hother
    exact ⟨i, List.getElem?_zip_eq_some.mpr ⟨hsymbol, htarget⟩⟩

/-- Every symbol of the alphabet leads from a state somewhere. -/
theorem exists_target_of_mem (hq : q < dfa.size) (hsymbol : symbol ∈ dfa.alphabet) :
    ∃ target, dfa.next q symbol = .ok (some target) := by
  obtain ⟨i, hi⟩ := List.mem_iff_getElem?.mp hsymbol
  have hlength : i < dfa.table[q].length := by
    rw [dfa.row_length _ (Array.getElem_mem hq)]
    exact (List.getElem?_eq_some_iff.mp hi).1
  exact ⟨_, next_of_cell hi (Array.getElem?_eq_getElem hq) (List.getElem?_eq_getElem hlength)⟩

/-- In a closed automaton it leads to a state. -/
theorem exists_next_of_mem (h : dfa.graph.Closed) (hq : q < dfa.size)
    (hsymbol : symbol ∈ dfa.alphabet) :
    ∃ target < dfa.size, dfa.next q symbol = .ok (some target) := by
  obtain ⟨target, hnext⟩ := exists_target_of_mem hq hsymbol
  obtain ⟨row, i, hrow, -⟩ := exists_cell_of_next hnext
  refine ⟨target, ?_, hnext⟩
  apply h.target_lt q _ (graph_edges_iff.mpr ⟨row, hrow, rfl⟩)
  have hedge := List.mem_map_of_mem (f := fun edge => edge.2) ((mem_zip_iff_next hrow).mpr hnext)
  exact List.mem_append_left _ hedge

/-- A move out of a state of a closed automaton ends at a state, or the run ends there. -/
theorem exists_next (h : dfa.graph.Closed) (hq : q < dfa.size) (symbol : Char) :
    dfa.next q symbol = .ok none ∨
      ∃ target < dfa.size, dfa.next q symbol = .ok (some target) := by
  by_cases hsymbol : symbol ∈ dfa.alphabet
  · exact .inr (exists_next_of_mem h hq hsymbol)
  · exact .inl (next_of_not_mem hsymbol q)

/-- The events of a run from a position on, up to its verdict: a step for every symbol of the
alphabet, and the end at the first other symbol. -/
inductive TellsFrom (dfa : Dfa) : Nat → List Char → Bool → List Event → Prop where
  | finish (position : Nat) (accepted : Bool) : TellsFrom dfa position [] accepted []
  | step {position : Nat} {symbol : Char} {rest : List Char} {accepted : Bool} {events : List Event}
    (hsymbol : symbol ∈ dfa.alphabet) (q : StateId)
    (h : TellsFrom dfa (position + 1) rest accepted events) :
    TellsFrom dfa position (symbol :: rest) accepted (.step position symbol (.state q) :: events)
  | stop (position : Nat) {symbol : Char} (rest : List Char) (hsymbol : symbol ∉ dfa.alphabet) :
    TellsFrom dfa position (symbol :: rest) false [.stuck position symbol]

theorem exists_traceFrom (h : dfa.graph.Closed) (hq : q < dfa.size) (input : List Char)
    (position : Nat) :
    ∃ accepted events, dfa.acceptsFrom q input = .ok accepted ∧
      dfa.traceFrom q position input = .ok (events ++ [.finish (.ofBool accepted)]) ∧
      dfa.TellsFrom position input accepted events := by
  induction input generalizing q position with
  | nil => exact ⟨dfa.isAccepting q, [], rfl, rfl, .finish position _⟩
  | cons symbol input ih =>
    by_cases hsymbol : symbol ∈ dfa.alphabet
    · obtain ⟨target, htarget, hnext⟩ := exists_next_of_mem h hq hsymbol
      obtain ⟨accepted, events, haccepts, htrace, htells⟩ := ih htarget (position + 1)
      refine ⟨accepted, .step position symbol (.state target) :: events, ?_, ?_,
        .step hsymbol target htells⟩
      · simp only [acceptsFrom, hnext, haccepts, bind, Except.bind]
      · simp only [traceFrom, hnext, htrace, bind, Except.bind]
        rfl
    · have hnext := next_of_not_mem hsymbol q
      refine ⟨false, [.stuck position symbol], ?_, ?_, .stop position input hsymbol⟩
      · simp only [acceptsFrom, hnext, bind, Except.bind]
        rfl
      · simp only [traceFrom, hnext, bind, Except.bind]
        rfl

theorem exists_gives (h : dfa.graph.Closed) (input : List Char) :
    ∃ accepted, Automaton.Gives (.dfa dfa) input accepted := by
  obtain ⟨accepted, events, haccepts, htrace, -⟩ := exists_traceFrom h dfa.start_lt input 0
  refine ⟨accepted, haccepts, .start (.state dfa.start) :: events, ?_⟩
  simp only [Automaton.trace, Dfa.trace, htrace, bind, Except.bind]
  rfl

end Dfa

/-! ### Either kind -/

namespace Automaton

theorem exists_gives (h : automaton.graph.Closed) (input : List Char) :
    ∃ accepted, automaton.Gives input accepted := by
  cases automaton with
  | nfa nfa => exact nfa.exists_gives input
  | dfa dfa => exact Dfa.exists_gives h input

/-- A suite has a row for each input, in order, with the verdict of a run. -/
theorem exists_runSuite (h : automaton.graph.Closed) (inputs : List String) :
    ∃ cases, automaton.runSuite inputs = .ok cases ∧ cases.map Case.input = inputs ∧
      ∀ c ∈ cases, ∃ accepted, automaton.Gives c.input.toList accepted ∧
        c.verdict = .ofBool accepted := by
  induction inputs with
  | nil => exact ⟨[], rfl, rfl, nofun⟩
  | cons input inputs ih =>
    obtain ⟨accepted, hgives⟩ := exists_gives h input.toList
    obtain ⟨cases, hcases, hinputs, hverdicts⟩ := ih
    refine ⟨⟨input, .ofBool accepted⟩ :: cases, ?_, ?_, ?_⟩
    · rw [runSuite, List.mapM_cons, hgives.accepts_eq]
      exact bind_eq_ok_iff.mpr ⟨_, rfl, bind_eq_ok_iff.mpr ⟨cases, hcases, rfl⟩⟩
    · rw [List.map_cons, hinputs]
    · exact List.forall_mem_cons.mpr ⟨⟨accepted, hgives, rfl⟩, hverdicts⟩

end Automaton

end PatternAutomata
