import PatternAutomata.Proofs.Nfa.Edges
import PatternAutomata.Proofs.Nfa.Runs
import PatternAutomata.Run.Trace

/-!
# Records of runs and paths

The record of a run shows the states that are active after every symbol.  These are the states at
the end of the paths from the start that read the symbols so far.  A run does not end when no state
is active: from there on its record says that it is stuck, once for every symbol that is left.
-/

namespace PatternAutomata.Nfa

variable {nfa : Nfa} {set next : StateSet} {active : Nat → StateSet} {position : Nat}
  {symbol : Char} {input : List Char}

/-! ### The set after every symbol -/

theorem activeAfter_concat :
    nfa.activeAfter (input ++ [symbol]) =
      nfa.activeAfter input >>= fun set => nfa.advance set symbol := by
  simp [activeAfter, List.foldlM_append]

theorem advance_of_activeAfter (hset : nfa.activeAfter input = .ok set)
    (hnext : nfa.activeAfter (input ++ [symbol]) = .ok next) :
    nfa.advance set symbol = .ok next := by
  rw [activeAfter_concat, hset] at hnext
  exact hnext

/-- The sets that a run keeps, by the number of symbols that it has read. -/
theorem exists_activeAfter_take (nfa : Nfa) (input : List Char) :
    ∃ active : Nat → StateSet, ∀ k, nfa.activeAfter (input.take k) = .ok (active k) ∧
      ∀ q, q ∈ active k ↔ Path (links nfa.nodes) nfa.start (input.take k) q := by
  have hall : ∀ k, ∃ set, nfa.activeAfter (input.take k) = .ok set ∧
      ∀ q, q ∈ set ↔ Path (links nfa.nodes) nfa.start (input.take k) q := by
    intro k
    exact nfa.activeAfter_yields (input.take k)
  choose active hactive using hall
  exact ⟨active, hactive⟩

/-! ### The record -/

/-- What a run records from a position on, if the states `active k` are active after `k` symbols. -/
def reportFrom (nfa : Nfa) (active : Nat → StateSet) (position : Nat) : List Char → List Event
  | [] => [.finish (.ofBool ((active position).contains nfa.accept))]
  | symbol :: rest =>
    eventAt position symbol (active (position + 1)) :: reportFrom nfa active (position + 1) rest

theorem traceFrom_eq_report
    (h : ∀ k (hk : k < input.length),
      nfa.advance (active (position + k)) input[k] = .ok (active (position + k + 1))) :
    nfa.traceFrom (active position) position input = .ok (nfa.reportFrom active position input) := by
  induction input generalizing position with
  | nil => rfl
  | cons symbol rest ih =>
    have hfirst : nfa.advance (active position) symbol = .ok (active (position + 1)) :=
      h 0 (Nat.succ_pos _)
    have hrest : nfa.traceFrom (active (position + 1)) (position + 1) rest =
        .ok (nfa.reportFrom active (position + 1) rest) := by
      apply ih
      intro k hk
      have hshift : position + 1 + k = position + (k + 1) := by omega
      rw [hshift]
      exact h (k + 1) (Nat.succ_lt_succ hk)
    simp only [traceFrom, hfirst, hrest, reportFrom, bind, Except.bind]
    rfl

theorem trace_eq_report (h : ∀ k, nfa.activeAfter (input.take k) = .ok (active k)) :
    nfa.trace input = .ok (.start (.states (active 0)) :: nfa.reportFrom active 0 input) := by
  have hinitial : nfa.initial = .ok (active 0) := by
    rw [← h 0, List.take_zero]
    exact (bind_pure nfa.initial).symm
  have htrace : nfa.traceFrom (active 0) 0 input = .ok (nfa.reportFrom active 0 input) := by
    apply traceFrom_eq_report
    intro k hk
    rw [Nat.zero_add]
    apply advance_of_activeAfter (h k)
    rw [← List.take_succ_eq_append_getElem hk]
    exact h (k + 1)
  simp only [trace, hinitial, htrace, bind, Except.bind]
  rfl

/-- **Records and paths.**  An ε-automaton accepts the words along the paths from its start to its
accepting state, whatever its edges are.  What its run records as active after some symbols are the
states at the end of the paths from the start that read these symbols, up to the end of the input. -/
theorem Sealed.trace_records_paths (h : nfa.Sealed) (input : List Char) :
    Decides (nfa.accepts input) (Path nfa.Leads nfa.start input nfa.accept) ∧
      ∃ active : Nat → StateSet,
        nfa.trace input = .ok (.start (.states (active 0)) :: nfa.reportFrom active 0 input) ∧
          ∀ k ≤ input.length, ∀ q,
            q ∈ active k ↔ Path nfa.Leads nfa.start (input.take k) q := by
  rw [h.leads_eq]
  obtain ⟨active, hactive⟩ := nfa.exists_activeAfter_take input
  refine ⟨nfa.accepts_decides input, active, ?_, ?_⟩
  · exact trace_eq_report fun k => (hactive k).1
  · intro k _ q
    exact (hactive k).2 q

/-- Two states on a cycle of edges that read nothing, a third one that no edge reaches, and a run
that is stuck before its last symbol. -/
theorem Sealed.trace_records_paths_of_cycle :
    ∃ nfa : Nfa, nfa.Sealed ∧ nfa.start = nfa.accept ∧ nfa.size = 3 ∧
      nfa.edges = [⟨0, .epsilon, 1⟩, ⟨1, .symbol 'a', 1⟩, ⟨1, .epsilon, 0⟩] ∧
      Decides (nfa.accepts ['a', 'b', 'a']) (Path nfa.Leads nfa.start ['a', 'b', 'a'] nfa.accept) ∧
      ∃ active : Nat → StateSet,
        nfa.trace ['a', 'b', 'a'] =
          .ok (.start (.states (active 0)) :: nfa.reportFrom active 0 ['a', 'b', 'a']) ∧
          ∀ k ≤ 3, ∀ q, q ∈ active k ↔ Path nfa.Leads nfa.start (['a', 'b', 'a'].take k) q := by
  have hbuilt : ∃ nfa : Nfa, nfa.Sealed ∧ nfa.start = nfa.accept ∧ nfa.size = 3 ∧
      nfa.edges = [⟨0, .epsilon, 1⟩, ⟨1, .symbol 'a', 1⟩, ⟨1, .epsilon, 0⟩] := by
    have hstates : Arena.Built Arena.empty.addState.2.addState.2.addState.2 :=
      .addState (.addState (.addState .empty))
    have hmove := @Arena.Built.addMove _ _ 1 1 'a' hstates rfl
    have hforth := @Arena.Built.addEpsilon _ _ 0 1 hmove rfl
    have hback := @Arena.Built.addEpsilon _ _ 1 0 hforth rfl
    exact ⟨_, ⟨_, 0, 0, hback, rfl⟩, rfl, rfl, rfl⟩
  obtain ⟨nfa, hsealed, hends, hsize, hedges⟩ := hbuilt
  exact ⟨nfa, hsealed, hends, hsize, hedges, hsealed.trace_records_paths ['a', 'b', 'a']⟩

end PatternAutomata.Nfa
