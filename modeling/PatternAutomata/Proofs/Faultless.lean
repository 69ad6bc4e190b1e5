import PatternAutomata.Proofs.Listing.Counting
import PatternAutomata.Proofs.Listing.Labels
import PatternAutomata.Proofs.Run.Verdicts
import PatternAutomata.Proofs.Snapshot.Rebuilding

/-!
# No text leads to a fault

A fault is a mistake of the caller, and the callers here make none.  What is built from a postfix is
always a closed automaton, whether the postfix is that of a pattern or was written by hand in a
snapshot; the listing that the snapshot records plays no part.  In a closed automaton every state
that an operation names is there, and every state that a listing mentions has a label.
-/

namespace PatternAutomata

variable {text : String} {options : CompileOptions} {tokens : Postfix} {automaton : Automaton}
  {compiled : Compiled} {snapshot : Snapshot}

theorem exists_implements_of_assemble (h : assemble tokens options = .ok automaton) :
    ∃ nfa, Nfa.ofPostfix tokens = .ok nfa ∧ Implements nfa options automaton := by
  obtain ⟨nfa, hnfa, -⟩ := bind_eq_ok_iff.mp h
  obtain ⟨other, himplements, hassemble⟩ := exists_implements nfa options
  have hother := hassemble tokens hnfa
  rw [h] at hother
  cases hother
  exact ⟨nfa, hnfa, himplements⟩

/-- A listing without a loose end: all that it mentions are its own labels, and the pass that counts
its edges stays inside. -/
structure Listing.Whole (listing : Listing) : Prop where
  edges_lt : ∀ edge ∈ listing.edges, edge.source < listing.size ∧ edge.target < listing.size
  accepts_lt : ∀ label ∈ listing.accepts, label < listing.size
  tally_eq : listing.tally = .ok listing.stats

theorem Graph.Enumerates.whole {graph : Graph} {states : List StateId}
    (h : graph.Enumerates states) : (graph.listingOf states).Whole := by
  obtain ⟨hedges, haccepts⟩ := h.labels_lt
  refine ⟨hedges, haccepts, Listing.tally_eq fun edge hedge => ?_⟩
  exact (hedges edge hedge).1

namespace Compiled

/-- All that can be asked of a compiled pattern has an answer: plain and traced runs, suites, the
listing with its counts, and the snapshot.  Writing an event or a listing looks nothing up, so it
cannot fail. -/
structure Answers (compiled : Compiled) : Prop where
  runs : ∀ input, ∃ accepted, compiled.automaton.Gives input accepted
  suites : ∀ inputs, ∃ cases, compiled.automaton.runSuite inputs = .ok cases
  listing : ∃ listing, compiled.automaton.list = .ok listing ∧ listing.Whole
  snapshot : ∃ snapshot, compiled.snapshot = .ok snapshot

theorem answers_of_closed (h : compiled.automaton.graph.Closed) : compiled.Answers := by
  obtain ⟨states, henumerates, hlist⟩ := h.exists_enumeration
  have hlisting : compiled.automaton.list = .ok _ := hlist
  refine ⟨Automaton.exists_gives h, fun inputs => ?_, ⟨_, hlisting, henumerates.whole⟩, ?_⟩
  · obtain ⟨cases, hcases, -⟩ := Automaton.exists_runSuite h inputs
    exact ⟨cases, hcases⟩
  · simp only [Compiled.snapshot, hlisting, bind, Except.bind]
    exact ⟨_, rfl⟩

theorem closed_of_ofSnapshot (h : ofSnapshot snapshot = .ok compiled) :
    compiled.automaton.graph.Closed := by
  obtain ⟨tokens, -, hrest⟩ := bind_eq_ok_iff.mp h
  obtain ⟨automaton, hassemble, hcompiled⟩ := bind_eq_ok_iff.mp hrest
  cases hcompiled
  obtain ⟨nfa, -, himplements⟩ := exists_implements_of_assemble hassemble
  exact himplements.graph_closed

end Compiled

/-- The result of compiling is no fault, and no fault comes of what was compiled. -/
inductive Faultless : Except CompileError Compiled → Prop where
  | rejected (problems : List Diagnostic) : Faultless (.error (.rejected problems))
  | unread (cause : SnapshotError) : Faultless (.error (.snapshot cause))
  | construction {cause : BuildError} (h : ∀ misuse, cause ≠ .fault misuse) :
    Faultless (.error (.construction cause))
  | compiled {compiled : Compiled} (h : compiled.Answers) : Faultless (.ok compiled)

theorem faultless_compile (text : String) (options : CompileOptions) :
    Faultless (compile text options) := by
  by_cases hcheck : check text.toList = []
  · obtain ⟨e, htree⟩ := (derives_of_check_eq_nil hcheck).exists_parses
    obtain ⟨nfa, compiled, -, hcompiled, himplements⟩ := exists_compile hcheck htree options
    rw [hcompiled]
    exact .compiled (Compiled.answers_of_closed himplements.graph_closed)
  · rw [compile_of_check_ne_nil hcheck]
    exact .rejected _

theorem faultless_parse (text : List Char) : Faultless (Compiled.parse text) := by
  unfold Compiled.parse
  cases hread : Snapshot.parse text with
  | error cause => exact .unread cause
  | ok snapshot =>
    show Faultless ((Compiled.ofSnapshot snapshot).mapError .construction)
    cases hbuilt : Compiled.ofSnapshot snapshot with
    | error cause => exact .construction (Compiled.defect_of_ofSnapshot hbuilt).ne_fault
    | ok compiled =>
      exact .compiled (Compiled.answers_of_closed (Compiled.closed_of_ofSnapshot hbuilt))

/-- **No fault.**  Whatever text is compiled, for either kind and either closure, and whatever JSON
is read back, there is no fault in the construction.  If a compiled pattern comes of it, then every
run of it, plain or traced, ends with a verdict, and its suites, its listing with all counts, and its
snapshot are there. -/
theorem compiling_faultless :
    (∀ text options, Faultless (compile text options)) ∧
      ∀ text, Faultless (Compiled.parse text) :=
  ⟨faultless_compile, faultless_parse⟩

end PatternAutomata
