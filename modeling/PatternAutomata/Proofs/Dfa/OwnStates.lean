import PatternAutomata.Proofs.Dfa.Histories
import PatternAutomata.Proofs.Faultless
import PatternAutomata.Proofs.Listing.Language
import PatternAutomata.Proofs.Listing.Preorder

/-!
# Automata that name states of their own

Closing a table asks that every cell is written, but neither a written state nor a marked one is
looked at.  So a deterministic automaton names states of its own only if the calls that built its
table did: each state that was last written into a cell, and each marked one, must have been added
in the end.  Then every move, every run and the listing has an answer.  Otherwise a run can leave
the states, and the next symbol is a fault: the runs have answers exactly if the start reaches no
state but those of the automaton.
-/

namespace PatternAutomata.Dfa

variable {dfa : Dfa} {p q : StateId} {symbol : Char} {word rest : List Char}

/-- Cells lead to states of the automaton, and only these accept. -/
structure NamesOwnStates (dfa : Dfa) : Prop where
  cells : ∀ row ∈ dfa.table, ∀ target ∈ row, target < dfa.size
  accepting : ∀ q, dfa.isAccepting q = true → q < dfa.size

/-- All that can be asked of an automaton has an answer: a move out of a state, a run, plain or
traced, and the listing. -/
structure Answers (dfa : Dfa) : Prop where
  moves : ∀ p < dfa.size, ∀ symbol, dfa.next p symbol = .ok none ∨
    ∃ q < dfa.size, dfa.next p symbol = .ok (some q)
  runs : ∀ input, ∃ accepted, (Automaton.dfa dfa).Gives input accepted
  listing : ∃ listing, (Automaton.dfa dfa).list = .ok listing ∧ listing.Whole

theorem NamesOwnStates.answers (h : dfa.NamesOwnStates) : dfa.Answers := by
  have hclosed : dfa.graph.Closed := graph_closed h.cells
  obtain ⟨states, henumerates, hlist⟩ := hclosed.exists_enumeration
  constructor
  · intro p hp symbol
    exact exists_next hclosed hp symbol
  · intro input
    exact @Automaton.exists_gives (.dfa dfa) hclosed input
  · exact ⟨_, hlist, henumerates.whole⟩

/-! ### Runs that leave the states -/

/-- Outside the states there are no moves. -/
theorem next_of_le (hp : dfa.size ≤ p) (hsymbol : symbol ∈ dfa.alphabet) :
    dfa.next p symbol = .error (.dfaState p dfa.size) := by
  obtain ⟨i, hi⟩ := List.mem_iff_getElem?.mp hsymbol
  simp only [next, symbolIndex?_eq_some_iff.mpr hi, row_of_le hp, bind, Except.bind]

theorem acceptsFrom_of_path (h : Path dfa.graph.links p word q) (rest : List Char) :
    dfa.acceptsFrom p (word ++ rest) = dfa.acceptsFrom q rest := by
  induction h with
  | nil => rfl
  | @step p r q label word hedge _ ih =>
    cases label with
    | epsilon => exact absurd hedge not_graph_links_epsilon
    | symbol c =>
      rw [← ih, List.append_assoc, Label.word, List.singleton_append, acceptsFrom,
        graph_links_symbol_iff.mp hedge]
      rfl

/-- A run that left the states faults on the next symbol. -/
theorem exists_fault_of_reaches (hreaches : dfa.graph.Reaches q) (hq : dfa.size ≤ q) :
    ∃ input, dfa.accepts input = .error (.dfaState q dfa.size) := by
  obtain ⟨word, hpath⟩ := hreaches
  have hne : dfa.start ≠ q := fun heq => Nat.not_le.mpr dfa.start_lt (heq ▸ hq)
  obtain ⟨label, r, v, -, hedge, -⟩ := hpath.exists_first hne
  cases label with
  | epsilon => exact absurd hedge not_graph_links_epsilon
  | symbol c =>
    have hc : c ∈ dfa.alphabet := by
      by_contra hc
      have hnext := graph_links_symbol_iff.mp hedge
      rw [next_of_not_mem hc] at hnext
      cases hnext
    refine ⟨word ++ [c], ?_⟩
    rw [accepts, show dfa.start = dfa.graph.start from rfl, acceptsFrom_of_path hpath, acceptsFrom,
      next_of_le hq hc]
    rfl

/-- Runs have answers exactly if the start reaches no state but those of the automaton. -/
theorem accepts_answers_iff :
    (∀ input, ∃ accepted, dfa.accepts input = .ok accepted) ↔
      ∀ q, dfa.graph.Reaches q → q < dfa.size := by
  constructor
  · intro hruns q hreaches
    by_contra hq
    obtain ⟨input, hfault⟩ := exists_fault_of_reaches hreaches (Nat.le_of_not_lt hq)
    obtain ⟨accepted, haccepts⟩ := hruns input
    rw [hfault] at haccepts
    cases haccepts
  · intro hstates
    have hruns : ∀ (input : List Char) (q : StateId), dfa.graph.Reaches q →
        ∃ accepted, dfa.acceptsFrom q input = .ok accepted := by
      intro input
      induction input with
      | nil =>
        intro q _
        exact ⟨_, rfl⟩
      | cons symbol input ih =>
        intro q hreaches
        by_cases hsymbol : symbol ∈ dfa.alphabet
        · obtain ⟨target, hnext⟩ := exists_target_of_mem (hstates q hreaches) hsymbol
          have htarget := hreaches.of_link (graph_links_symbol_iff.mpr hnext)
          obtain ⟨accepted, haccepts⟩ := ih target htarget
          refine ⟨accepted, ?_⟩
          simp only [acceptsFrom, hnext, haccepts, bind, Except.bind]
        · refine ⟨false, ?_⟩
          simp only [acceptsFrom, next_of_not_mem hsymbol, bind, Except.bind]
          rfl
    exact fun input => hruns input dfa.start (.start dfa.graph)

/-! ### What the calls name -/

namespace Table

open History

variable {history : History} {table : Table} {symbols : List Char} {calls : List Call}
  {start : StateId}

/-- The states that were last written into a cell, and those that were marked, were all added. -/
structure History.NamesAllocated (history : History) : Prop where
  written : ∀ p i q, history.last? p i = some q → q < history.allocated
  marked : ∀ q ∈ history.marked, q < history.allocated

/-- It is enough that every state that was ever written was added. -/
theorem History.namesAllocated_of_writes
    (hwritten : ∀ write ∈ history.writes, write.2 < history.allocated)
    (hmarked : ∀ q ∈ history.marked, q < history.allocated) : history.NamesAllocated := by
  refine ⟨fun p i q hlast => ?_, hmarked⟩
  obtain ⟨before, after, hwrites, -⟩ := List.lookup_eq_some_iff.mp hlast
  apply hwritten ((p, i), q)
  rw [hwrites]
  exact List.mem_append_right before (List.mem_cons_self ..)

theorem History.Describes.namesOwnStates_iff (h : history.Describes table)
    (hdfa : table.Closes start dfa) : dfa.NamesOwnStates ↔ history.NamesAllocated := by
  have hsize : dfa.size = history.allocated := hdfa.size_eq.trans h.size_eq
  have haccepting : ∀ q, dfa.isAccepting q = true ↔ q ∈ history.marked := by
    intro q
    rw [isAccepting, StateSet.contains_iff, hdfa.accepting_eq]
    exact h.mem_accepting_iff q
  constructor
  · intro hnames
    constructor
    · intro p i q hlast
      obtain ⟨row, hrow, hcell⟩ := (hdfa.cell_iff p i q).mpr ((h.cell_iff p i q).mpr hlast)
      rw [← hsize]
      exact hnames.cells row (Array.mem_of_getElem? hrow) q (List.mem_of_getElem? hcell)
    · intro q hq
      rw [← hsize]
      exact hnames.accepting q ((haccepting q).mpr hq)
  · intro hnames
    constructor
    · intro row hrow target htarget
      obtain ⟨p, hp⟩ := Array.mem_iff_getElem?.mp hrow
      obtain ⟨i, hi⟩ := List.mem_iff_getElem?.mp htarget
      rw [hsize]
      exact hnames.written p i target ((h.cell_iff p i target).mp ((hdfa.cell_iff p i target).mp
        ⟨row, hp, hi⟩))
    · intro q hq
      rw [hsize]
      exact hnames.marked q ((haccepting q).mp hq)

/-- **States of its own.**  An automaton that comes of calls on a new table names states of its own
exactly if the calls do: what was last written into a cell, and what was marked, was added.  Then
all that can be asked of it has an answer.  In any case its runs have answers exactly if the start
reaches no other state. -/
theorem namesOwnStates_iff_of_calls (hcalls : (new symbols).performAll calls = .ok table)
    (hdfa : table.finish start = .ok dfa) :
    (dfa.NamesOwnStates ↔ (ofCalls (new symbols).alphabet.length calls).NamesAllocated) ∧
      (dfa.NamesOwnStates → dfa.Answers) ∧
      ((∀ input, ∃ accepted, dfa.accepts input = .ok accepted) ↔
        ∀ q, dfa.graph.Reaches q → q < dfa.size) := by
  have hallows := (describes_new symbols).allowsAll hcalls
  obtain ⟨other, hother, -, hdescribes⟩ := (describes_new symbols).afterAll hallows
  rw [hcalls] at hother
  cases hother
  exact ⟨hdescribes.namesOwnStates_iff (closes_of_finish hdfa).2, NamesOwnStates.answers,
    accepts_answers_iff⟩

/-- A cell is written before the state that it leads to is added. -/
theorem namesOwnStates_iff_of_calls_of_later :
    ∃ table dfa, (new ['a']).performAll
        [.addState (.singleton 0), .setTransition 0 0 1, .markAccepting 1,
          .addState (.singleton 1), .setTransition 1 0 0] = .ok table ∧
      table.finish 0 = .ok dfa ∧ dfa.NamesOwnStates ∧ dfa.Answers := by
  have hcalls : (new ['a']).performAll
      [.addState (.singleton 0), .setTransition 0 0 1, .markAccepting 1, .addState (.singleton 1),
        .setTransition 1 0 0] = .ok _ := rfl
  obtain ⟨hiff, hanswers, -⟩ := @namesOwnStates_iff_of_calls _ _ _ _ 0 hcalls rfl
  have hnames := hiff.mpr (namesAllocated_of_writes (by decide) (by decide))
  exact ⟨_, _, hcalls, rfl, hnames, hanswers hnames⟩

/-- A cell leads to a state that is never added, which accepts. -/
theorem not_namesOwnStates_of_dangling :
    ∃ table dfa, (new ['a']).performAll
        [.addState (.singleton 0), .setTransition 0 0 1, .markAccepting 1] = .ok table ∧
      table.finish 0 = .ok dfa ∧ dfa.size = 1 ∧ dfa.next 0 'a' = .ok (some 1) ∧
      dfa.isAccepting 1 = true ∧ ¬ dfa.NamesOwnStates ∧
      dfa.accepts ['a', 'a'] = .error (.dfaState 1 1) ∧
      (Automaton.dfa dfa).list = .error (.dfaState 1 1) := by
  refine ⟨_, _, rfl, rfl, rfl, rfl, rfl, fun hnames => ?_, rfl, rfl⟩
  exact absurd (hnames.accepting 1 rfl) (by decide)

end Table

end PatternAutomata.Dfa
