import PatternAutomata.Proofs.Dfa.Determinization

/-!
# Tables built call by call

A table is built by calls in any order.  What they come to can be told without the table: how many
states there are and which of them is the dead one, which states are marked, and which state was
last written into a cell.  This is the history of the calls.  It decides whether a call is accepted,
and it decides what closing the table gives: an error for a start state that was never added, else
one for the first cell that was never written, else an automaton that leads from a state, on a
symbol, to the state that was written last.
-/

namespace PatternAutomata.Dfa.Table

/-- A call on a table under construction. -/
inductive Call where
  | addState (subset : StateSet)
  | deadState
  | setTransition (source : StateId) (index : Nat) (target : StateId)
  | markAccepting (state : StateId)
deriving DecidableEq

def perform (table : Table) : Call → Except Fault Table
  | .addState subset => .ok (table.addState subset).2
  | .deadState => .ok table.deadState.2
  | .setTransition source index target => table.setTransition source index target
  | .markAccepting state => .ok (table.markAccepting state)

/-- Makes calls one after the other, up to the first one that faults. -/
def performAll (table : Table) (calls : List Call) : Except Fault Table :=
  calls.foldlM perform table

/-! ### Histories -/

/-- What calls have come to. -/
structure History where
  /-- The number of states; they are named in the order in which they were added. -/
  allocated : Nat := 0
  dead : Option StateId := none
  /-- Which state was written into which cell, the last write first. -/
  writes : List ((StateId × Nat) × StateId) := []
  marked : List StateId := []

namespace History

/-- The writes that lead a state to itself on every symbol. -/
def loops (width : Nat) (state : StateId) : List ((StateId × Nat) × StateId) :=
  (List.range width).map fun index => ((state, index), state)

/-- The history after one more call, on a table with `width` symbols.  The dead state is made on the
first call for it; later ones change nothing. -/
def after (width : Nat) (history : History) : Call → History
  | .addState _ => { history with allocated := history.allocated + 1 }
  | .deadState =>
    match history.dead with
    | some _ => history
    | none =>
      { history with
        allocated := history.allocated + 1
        dead := some history.allocated
        writes := loops width history.allocated ++ history.writes }
  | .setTransition source index target =>
    { history with writes := ((source, index), target) :: history.writes }
  | .markAccepting state => { history with marked := state :: history.marked }

/-- The history of calls on a new table with `width` symbols. -/
def ofCalls (width : Nat) (calls : List Call) : History :=
  calls.foldl (after width) {}

/-- The state that was last written into a cell. -/
def last? (history : History) (state : StateId) (index : Nat) : Option StateId :=
  history.writes.lookup (state, index)

/-- A call that writes a cell names one that is there. -/
def Allows (width : Nat) (history : History) : Call → Prop
  | .setTransition source index _ => source < history.allocated ∧ index < width
  | _ => True

/-- Every call that writes a cell names one that is there when its turn comes. -/
def AllowsAll (width : Nat) (history : History) : List Call → Prop
  | [] => True
  | call :: calls =>
    history.Allows width call ∧ (history.after width call).AllowsAll width calls

instance {width : Nat} {history : History} : DecidablePred (history.Allows width)
  | .addState _ | .deadState | .markAccepting _ => inferInstanceAs (Decidable True)
  | .setTransition .. => inferInstanceAs (Decidable (_ ∧ _))

instance decidableAllowsAll {width : Nat} :
    ∀ (history : History) (calls : List Call), Decidable (history.AllowsAll width calls)
  | _, [] => inferInstanceAs (Decidable True)
  | history, call :: calls =>
    have := @decidableAllowsAll width (history.after width call) calls
    inferInstanceAs (Decidable (_ ∧ _))

variable {history : History} {table next : Table} {call : Call} {calls : List Call}
  {width index : Nat} {p q state source target : StateId} {i : Nat}

theorem lookup_write (writes : List ((StateId × Nat) × StateId)) :
    List.lookup (p, i) (((source, index), target) :: writes) =
      if p = source ∧ i = index then some target else writes.lookup (p, i) := by
  rw [List.lookup_cons]
  by_cases hcell : p = source ∧ i = index
  · simp [hcell]
  · have hne : ((p, i) == (source, index)) = false := by
      rw [beq_eq_false_iff_ne]
      intro heq
      exact hcell (Prod.mk.inj heq)
    rw [hne, if_neg hcell]

theorem lookup_loops (width : Nat) (state : StateId) :
    (loops width state).lookup (p, i) = if p = state ∧ i < width then some state else none := by
  induction width with
  | zero => simp [loops]
  | succ width ih =>
    have hsplit : loops (width + 1) state = loops width state ++ [((state, width), state)] := by
      simp [loops, List.range_succ]
    rw [hsplit, List.lookup_append, ih, lookup_write, List.lookup_nil]
    by_cases hp : p = state
    · rcases Nat.lt_trichotomy i width with hi | hi | hi
      · simp [hp, hi, Nat.lt_succ_of_lt hi]
      · simp [hp, hi]
      · have h1 : ¬ i < width := by omega
        have h2 : ¬ i < width + 1 := by omega
        have h3 : ¬ i = width := by omega
        simp [hp, h1, h2, h3]
    · simp [hp]

/-! ### What a history says of a table -/

/-- The table has the states and the cells that the history tells of. -/
structure Describes (history : History) (table : Table) : Prop where
  size_eq : table.rows.size = history.allocated
  dead_eq : table.dead = history.dead
  mem_accepting_iff : ∀ q, q ∈ table.accepting ↔ q ∈ history.marked
  cell_iff : ∀ p i q, table.Cell p i q ↔ history.last? p i = some q

theorem describes_new (symbols : List Char) : Describes {} (new symbols) where
  size_eq := rfl
  dead_eq := rfl
  mem_accepting_iff q := iff_of_false (StateSet.not_mem_empty q) List.not_mem_nil
  cell_iff p i q := by
    constructor
    · rintro ⟨row, hrow, -⟩
      cases hrow
    · intro hlast
      cases hlast

theorem Describes.lt_of_last? (h : history.Describes table) (hlast : history.last? p i = some q) :
    p < history.allocated ∧ i < table.alphabet.length := by
  have hcell := (h.cell_iff p i q).mpr hlast
  refine ⟨?_, hcell.index_lt⟩
  rw [← h.size_eq, ← table.subsets_size]
  exact hcell.lt

/-- The first call for the dead state adds a row of loops. -/
theorem Describes.deadState (h : history.Describes table) (hdead : table.dead = none) :
    (history.after table.alphabet.length .deadState).Describes table.deadState.2 := by
  have hstate : table.ids.take.1 = table.rows.size := table.allocated_eq
  have hnew : history.dead = none := h.dead_eq ▸ hdead
  simp only [Table.deadState, hdead, after, hnew]
  refine ⟨?_, ?_, h.mem_accepting_iff, fun p i q => ?_⟩
  · exact (Array.size_push _).trans (congrArg (· + 1) h.size_eq)
  · exact congrArg some (hstate.trans h.size_eq)
  · rw [cell_push rfl, hstate, h.size_eq, h.cell_iff]
    have hfresh : history.last? history.allocated i ≠ some q := fun hlast =>
      Nat.lt_irrefl _ (h.lt_of_last? hlast).1
    simp only [last?] at hfresh ⊢
    rw [List.lookup_append, lookup_loops]
    by_cases hp : p = history.allocated
    · subst hp
      by_cases hi : i < table.alphabet.length
      · simp [hi, hfresh]
      · simp [hi]
    · simp [hp]

theorem Describes.after (h : history.Describes table)
    (hallows : history.Allows table.alphabet.length call) :
    ∃ next, table.perform call = .ok next ∧ next.alphabet = table.alphabet ∧
      (history.after table.alphabet.length call).Describes next := by
  cases call with
  | addState subset =>
    refine ⟨_, rfl, rfl, ?_, h.dead_eq, h.mem_accepting_iff, fun p i q => ?_⟩
    · exact (Array.size_push _).trans (congrArg (· + 1) h.size_eq)
    · rw [cell_push rfl]
      simp only [reduceCtorEq, and_false, or_false]
      exact h.cell_iff p i q
  | deadState =>
    cases hdead : table.dead with
    | none => exact ⟨_, rfl, by simp only [Table.deadState, hdead]; rfl, h.deadState hdead⟩
    | some dead =>
      have hold : history.dead = some dead := h.dead_eq ▸ hdead
      refine ⟨table, ?_, rfl, ?_⟩
      · simp only [perform, Table.deadState, hdead]
      · simpa only [History.after, hold] using h
  | setTransition source index target =>
    obtain ⟨hsource, hindex⟩ := hallows
    rw [← h.size_eq, ← table.subsets_size] at hsource
    obtain ⟨next, hnext, hwrites⟩ := setTransition_writes hsource hindex target
    refine ⟨next, hnext, hwrites.alphabet_eq, ?_, ?_, fun q => ?_, fun p i q => ?_⟩
    · rw [← next.subsets_size, hwrites.subsets_eq, table.subsets_size]
      exact h.size_eq
    · exact hwrites.dead_eq.trans h.dead_eq
    · rw [hwrites.accepting_eq]
      exact h.mem_accepting_iff q
    · rw [hwrites.cell_iff, last?, History.after, lookup_write]
      split
      · rw [Option.some.injEq, eq_comm]
      · exact h.cell_iff p i q
  | markAccepting state =>
    refine ⟨_, rfl, rfl, h.size_eq, h.dead_eq, fun q => ?_, h.cell_iff⟩
    rw [Table.markAccepting, StateSet.mem_insert, History.after, List.mem_cons]
    exact or_congr_right (h.mem_accepting_iff q)

/-- A call that a table takes writes no cell that is not there. -/
theorem Describes.allows (h : history.Describes table) (hnext : table.perform call = .ok next) :
    history.Allows table.alphabet.length call := by
  cases call with
  | addState | deadState | markAccepting => trivial
  | setTransition source index target =>
    simp only [perform, setTransition] at hnext
    split at hnext
    · next hsource =>
      split at hnext
      · next hindex =>
        rw [table.row_length _ (Array.getElem_mem hsource)] at hindex
        exact ⟨h.size_eq ▸ hsource, hindex⟩
      · cases hnext
    · cases hnext

/-- Calls that write cells which are there are all taken, and their history describes the table. -/
theorem Describes.afterAll (h : history.Describes table)
    (hallows : history.AllowsAll table.alphabet.length calls) :
    ∃ next, table.performAll calls = .ok next ∧ next.alphabet = table.alphabet ∧
      (calls.foldl (History.after table.alphabet.length) history).Describes next := by
  induction calls generalizing history table with
  | nil => exact ⟨table, rfl, rfl, h⟩
  | cons call calls ih =>
    obtain ⟨hcall, hcalls⟩ := hallows
    obtain ⟨middle, hmiddle, halphabet, hdescribes⟩ := h.after hcall
    rw [← halphabet] at hcalls hdescribes
    obtain ⟨next, hnext, hsame, hfinal⟩ := ih hdescribes hcalls
    refine ⟨next, ?_, hsame.trans halphabet, ?_⟩
    · rw [performAll, List.foldlM_cons, hmiddle]
      exact hnext
    · rw [List.foldl_cons, ← halphabet]
      exact hfinal

theorem Describes.allowsAll (h : history.Describes table) (hnext : table.performAll calls = .ok next) :
    history.AllowsAll table.alphabet.length calls := by
  induction calls generalizing history table with
  | nil => trivial
  | cons call calls ih =>
    rw [performAll, List.foldlM_cons] at hnext
    obtain ⟨middle, hmiddle, hrest⟩ := bind_eq_ok_iff.mp hnext
    have hcall := h.allows hmiddle
    obtain ⟨other, hother, halphabet, hdescribes⟩ := h.after hcall
    rw [hmiddle] at hother
    cases hother
    rw [← halphabet] at hdescribes
    exact ⟨hcall, halphabet ▸ ih hdescribes hrest⟩

/-! ### Closing -/

/-- The first cell, state by state and symbol by symbol, that was never written. -/
def FirstUnwritten (history : History) (width : Nat) : StateId → Nat → Prop :=
  FirstGap (fun p i => ∃ q, history.last? p i = some q) history.allocated width

/-- Every cell was written. -/
def Complete (history : History) (width : Nat) : Prop :=
  ∀ p < history.allocated, ∀ i < width, ∃ q, history.last? p i = some q

instance (history : History) (width : Nat) : Decidable (history.Complete width) :=
  decidable_of_iff (∀ p < history.allocated, ∀ i < width, (history.last? p i).isSome = true)
    (by simp only [Complete, Option.isSome_iff_exists])

/-- The automaton reads what was last written: on a symbol of the alphabet, the state that was last
written into its cell, and on no other symbol anything. -/
structure Makes (history : History) (symbols alphabet : List Char) (start : StateId) (dfa : Dfa) :
    Prop where
  alphabet_eq : dfa.alphabet = alphabet
  size_eq : dfa.size = history.allocated
  start_eq : dfa.start = start
  dead_eq : dfa.dead = history.dead
  accepting_iff : ∀ p, dfa.isAccepting p = true ↔ p ∈ history.marked
  next_eq : ∀ p < history.allocated, ∀ (i : Nat) (symbol : Char), alphabet[i]? = some symbol →
    dfa.next p symbol = .ok (history.last? p i)
  next_none_iff : ∀ p symbol, dfa.next p symbol = .ok none ↔ symbol ∉ symbols

/-- What closing a table gives, by the history of the calls on it. -/
structure Closing (history : History) (symbols alphabet : List Char) (start : StateId)
    (result : Except TableError Dfa) : Prop where
  unknownStart_iff : ∀ state, result = .error (.unknownStart state) ↔
    state = start ∧ history.allocated ≤ start
  missing_iff : ∀ state symbol, result = .error (.missingTransition state symbol) ↔
    start < history.allocated ∧
      ∃ i, alphabet[i]? = some symbol ∧ history.FirstUnwritten alphabet.length state i
  closed_iff : (∃ dfa, result = .ok dfa) ↔
    start < history.allocated ∧ history.Complete alphabet.length
  closed : ∀ dfa, result = .ok dfa → history.Makes symbols alphabet start dfa

/-- The symbols of a list, ascending and each once. -/
structure IsAlphabetOf (alphabet symbols : List Char) : Prop where
  ascending : Ascending Char.toNat alphabet
  mem_iff : ∀ symbol, symbol ∈ alphabet ↔ symbol ∈ symbols

theorem IsAlphabetOf.alphabet_new {alphabet symbols : List Char} (h : IsAlphabetOf alphabet symbols) :
    (new symbols).alphabet = alphabet := by
  refine (ascending_ascendingOf _).eq_of_mem_iff h.ascending fun symbol => ?_
  rw [h.mem_iff]
  exact mem_ascendingOf fun c d heq => Char.toNat_inj.mp heq

theorem Describes.exists_cell_iff (h : history.Describes table) :
    (∃ q, table.Cell p i q) ↔ ∃ q, history.last? p i = some q :=
  exists_congr fun q => h.cell_iff p i q

theorem Describes.filled_iff (h : history.Describes table) :
    table.Filled ↔ history.Complete table.alphabet.length := by
  unfold Filled Complete
  rw [table.subsets_size, h.size_eq]
  simp only [h.exists_cell_iff]

theorem Describes.firstGap_iff (h : history.Describes table) :
    FirstGap (fun p i => ∃ q, table.Cell p i q) table.rows.size table.alphabet.length p i ↔
      history.FirstUnwritten table.alphabet.length p i := by
  rw [FirstUnwritten, h.size_eq]
  simp only [h.exists_cell_iff]

/-- The automaton that closes a table reads what the history tells of. -/
theorem Describes.makes {symbols : List Char} {start : StateId} {dfa : Dfa}
    (h : history.Describes table) (hsymbols : ∀ symbol, symbol ∈ table.alphabet ↔ symbol ∈ symbols)
    (hfilled : table.Filled) (hdfa : table.Closes start dfa) :
    history.Makes symbols table.alphabet start dfa := by
  have hnext : ∀ p < history.allocated, ∀ (i : Nat) (symbol : Char),
      table.alphabet[i]? = some symbol →
        ∃ q, history.last? p i = some q ∧ dfa.next p symbol = .ok (some q) := by
    intro p hp i symbol hi
    obtain ⟨q, hlast⟩ := h.filled_iff.mp hfilled p hp i (List.getElem?_eq_some_iff.mp hi).1
    obtain ⟨row, hrow, hcell⟩ := (hdfa.cell_iff p i q).mpr ((h.cell_iff p i q).mpr hlast)
    exact ⟨q, hlast, next_of_cell (hdfa.alphabet_eq ▸ hi) hrow hcell⟩
  refine ⟨hdfa.alphabet_eq, hdfa.size_eq.trans h.size_eq, hdfa.start_eq,
    hdfa.dead_eq.trans h.dead_eq, fun p => ?_,
    fun p hp i symbol hi => ?_, fun p symbol => ?_⟩
  · rw [isAccepting, StateSet.contains_iff, hdfa.accepting_eq]
    exact h.mem_accepting_iff p
  · obtain ⟨q, hlast, heq⟩ := hnext p hp i symbol hi
    rw [heq, hlast]
  · rw [next_eq_none_iff, hdfa.alphabet_eq, hsymbols]

theorem Describes.closing {symbols : List Char} (h : history.Describes table)
    (hsymbols : ∀ symbol, symbol ∈ table.alphabet ↔ symbol ∈ symbols) (start : StateId) :
    history.Closing symbols table.alphabet start (table.finish start) := by
  by_cases hstart : start < table.rows.size
  · have hlt : start < history.allocated := h.size_eq ▸ hstart
    rcases finish_cases hstart with ⟨hfilled, dfa, hfinish, hdfa⟩ | ⟨p, i, symbol, hfinish, hi, hgap⟩
    · rw [hfinish]
      have hcomplete := h.filled_iff.mp hfilled
      refine ⟨fun state => ?_, fun state symbol => ?_, ?_, fun other hother => ?_⟩
      · simp [hlt]
      · simp only [reduceCtorEq, false_iff, not_and]
        rintro - ⟨i, -, hgap⟩
        exact hgap.gap (hcomplete _ hgap.row_lt _ hgap.column_lt)
      · exact iff_of_true ⟨dfa, rfl⟩ ⟨hlt, hcomplete⟩
      · cases hother
        exact h.makes hsymbols hfilled hdfa
    · rw [hfinish]
      have hfirst := h.firstGap_iff.mp hgap
      refine ⟨fun state => ?_, fun state other => ?_, ?_, fun dfa hdfa => ?_⟩
      · simp [hlt]
      · constructor
        · intro heq
          cases heq
          exact ⟨hlt, i, hi, hfirst⟩
        · rintro ⟨-, j, hj, hother⟩
          obtain ⟨rfl, rfl⟩ := hfirst.unique hother
          rw [hi] at hj
          cases hj
          rfl
      · simp only [reduceCtorEq, exists_false, false_iff, not_and]
        rintro - hcomplete
        exact hfirst.gap (hcomplete _ hfirst.row_lt _ hfirst.column_lt)
      · cases hdfa
  · have hle : history.allocated ≤ start := h.size_eq ▸ Nat.le_of_not_lt hstart
    have hfinish : table.finish start = .error (.unknownStart start) := by
      rw [Table.finish, dif_neg hstart]
    rw [hfinish]
    refine ⟨fun state => ?_, fun state symbol => ?_, ?_, fun dfa hdfa => ?_⟩
    · simp [hle, eq_comm]
    · simp [Nat.not_lt.mpr hle]
    · simp [Nat.not_lt.mpr hle]
    · cases hdfa

end History

/-! ### Closing a table that was built by calls -/

open History

/-- **Exact closing.**  Calls that write only cells which are there are all taken, and their history
decides what closing the table gives.  A start state that was not added is reported first; then the
first cell, state by state and symbol by symbol, that was never written; otherwise there is an
automaton, and it leads on every symbol that was given to the state that was written last. -/
theorem closing_of_calls {symbols alphabet : List Char} {calls : List Call}
    (halphabet : IsAlphabetOf alphabet symbols)
    (hcalls : AllowsAll alphabet.length {} calls) (start : StateId) :
    ∃ table, (new symbols).performAll calls = .ok table ∧
      (ofCalls alphabet.length calls).Closing symbols alphabet start (table.finish start) := by
  have hnew := halphabet.alphabet_new
  subst hnew
  obtain ⟨table, htable, hsame, hdescribes⟩ := (describes_new symbols).afterAll hcalls
  have hsymbols : ∀ symbol, symbol ∈ table.alphabet ↔ symbol ∈ symbols := by
    rw [hsame]
    exact halphabet.mem_iff
  have hclosing := hdescribes.closing hsymbols start
  rw [hsame] at hclosing
  exact ⟨table, htable, hclosing⟩

/-- The symbols come out of order and twice.  The dead state is asked for twice, and a loop of it is
written over in between. -/
theorem closing_of_calls_of_overwritten :
    ∃ table dfa, (new ['b', 'a', 'b']).performAll
        [.addState (.singleton 0), .deadState, .setTransition 1 1 0, .deadState,
          .setTransition 0 0 1, .setTransition 0 1 1, .setTransition 0 0 0] = .ok table ∧
      table.finish 0 = .ok dfa ∧ dfa.size = 2 ∧
      dfa.next 0 'a' = .ok (some 0) ∧ dfa.next 0 'b' = .ok (some 1) ∧
      dfa.next 1 'a' = .ok (some 1) ∧ dfa.next 1 'b' = .ok (some 0) ∧
      dfa.next 0 'c' = .ok none := by
  have halphabet : IsAlphabetOf ['a', 'b'] ['b', 'a', 'b'] := by
    refine ⟨by simp [Ascending], fun symbol => ?_⟩
    simp only [List.mem_cons, List.not_mem_nil, or_false]
    tauto
  have hcalls : AllowsAll 2 {} [.addState (.singleton 0), .deadState, .setTransition 1 1 0,
      .deadState, .setTransition 0 0 1, .setTransition 0 1 1, .setTransition 0 0 0] := by
    decide
  obtain ⟨table, htable, hclosing⟩ := closing_of_calls halphabet hcalls 0
  obtain ⟨dfa, hdfa⟩ := hclosing.closed_iff.mpr ⟨by decide, by decide⟩
  have hmakes := hclosing.closed dfa hdfa
  exact ⟨table, dfa, htable, hdfa, hmakes.size_eq,
    hmakes.next_eq 0 (by decide) 0 'a' rfl, hmakes.next_eq 0 (by decide) 1 'b' rfl,
    hmakes.next_eq 1 (by decide) 0 'a' rfl, hmakes.next_eq 1 (by decide) 1 'b' rfl,
    (hmakes.next_none_iff 0 'c').mpr (by decide)⟩

end PatternAutomata.Dfa.Table
