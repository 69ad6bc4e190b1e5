import Mathlib.Data.List.Basic
import PatternAutomata.Dfa.Subsets

/-!
# What the operations of a table do

A table under construction is seen through its cells: which state is written for a state and the
place of a symbol.  Asking for the state of a set either finds it or adds one state, whose cells are
empty unless the set is; writing a cell changes that cell only.  Closing a table gives an automaton
that has the cells of the table as its rows, or it reports the first cell that is empty.
-/

namespace PatternAutomata.Dfa.Table

variable {table next : Table} {p q source target : StateId} {i index : Nat} {subset : StateSet}

/-- The state `q` is written in the cell of a state for the symbol at a place. -/
def Cell (table : Table) (p : StateId) (i : Nat) (q : StateId) : Prop :=
  ∃ row, table.rows[p]? = some row ∧ row[i]? = some (some q)

theorem Cell.lt (h : table.Cell p i q) : p < table.subsets.size := by
  obtain ⟨row, hrow, -⟩ := h
  rw [table.subsets_size]
  exact (Array.getElem?_eq_some_iff.mp hrow).1

theorem Cell.index_lt (h : table.Cell p i q) : i < table.alphabet.length := by
  obtain ⟨row, hrow, hcell⟩ := h
  rw [← table.row_length row (Array.mem_of_getElem? hrow)]
  exact (List.getElem?_eq_some_iff.mp hcell).1

/-! ### Adding states -/

/-- The second table has one state more than the first: `state` stands for `subset`, which no state
of the first table stands for. -/
structure Allocates (table next : Table) (accept : StateId) (subset : StateSet)
    (state : StateId) : Prop where
  alphabet_eq : next.alphabet = table.alphabet
  state_eq : state = table.subsets.size
  new : subset ∉ table.subsets
  subsets_eq : next.subsets = table.subsets.push subset
  rows_eq : next.rows = table.rows.push
    (List.replicate table.alphabet.length (if subset.isEmpty then some state else none))
  accepting_iff : ∀ p, p ∈ next.accepting ↔ p ∈ table.accepting ∨ accept ∈ subset ∧ p = state
  dead_eq : next.dead = if subset.isEmpty then some state else table.dead

theorem addState_allocates {accept : StateId} (hnew : subset ∉ table.subsets)
    (hempty : subset.isEmpty = false) :
    Allocates table
      (if subset.contains accept then
        (table.addState subset).2.markAccepting (table.addState subset).1
        else (table.addState subset).2)
      accept subset (table.addState subset).1 := by
  have hstate : (table.addState subset).1 = table.subsets.size :=
    table.allocated_eq.trans table.subsets_size.symm
  by_cases haccept : accept ∈ subset
  · rw [if_pos (StateSet.contains_iff.mpr haccept)]
    refine ⟨rfl, hstate, hnew, rfl, ?_, fun p => ?_, ?_⟩
    · simp only [hempty]
      rfl
    · show p ∈ table.accepting.insert _ ↔ _
      rw [StateSet.mem_insert, or_comm]
      simp [haccept]
    · simp only [hempty]
      rfl
  · have hcontains : ¬ subset.contains accept = true :=
      fun h => haccept (StateSet.contains_iff.mp h)
    rw [if_neg hcontains]
    refine ⟨rfl, hstate, hnew, rfl, ?_, fun p => ?_, ?_⟩
    · simp only [hempty]
      rfl
    · show p ∈ table.accepting ↔ _
      simp [haccept]
    · simp only [hempty]
      rfl

theorem deadState_allocates {accept : StateId} (hnew : ∅ ∉ table.subsets)
    (hdead : table.dead = none) :
    Allocates table table.deadState.2 accept ∅ table.deadState.1 := by
  have hstate : table.deadState.1 = table.subsets.size := by
    simp only [deadState, hdead]
    exact table.allocated_eq.trans table.subsets_size.symm
  refine ⟨?_, hstate, hnew, ?_, ?_, fun p => ?_, ?_⟩
  all_goals simp only [deadState, hdead]
  · rfl
  · rfl
  · rfl
  · show p ∈ table.accepting ↔ p ∈ table.accepting ∨ accept ∈ (∅ : StateSet) ∧ _
    exact (or_iff_left fun h => StateSet.not_mem_empty accept h.1).symm
  · rfl

/-- Asking for the state of a set finds the state that stands for it, or adds one. -/
theorem stateFor_cases (accept : StateId) (subset : StateSet)
    (hdead : ∀ q, table.dead = some q ↔ table.subsets[q]? = some ∅) :
    (table.stateFor accept subset).2 = table ∧
        table.subsets[(table.stateFor accept subset).1]? = some subset ∨
      Allocates table (table.stateFor accept subset).2 accept subset
        (table.stateFor accept subset).1 := by
  by_cases hempty : subset.isEmpty = true
  · obtain rfl := StateSet.isEmpty_iff_eq_empty.mp hempty
    have hstate : table.stateFor accept ∅ = table.deadState := if_pos hempty
    rw [hstate]
    cases hnone : table.dead with
    | some d =>
      left
      simp only [deadState, hnone, true_and]
      exact (hdead d).mp hnone
    | none =>
      refine .inr (deadState_allocates (fun hmem => ?_) hnone)
      obtain ⟨q, hq⟩ := Array.mem_iff_getElem?.mp hmem
      rw [(hdead q).mpr hq] at hnone
      cases hnone
  · cases hfind : table.subsets.findIdx? (· == subset) with
    | some q =>
      left
      have hstate : table.stateFor accept subset = (q, table) := by
        simp only [stateFor, if_neg hempty, hfind]
      obtain ⟨hq, heq, -⟩ := Array.findIdx?_eq_some_iff_getElem.mp hfind
      rw [hstate]
      exact ⟨rfl, by rw [Array.getElem?_eq_getElem hq, eq_of_beq heq]⟩
    | none =>
      right
      have hnew : subset ∉ table.subsets := fun hmem => by
        have hne := Array.findIdx?_eq_none_iff.mp hfind subset hmem
        simp at hne
      have hstate : table.stateFor accept subset = ((table.addState subset).1,
          if subset.contains accept then
            (table.addState subset).2.markAccepting (table.addState subset).1
          else (table.addState subset).2) := by
        simp only [stateFor, if_neg hempty, hfind]
      rw [hstate]
      exact addState_allocates hnew (Bool.not_eq_true _ ▸ hempty)

/-- A new row of equal cells leaves the other cells as they are. -/
theorem cell_push {cell : Option StateId}
    (h : next.rows = table.rows.push (List.replicate table.alphabet.length cell)) :
    next.Cell p i q ↔
      table.Cell p i q ∨ p = table.rows.size ∧ i < table.alphabet.length ∧ cell = some q := by
  unfold Cell
  rw [h]
  by_cases hp : p = table.rows.size
  · subst hp
    simp [List.getElem?_replicate]
  · simp [Array.getElem?_push, hp]

/-- The cells of the states that were there stay as they are; those of the new state lead to itself
if it stands for the empty set, and are empty otherwise. -/
theorem Allocates.cell_iff {accept state : StateId}
    (h : Allocates table next accept subset state) :
    next.Cell p i q ↔ table.Cell p i q ∨
      subset = ∅ ∧ p = state ∧ q = state ∧ i < table.alphabet.length := by
  have hstate : state = table.rows.size := h.state_eq.trans table.subsets_size
  rw [cell_push h.rows_eq, ← hstate]
  refine or_congr_right ?_
  by_cases hempty : subset.isEmpty = true
  · obtain rfl := StateSet.isEmpty_iff_eq_empty.mp hempty
    rw [if_pos hempty, Option.some.injEq]
    constructor
    · rintro ⟨hp, hi, rfl⟩
      exact ⟨rfl, hp, rfl, hi⟩
    · rintro ⟨-, hp, rfl, hi⟩
      exact ⟨hp, hi, rfl⟩
  · have hset : subset ≠ ∅ := fun e => hempty (StateSet.isEmpty_iff_eq_empty.mpr e)
    simp [hset, hempty]

/-! ### Writing cells -/

/-- The second table is the first with one cell written. -/
structure Writes (table next : Table) (source : StateId) (index : Nat) (target : StateId) :
    Prop where
  alphabet_eq : next.alphabet = table.alphabet
  subsets_eq : next.subsets = table.subsets
  accepting_eq : next.accepting = table.accepting
  dead_eq : next.dead = table.dead
  cell_iff : ∀ p i q, next.Cell p i q ↔
    if p = source ∧ i = index then q = target else table.Cell p i q

theorem setTransition_writes (hsource : source < table.subsets.size)
    (hindex : index < table.alphabet.length) (target : StateId) :
    ∃ next, table.setTransition source index target = .ok next ∧
      Writes table next source index target := by
  have hrow : source < table.rows.size := table.subsets_size ▸ hsource
  have hlength : index < table.rows[source].length := by
    rw [table.row_length _ (Array.getElem_mem hrow)]
    exact hindex
  simp only [setTransition, dif_pos hrow, if_pos hlength]
  refine ⟨_, rfl, rfl, rfl, rfl, rfl, fun p i q => ?_⟩
  simp only [Cell]
  by_cases hp : p = source
  · subst hp
    by_cases hi : i = index
    · subst hi
      simp [hlength, eq_comm]
    · simp [hi, hrow, List.getElem?_set_ne (Ne.symm hi)]
  · simp [Array.getElem?_set_ne _ (Ne.symm hp), hp]

theorem Writes.written (h : Writes table next source index target) :
    next.Cell source index target := by
  rw [h.cell_iff, if_pos ⟨rfl, rfl⟩]

theorem Writes.cell_cases (h : Writes table next source index target) (hcell : next.Cell p i q) :
    table.Cell p i q ∨ p = source ∧ i = index ∧ q = target := by
  rw [h.cell_iff] at hcell
  by_cases hhere : p = source ∧ i = index
  · rw [if_pos hhere] at hcell
    exact .inr ⟨hhere.1, hhere.2, hcell⟩
  · rw [if_neg hhere] at hcell
    exact .inl hcell

theorem Writes.keeps (h : Writes table next source index target)
    (hsame : ∀ q, table.Cell source index q → q = target) (hcell : table.Cell p i q) :
    next.Cell p i q := by
  rw [h.cell_iff]
  by_cases hhere : p = source ∧ i = index
  · obtain ⟨rfl, rfl⟩ := hhere
    rw [if_pos ⟨rfl, rfl⟩]
    exact hsame q hcell
  · rw [if_neg hhere]
    exact hcell

/-! ### Closing -/

/-- Every cell of the table is filled. -/
def Filled (table : Table) : Prop :=
  ∀ p < table.subsets.size, ∀ i < table.alphabet.length, ∃ q, table.Cell p i q

/-- The first place of a grid, row by row, that is not filled. -/
structure FirstGap (filled : Nat → Nat → Prop) (height width row column : Nat) : Prop where
  row_lt : row < height
  column_lt : column < width
  gap : ¬ filled row column
  before : ∀ r c, c < width → r < row ∨ r = row ∧ c < column → filled r c

theorem FirstGap.unique {filled : Nat → Nat → Prop} {height width row column row' column' : Nat}
    (h : FirstGap filled height width row column) (h' : FirstGap filled height width row' column') :
    row = row' ∧ column = column' := by
  have hbefore : ∀ {r c r' c'}, FirstGap filled height width r c →
      FirstGap filled height width r' c' → ¬ (r < r' ∨ r = r' ∧ c < c') :=
    fun hfirst hlater hlt => hfirst.gap (hlater.before _ _ hfirst.column_lt hlt)
  have hle := hbefore h h'
  have hge := hbefore h' h
  omega

/-- The first cell of a row that is empty is the one at `i`, which is for `symbol`. -/
structure FirstEmpty (symbols : List Char) (cells : List (Option StateId)) (i : Nat)
    (symbol : Char) : Prop where
  symbol_eq : symbols[i]? = some symbol
  empty : cells[i]? = some none
  before : ∀ j < i, ∃ target, cells[j]? = some (some target)

/-- Either all cells of a row hold a state, or the first one that does not is reported. -/
theorem fillRow_cases (state : StateId) {symbols : List Char} {cells : List (Option StateId)}
    (hlength : cells.length = symbols.length) :
    (∃ row, fillRow state symbols cells = .ok row ∧ cells = row.map some) ∨
      ∃ i symbol, fillRow state symbols cells = .error (.missingTransition state symbol) ∧
        FirstEmpty symbols cells i symbol := by
  induction symbols generalizing cells with
  | nil =>
    rw [List.length_nil, List.length_eq_zero_iff] at hlength
    subst hlength
    exact .inl ⟨[], rfl, rfl⟩
  | cons symbol symbols ih =>
    match cells with
    | [] => cases hlength
    | none :: cells =>
      exact .inr ⟨0, symbol, rfl, rfl, rfl, fun j hj => absurd hj (Nat.not_lt_zero j)⟩
    | some target :: cells =>
      rcases ih (Nat.succ.inj hlength) with ⟨row, hrow, hcells⟩ | ⟨i, found, hrow, hfirst⟩
      · left
        refine ⟨target :: row, ?_, by rw [hcells, List.map_cons]⟩
        simp only [fillRow, hrow, bind, Except.bind]
        rfl
      · right
        refine ⟨i + 1, found, ?_, hfirst.symbol_eq, hfirst.empty, fun j hj => ?_⟩
        · simp only [fillRow, hrow, bind, Except.bind]
        · cases j with
          | zero => exact ⟨target, rfl⟩
          | succ j => exact hfirst.before j (Nat.lt_of_succ_lt_succ hj)

/-- Either all cells of the rows hold a state, or the first one that does not is reported. -/
theorem fillRows_cases {alphabet : List Char} {rows : List (List (Option StateId))}
    (hlength : ∀ row ∈ rows, row.length = alphabet.length) (state : StateId) :
    (∃ filled, fillRows alphabet state rows = .ok filled ∧ rows = filled.map (List.map some)) ∨
      ∃ p cells i symbol,
        fillRows alphabet state rows = .error (.missingTransition (state + p) symbol) ∧
          rows[p]? = some cells ∧ FirstEmpty alphabet cells i symbol ∧
            ∀ r < p, ∃ row : List StateId, rows[r]? = some (row.map some) := by
  induction rows generalizing state with
  | nil => exact .inl ⟨[], rfl, rfl⟩
  | cons cells rows ih =>
    obtain ⟨hfirst, hrest⟩ := List.forall_mem_cons.mp hlength
    rcases fillRow_cases state hfirst with ⟨row, hrow, hcells⟩ | ⟨i, symbol, hrow, hempty⟩
    · rcases ih hrest (state + 1) with
        ⟨filled, hrows, heq⟩ | ⟨p, other, i, symbol, hrows, hother, hempty, habove⟩
      · left
        refine ⟨row :: filled, ?_, by rw [hcells, heq, List.map_cons]⟩
        simp only [fillRows, hrow, hrows, bind, Except.bind]
        rfl
      · right
        refine ⟨p + 1, other, i, symbol, ?_, hother, hempty, fun r hr => ?_⟩
        · simp only [fillRows, hrow, hrows, bind, Except.bind]
          rw [Nat.add_right_comm, Nat.add_assoc]
        · cases r with
          | zero => exact ⟨row, congrArg some hcells⟩
          | succ r => exact habove r (Nat.lt_of_succ_lt_succ hr)
    · right
      refine ⟨0, cells, i, symbol, ?_, rfl, hempty, fun r hr => absurd hr (Nat.not_lt_zero r)⟩
      simp only [fillRows, hrow, bind, Except.bind]
      rfl

theorem exists_row (hp : p < table.rows.size) :
    ∃ cells, table.rows[p]? = some cells ∧ cells.length = table.alphabet.length :=
  ⟨_, Array.getElem?_eq_getElem hp, table.row_length _ (Array.getElem_mem hp)⟩

theorem filled_of_rows {rows : List (List StateId)}
    (h : table.rows.toList = rows.map (List.map some)) : table.Filled := by
  intro p hp i hi
  obtain ⟨cells, hcells, hlength⟩ := exists_row (table.subsets_size ▸ hp)
  have hrow : rows[p]?.map (List.map some) = some cells := by
    rw [← List.getElem?_map, ← h, Array.getElem?_toList, hcells]
  obtain ⟨row, -, rfl⟩ := Option.map_eq_some_iff.mp hrow
  have hi' : i < row.length := by
    rw [← hlength, List.length_map] at hi
    exact hi
  exact ⟨row[i], row.map some, hcells, by simp [hi']⟩

/-- The automaton has the states and the cells of the table. -/
structure Closes (table : Table) (start : StateId) (dfa : Dfa) : Prop where
  alphabet_eq : dfa.alphabet = table.alphabet
  start_eq : dfa.start = start
  subsets_eq : dfa.subsets = table.subsets
  accepting_eq : dfa.accepting = table.accepting
  dead_eq : dfa.dead = table.dead
  cell_iff : ∀ (p : StateId) (i : Nat) (q : StateId),
    (∃ row, dfa.table[p]? = some row ∧ row[i]? = some q) ↔ table.Cell p i q

theorem Closes.size_eq {start : StateId} {dfa : Dfa} (h : table.Closes start dfa) :
    dfa.size = table.rows.size := by
  rw [Dfa.size, ← dfa.subsets_size, h.subsets_eq, table.subsets_size]

/-- Closing a table with rows that are filled gives an automaton with these rows. -/
theorem finish_closes {rows : List (List StateId)} {start : StateId}
    (hstart : start < table.rows.size) (hfill : fillRows table.alphabet 0 table.rows.toList = .ok rows)
    (hrows : table.rows.toList = rows.map (List.map some)) :
    ∃ dfa, table.finish start = .ok dfa ∧ table.Closes start dfa := by
  have hcells : ∀ p i q, (∃ row, rows.toArray[p]? = some row ∧ row[i]? = some q) ↔
      table.Cell p i q := by
    intro p i q
    have hrow : table.rows[p]? = rows[p]?.map (List.map some) := by
      rw [← Array.getElem?_toList, hrows, List.getElem?_map]
    rw [List.getElem?_toArray, Cell, hrow]
    cases rows[p]? <;> simp
  unfold Table.finish
  rw [dif_pos hstart]
  split
  · next hfill' =>
    rw [hfill] at hfill'
    cases hfill'
  · next rows' hfill' =>
    rw [hfill] at hfill'
    cases hfill'
    exact ⟨_, rfl, rfl, rfl, rfl, rfl, rfl, hcells⟩

theorem finish_error {cause : TableError} {start : StateId} (hstart : start < table.rows.size)
    (hfill : fillRows table.alphabet 0 table.rows.toList = .error cause) :
    table.finish start = .error cause := by
  unfold Table.finish
  rw [dif_pos hstart]
  split
  · next other hother =>
    rw [hfill] at hother
    cases hother
    rfl
  · next rows hrows =>
    rw [hfill] at hrows
    cases hrows

/-- Closing a table either gives an automaton with its cells or reports the first empty cell. -/
theorem finish_cases {start : StateId} (hstart : start < table.rows.size) :
    (table.Filled ∧ ∃ dfa, table.finish start = .ok dfa ∧ table.Closes start dfa) ∨
      ∃ p i symbol, table.finish start = .error (.missingTransition p symbol) ∧
        table.alphabet[i]? = some symbol ∧
          FirstGap (fun p i => ∃ q, table.Cell p i q) table.rows.size table.alphabet.length p i := by
  have hlength : ∀ row ∈ table.rows.toList, row.length = table.alphabet.length :=
    fun row hrow => table.row_length row (Array.mem_toList_iff.mp hrow)
  rcases fillRows_cases hlength 0 with
    ⟨rows, hfill, hrows⟩ | ⟨p, cells, i, symbol, hfill, hcells, hfirst, habove⟩
  · exact .inl ⟨filled_of_rows hrows, finish_closes hstart hfill hrows⟩
  · right
    rw [Nat.zero_add] at hfill
    rw [Array.getElem?_toList] at hcells
    refine ⟨p, i, symbol, finish_error hstart hfill, hfirst.symbol_eq, ?_⟩
    constructor
    · exact (Array.getElem?_eq_some_iff.mp hcells).1
    · exact (List.getElem?_eq_some_iff.mp hfirst.symbol_eq).1
    · rintro ⟨q, other, hother, hq⟩
      rw [hcells] at hother
      cases hother
      rw [hfirst.empty] at hq
      cases hq
    · rintro r c hc (hr | ⟨rfl, hc'⟩)
      · obtain ⟨row, hrow⟩ := habove r hr
        rw [Array.getElem?_toList] at hrow
        have hc' : c < row.length := by
          rw [← List.length_map some, table.row_length _ (Array.mem_of_getElem? hrow)]
          exact hc
        exact ⟨row[c], row.map some, hrow, by simp [hc']⟩
      · obtain ⟨q, hq⟩ := hfirst.before c hc'
        exact ⟨q, cells, hcells, hq⟩

theorem closes_of_finish {start : StateId} {dfa : Dfa} (h : table.finish start = .ok dfa) :
    table.Filled ∧ table.Closes start dfa := by
  by_cases hstart : start < table.rows.size
  · rcases finish_cases hstart with ⟨hfilled, other, hfinish, hcloses⟩ | ⟨p, i, symbol, hfinish, -⟩
    · rw [h] at hfinish
      cases hfinish
      exact ⟨hfilled, hcloses⟩
    · rw [h] at hfinish
      cases hfinish
  · rw [Table.finish, dif_neg hstart] at h
    cases h

theorem Filled.finish (h : table.Filled) {start : StateId} (hstart : start < table.subsets.size) :
    ∃ dfa, table.finish start = .ok dfa ∧ table.Closes start dfa := by
  rw [table.subsets_size] at hstart
  rcases finish_cases hstart with ⟨-, hcloses⟩ | ⟨p, i, symbol, -, -, hgap⟩
  · exact hcloses
  · have hp : p < table.subsets.size := table.subsets_size ▸ hgap.row_lt
    exact absurd (h p hp i hgap.column_lt) hgap.gap

end PatternAutomata.Dfa.Table
