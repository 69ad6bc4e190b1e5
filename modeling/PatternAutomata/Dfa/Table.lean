import PatternAutomata.Dfa.Basic

/-!
# Building deterministic automata

A table under construction has a row of cells for each state; a cell is empty until it is written.
Closing the table names the start state and asks that every cell is filled.  The table keeps one
dead state for the empty set, which is made when it is first asked for.
-/

namespace PatternAutomata

/-- Why a table cannot be closed. -/
inductive TableError where
  | missingTransition (state : StateId) (symbol : Char) -- the first cell that is empty
  | unknownStart (state : StateId)                      -- the start state has no row
deriving DecidableEq, Repr

def TableError.message : TableError → String
  | .missingTransition state symbol => s!"state {state} has no transition on '{symbol}'"
  | .unknownStart state => s!"start state {state} was never allocated"

namespace Dfa

/-- A deterministic automaton under construction. -/
structure Table where
  alphabet : List Char
  rows : Array (List (Option StateId))
  subsets : Array StateSet
  accepting : StateSet
  dead : Option StateId
  ids : IdSupply
  alphabet_ascending : Ascending Char.toNat alphabet
  row_length : ∀ row ∈ rows, row.length = alphabet.length
  subsets_size : subsets.size = rows.size
  allocated_eq : ids.allocated = rows.size

namespace Table

/-- The table without states over the symbols of a list, which may come in any order and more than
once. -/
def new (symbols : List Char) : Table where
  alphabet := ascendingOf Char.toNat symbols
  rows := #[]
  subsets := #[]
  accepting := ∅
  dead := none
  ids := .fresh
  alphabet_ascending := ascending_ascendingOf symbols
  row_length row hrow := absurd hrow (Array.not_mem_empty row)
  subsets_size := rfl
  allocated_eq := IdSupply.allocated_fresh

def size (table : Table) : Nat := table.ids.allocated

def isEmpty (table : Table) : Bool := table.size == 0

/-- Adds a state that stands for `subset`, with the given row. -/
private def addRow (table : Table) (subset : StateSet) (row : List (Option StateId))
    (h : row.length = table.alphabet.length) : StateId × Table :=
  (table.ids.take.1,
    { table with
      rows := table.rows.push row
      subsets := table.subsets.push subset
      ids := table.ids.take.2
      row_length := fun other hother => by
        rcases Array.mem_push.mp hother with hother | rfl
        · exact table.row_length other hother
        · exact h
      subsets_size := by simp [table.subsets_size]
      allocated_eq := by simp [IdSupply.take, table.allocated_eq] })

/-- Adds a state that stands for `subset`; its cells are empty. -/
def addState (table : Table) (subset : StateSet) : StateId × Table :=
  table.addRow subset (List.replicate table.alphabet.length none) List.length_replicate

/-- The dead state, made on first use: it stands for the empty set, does not accept and leads to
itself under every symbol. -/
def deadState (table : Table) : StateId × Table :=
  match table.dead with
  | some dead => (dead, table)
  | none =>
    let added := table.addRow ∅
      (List.replicate table.alphabet.length (some table.ids.take.1)) List.length_replicate
    (added.1, { added.2 with dead := some added.1 })

/-- Writes the cell of `source` for the symbol at `index`.  The target is not looked at. -/
def setTransition (table : Table) (source : StateId) (index : Nat) (target : StateId) :
    Except Fault Table :=
  if hsource : source < table.rows.size then
    if index < table.rows[source].length then
      .ok
        { table with
          rows := table.rows.set source (table.rows[source].set index (some target))
          row_length := fun row hrow => by
            rcases Array.mem_or_eq_of_mem_set hrow with hrow | rfl
            · exact table.row_length row hrow
            · rw [List.length_set]
              exact table.row_length _ (Array.getElem_mem hsource)
          subsets_size := by rw [Array.size_set]; exact table.subsets_size
          allocated_eq := by rw [Array.size_set]; exact table.allocated_eq }
    else .error .outOfBounds
  else .error (.tableRow source table.rows.size)

/-- Marks a state as accepting, whether or not the table has it. -/
def markAccepting (table : Table) (state : StateId) : Table :=
  { table with accepting := table.accepting.insert state }

/-- The targets of a row, or the first symbol whose cell is empty. -/
def fillRow (state : StateId) : List Char → List (Option StateId) → Except TableError (List StateId)
  | symbol :: symbols, cell :: cells =>
    match cell with
    | none => .error (.missingTransition state symbol)
    | some target => do
      let targets ← fillRow state symbols cells
      return target :: targets
  | _, _ => .ok []

/-- The rows from the state `state` on, with every cell filled. -/
def fillRows (alphabet : List Char) (state : StateId) :
    List (List (Option StateId)) → Except TableError (List (List StateId))
  | [] => .ok []
  | cells :: rest => do
    let row ← fillRow state alphabet cells
    let rows ← fillRows alphabet (state + 1) rest
    return row :: rows

theorem length_of_fillRow {state : StateId} {symbols : List Char} {cells : List (Option StateId)}
    {row : List StateId} (h : fillRow state symbols cells = .ok row)
    (hlength : cells.length = symbols.length) : row.length = symbols.length := by
  induction symbols generalizing cells row with
  | nil =>
    cases cells with
    | nil => cases h; rfl
    | cons cell cells => simp at hlength
  | cons symbol symbols ih =>
    cases cells with
    | nil => simp at hlength
    | cons cell cells =>
      cases cell with
      | none => cases h
      | some target =>
        cases hrest : fillRow state symbols cells with
        | error e => simp [fillRow, hrest, bind, Except.bind] at h
        | ok targets =>
          simp only [fillRow, hrest, bind, Except.bind, pure, Except.pure] at h
          cases h
          simp only [List.length_cons, Nat.add_right_cancel_iff] at hlength ⊢
          exact ih hrest hlength

theorem length_of_fillRows {alphabet : List Char} {state : StateId}
    {cells : List (List (Option StateId))} {rows : List (List StateId)}
    (h : fillRows alphabet state cells = .ok rows)
    (hlength : ∀ row ∈ cells, row.length = alphabet.length) :
    rows.length = cells.length ∧ ∀ row ∈ rows, row.length = alphabet.length := by
  induction cells generalizing state rows with
  | nil => cases h; simp
  | cons first rest ih =>
    cases hfirst : fillRow state alphabet first with
    | error e => simp [fillRows, hfirst, bind, Except.bind] at h
    | ok row =>
      cases hrest : fillRows alphabet (state + 1) rest with
      | error e => simp [fillRows, hfirst, hrest, bind, Except.bind] at h
      | ok more =>
        simp only [fillRows, hfirst, hrest, bind, Except.bind, pure, Except.pure] at h
        cases h
        have ⟨hsize, hrows⟩ := ih hrest (fun r hr => hlength r (List.mem_cons_of_mem first hr))
        refine ⟨by simp [hsize], fun r hr => ?_⟩
        rcases List.mem_cons.mp hr with rfl | hr
        · exact length_of_fillRow hfirst (hlength first (List.mem_cons_self ..))
        · exact hrows r hr

/-- Closes the table.  A start state without a row is reported first, then the first empty cell in
the order of states and, within a state, of symbols. -/
def finish (table : Table) (start : StateId) : Except TableError Dfa :=
  if hstart : start < table.rows.size then
    match hfill : fillRows table.alphabet 0 table.rows.toList with
    | .error e => .error e
    | .ok rows =>
      have hrows := length_of_fillRows hfill
        (fun row hrow => table.row_length row (Array.mem_toList_iff.mp hrow))
      .ok
        { alphabet := table.alphabet
          table := rows.toArray
          subsets := table.subsets
          accepting := table.accepting
          start := start
          dead := table.dead
          alphabet_ascending := table.alphabet_ascending
          row_length := fun row hrow => hrows.2 row (List.mem_toArray.mp hrow)
          subsets_size := by simp [table.subsets_size, hrows.1]
          start_lt := by simpa [hrows.1] using hstart }
  else .error (.unknownStart start)

end Table

end Dfa

end PatternAutomata
