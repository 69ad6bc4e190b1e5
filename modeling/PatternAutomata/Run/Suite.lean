import PatternAutomata.Json.Value
import PatternAutomata.Run.Simulation
import PatternAutomata.Run.Verdict
import PatternAutomata.Text.Blank
import PatternAutomata.Text.Lines

/-!
# Suites

A suite runs many inputs on one automaton and reports the verdicts in a table.  Inputs can come from
a text with an input on each line.

The inputs stand in a column that is as wide as the longest of them.  There is a limit to the width
of a column: a table with a wider one is not written, and the program that asks for it stops.
-/

namespace PatternAutomata

/-- The inputs of a text: its lines without the white space around them, but no empty ones. -/
def parseInputs (text : List Char) : List (List Char) :=
  ((Text.lines text).map fun line => Text.trim line.chars).filter fun input => !input.isEmpty

/-- An input and its verdict. -/
structure Case where
  input : String
  verdict : Verdict
deriving DecidableEq, Repr

/-- Runs every input, in order. -/
def Automaton.runSuite (automaton : Automaton) (inputs : List String) :
    Except Fault (List Case) :=
  inputs.mapM fun input => do
    return ⟨input, .ofBool (← automaton.accepts input.toList)⟩

namespace Suite

variable {cases : List Case} {c : Case}

def count (cases : List Case) (verdict : Verdict) : Nat :=
  cases.countP fun c => c.verdict = verdict

/-- A text with blanks after it, so that it has at least `width` characters. -/
def padRight (width : Nat) (text : String) : String :=
  text ++ String.ofList (List.replicate (width - text.length) ' ')

/-- The number of characters of the longest input, or of the heading if that is longer. -/
def columnWidth (cases : List Case) : Nat :=
  (cases.map fun c => c.input.length).foldl max "input".length

theorem columnWidth_le_iff {bound : Nat} :
    columnWidth cases ≤ bound ↔ "input".length ≤ bound ∧ ∀ c ∈ cases, c.input.length ≤ bound := by
  rw [columnWidth]
  generalize "input".length = first
  induction cases generalizing first with
  | nil => simp
  | cons c cases ih =>
    rw [List.map_cons, List.foldl_cons, ih, Nat.max_le, List.forall_mem_cons, and_assoc]

theorem length_le_columnWidth (h : c ∈ cases) :
    c.input.length ≤ columnWidth cases :=
  (columnWidth_le_iff.mp (Nat.le_refl _)).2 c h

def row (width : Nat) (input verdict : String) : String :=
  padRight width input ++ "  " ++ verdict ++ "\n"

/-- The table, whether or not its column of inputs is too wide to be written. -/
def table (cases : List Case) : String :=
  let width := columnWidth cases
  row width "input" "verdict"
    ++ String.join (cases.map fun c => row width c.input c.verdict.text)
    ++ s!"\n{count cases .accepted} accepted, {count cases .rejected} rejected"

/-- The widest column that is written. -/
def widestColumn : Nat := 65535

/-- Why a table is not written. -/
inductive TableFault where
  | columnTooWide
deriving DecidableEq, Repr

def TableFault.message : TableFault → String
  | columnTooWide => "Formatting argument out of range"

/-- What is written of a suite: its table, unless the column of inputs is too wide. -/
def written (cases : List Case) : Except TableFault String :=
  if widestColumn < columnWidth cases then .error .columnTooWide else .ok (table cases)

theorem written_eq_ok (h : ∀ c ∈ cases, c.input.length ≤ widestColumn) :
    written cases = .ok (table cases) := by
  have hwidth : columnWidth cases ≤ widestColumn := columnWidth_le_iff.mpr ⟨by decide, h⟩
  exact if_neg (Nat.not_lt.mpr hwidth)

theorem written_eq_error (hc : c ∈ cases) (h : widestColumn < c.input.length) :
    written cases = .error .columnTooWide :=
  if_pos (Nat.lt_of_lt_of_le h (length_le_columnWidth hc))

def toJson (cases : List Case) : Json.Value :=
  .object [("cases", .list (cases.map fun c =>
    .object [("input", .text c.input), ("verdict", .text c.verdict.text)]))]

end Suite

end PatternAutomata
