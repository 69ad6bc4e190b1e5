import Mathlib.Data.List.Forall2
import PatternAutomata.Run.Suite

/-!
# Tables of suites

A table has a heading, a row for every case, in their order, and a line with the totals.  The
verdicts stand in a column of their own, with blanks before it, so they can be read off the table by
anyone who has the inputs: no text is the table of the same inputs with other verdicts.
-/

namespace PatternAutomata

variable {verdict other : Verdict} {more rest : List Char} {m n : Nat}

theorem Verdict.eq_of_text_append_eq
    (h : verdict.text.toList ++ '\n' :: more = other.text.toList ++ '\n' :: rest) :
    verdict = other ∧ more = rest := by
  cases verdict <;> cases other <;> simp_all [Verdict.text]

namespace Suite

variable {column width : Nat} {left right line text : String} {cases others : List Case}
  {rows lines : List String}

/-! ### Lines -/

/-- A line of a table: a text on the left, blanks up to a column, and a text on the right. -/
def IsLine (column : Nat) (left right line : String) : Prop :=
  ∃ blanks, 2 ≤ blanks ∧ left.length + blanks = column ∧
    line = left ++ String.ofList (List.replicate blanks ' ') ++ right ++ "\n"

/-- The row of a case: its input on the left, and its verdict on the right. -/
def IsRow (column : Nat) (c : Case) (row : String) : Prop :=
  IsLine column c.input c.verdict.text row

theorem isLine_row (h : left.length ≤ width) (right : String) :
    IsLine (width + 2) left right (row width left right) := by
  refine ⟨width - left.length + 2, Nat.le_add_left 2 _, ?_, ?_⟩
  · rw [← Nat.add_assoc, Nat.add_sub_cancel' h]
  · rw [row, padRight, List.replicate_add, String.ofList_append, ← String.append_assoc]
    rfl

theorem IsLine.toList_eq (h : IsLine column left right line) :
    line.toList = left.toList ++ (List.replicate (column - left.length) ' ' ++
      (right.toList ++ ['\n'])) := by
  obtain ⟨blanks, -, rfl, rfl⟩ := h
  simp only [Nat.add_sub_cancel_left, String.toList_append, String.toList_ofList, List.append_assoc]
  rfl

/-! ### Tables -/

/-- How many of the cases were accepted, and how many were not. -/
def totals (cases : List Case) : String :=
  let accepted := cases.countP fun c => c.verdict = .accepted
  let rejected := cases.countP fun c => c.verdict = .rejected
  s!"\n{accepted} accepted, {rejected} rejected"

/-- A table of cases: a heading, a row for each case, in order, and the totals.  In the heading and
in the rows, the text on the right begins at the same column. -/
def IsTable (cases : List Case) (text : String) : Prop :=
  ∃ column heading rows, IsLine column "input" "verdict" heading ∧
    List.Forall₂ (IsRow column) cases rows ∧ text = heading ++ String.join rows ++ totals cases

theorem isTable_table (cases : List Case) : IsTable cases (table cases) := by
  obtain ⟨hheading, hinputs⟩ := columnWidth_le_iff.mp (Nat.le_refl (columnWidth cases))
  refine ⟨columnWidth cases + 2, row (columnWidth cases) "input" "verdict",
    cases.map fun c => row (columnWidth cases) c.input c.verdict.text,
    isLine_row hheading _, ?_, ?_⟩
  · rw [List.forall₂_map_right_iff, List.forall₂_same]
    intro c hc
    exact isLine_row (hinputs c hc) _
  · simp only [table, count, totals]

/-! ### Reading a table -/

/-- Blanks are counted up to the first other character. -/
theorem eq_of_blanks_append_eq {c : Char} (hc : c ≠ ' ')
    (h : List.replicate m ' ' ++ c :: more = List.replicate n ' ' ++ c :: rest) : m = n := by
  have hcount : ∀ k tail, ((List.replicate k ' ' ++ c :: tail).takeWhile (· = ' ')).length = k := by
    intro k tail
    simp [hc]
  rw [← hcount m more, h, hcount n rest]

theorem eq_of_rows_append_eq
    (h : List.Forall₂ (IsRow column) cases rows) (h' : List.Forall₂ (IsRow column) others lines)
    (hinputs : cases.map Case.input = others.map Case.input)
    (htext : rows.flatMap String.toList ++ more = lines.flatMap String.toList ++ rest) :
    cases = others := by
  induction h generalizing others lines with
  | nil => exact (List.map_eq_nil_iff.mp hinputs.symm).symm
  | @cons c row cases rows hrow _ ih =>
    cases h' with
    | nil => cases hinputs
    | @cons d line others lines hline hlines =>
      obtain ⟨hinput, hmore⟩ := List.cons.inj hinputs
      rw [List.flatMap_cons, List.flatMap_cons, IsLine.toList_eq hrow, IsLine.toList_eq hline,
        hinput] at htext
      simp only [List.append_assoc] at htext
      have hverdicts := List.append_cancel_left (List.append_cancel_left htext)
      obtain ⟨hverdict, hafter⟩ := Verdict.eq_of_text_append_eq hverdicts
      have hcase : c = d := by
        cases c
        cases d
        cases hinput
        cases hverdict
        rfl
      rw [hcase, ih hlines hmore hafter]

/-- The verdicts can be read off a table. -/
theorem IsTable.unique (h : IsTable cases text) (h' : IsTable others text)
    (hinputs : cases.map Case.input = others.map Case.input) : cases = others := by
  obtain ⟨column, _, rows, ⟨blanks, -, rfl, rfl⟩, hrows, htext⟩ := h
  obtain ⟨column', _, lines, ⟨blanks', -, rfl, rfl⟩, hlines, htext'⟩ := h'
  have hsame := congrArg String.toList (htext.symm.trans htext')
  simp only [String.toList_append, String.toList_join, String.toList_ofList,
    List.append_assoc] at hsame
  have hheadings := List.append_cancel_left hsame
  obtain rfl : blanks = blanks' := by
    rw [show "verdict".toList = 'v' :: "erdict".toList from rfl] at hheadings
    exact eq_of_blanks_append_eq (by decide) hheadings
  have hrest := List.append_cancel_left (List.append_cancel_left hheadings)
  exact eq_of_rows_append_eq hrows hlines hinputs (List.append_cancel_left hrest)

end Suite

end PatternAutomata
