import PatternAutomata.Diagnostic.Snippet
import PatternAutomata.Pattern.Check

/-!
# Diagnostics on a line each

The pattern text is shown in a message only as a quoted character or as an operator.  A quoted
character holds no control character, and neither do numbers, templates and hints, so a diagnostic
takes one line whatever the text is: the line feeds of a report are those between two diagnostics.
-/

namespace PatternAutomata

namespace Text

variable {c : Char} {marks left right : List Char}

/-! ### Control characters -/

/-- Whether the character is a control: one before the blank, or one from the delete character up to
the no-break space, which is none. -/
def isControl (c : Char) : Bool :=
  decide (c.toNat < 0x20 ∨ 0x7f ≤ c.toNat ∧ c.toNat < 0xa0)

/-- No control character stands in the text. -/
def ControlFree (text : List Char) : Prop :=
  ∀ c ∈ text, isControl c = false

instance (text : List Char) : Decidable (ControlFree text) :=
  decidable_of_iff (text.all (!isControl ·) = true) (by simp [ControlFree])

theorem controlFree_append :
    ControlFree (left ++ right) ↔ ControlFree left ∧ ControlFree right :=
  List.forall_mem_append

theorem ControlFree.newline_not_mem (h : ControlFree left) : '\n' ∉ left := by
  intro hmem
  exact absurd (h '\n' hmem) (by decide)

theorem isControl_digitChar : ∀ n < 16, isControl (Nat.digitChar n) = false := by decide

theorem controlFree_toDigits {base : Nat} (hone : 1 < base) (hbase : base ≤ 16) (n : Nat) :
    ControlFree (Nat.toDigits base n) := by
  induction n using Nat.strongRecOn with
  | ind n ih =>
    have hsmall : ∀ m < base, ControlFree [Nat.digitChar m] := by
      intro m hm
      exact List.forall_mem_singleton.mpr (isControl_digitChar m (Nat.lt_of_lt_of_le hm hbase))
    by_cases hn : n < base
    · rw [Nat.toDigits_of_lt_base hn]
      exact hsmall n hn
    · have hle : base ≤ n := Nat.le_of_not_lt hn
      have hzero : 0 < base := Nat.lt_trans Nat.zero_lt_one hone
      rw [Nat.toDigits_of_base_le hone hle, controlFree_append]
      refine ⟨ih (n / base) (Nat.div_lt_self (Nat.lt_of_lt_of_le hzero hle) hone), ?_⟩
      exact hsmall _ (Nat.mod_lt n hzero)

theorem controlFree_toString (n : Nat) : ControlFree (toString n).toList := by
  rw [Nat.toString_eq_ofList_toDigits, String.toList_ofList]
  exact controlFree_toDigits (by decide) (by decide) n

/-! ### Quoted characters -/

theorem unprintable_contains (hle : 0x7f ≤ c.toNat) (hlt : c.toNat < 0xa0) :
    unprintable.contains c = true := by
  show CodePoints.memberAfter c.toNat false
    (0x0 :: 0x20 :: 0x7f :: 0xa1 :: unprintable.changes.drop 4) = true
  rw [CodePoints.memberAfter, if_pos (Nat.zero_le _), CodePoints.memberAfter,
    if_pos (Nat.le_trans (by decide) hle), CodePoints.memberAfter, if_pos hle,
    CodePoints.memberAfter_of_lt _ (Nat.lt_trans hlt (by decide))]
  rfl

theorem isControl_of_isVisible (h : isVisible c = true) : isControl c = false := by
  unfold isVisible at h
  apply decide_eq_false
  split at h
  · next hlt =>
    have hle : 0x20 ≤ c.toNat := of_decide_eq_true h
    omega
  · next hle =>
    rintro (hbefore | ⟨hfrom, hbelow⟩)
    · omega
    · simp [unprintable_contains hfrom hbelow] at h

/-- A quoted character is shown as itself only if it is no control; escapes hold none. -/
theorem controlFree_quoteChar (hmarks : ControlFree marks) (c : Char) :
    ControlFree (quoteChar marks c) := by
  unfold quoteChar
  split
  · decide
  split
  · decide
  split
  · decide
  split
  · decide
  split
  · next hmark =>
    refine List.forall_mem_cons.mpr ⟨by rfl, List.forall_mem_singleton.mpr ?_⟩
    rcases Bool.or_eq_true_iff.mp hmark with hbackslash | hcontained
    · rw [of_decide_eq_true hbackslash]
      decide
    · exact hmarks c (List.contains_iff_mem.mp hcontained)
  split
  · next hvisible => exact List.forall_mem_singleton.mpr (isControl_of_isVisible hvisible)
  · rw [codePointEscape, controlFree_append, controlFree_append]
    refine ⟨⟨?_, controlFree_toDigits (by decide) (by decide) _⟩, ?_⟩ <;> decide

theorem controlFree_quotedChar (c : Char) : ControlFree (quotedChar c).toList := by
  rw [quotedChar, String.toList_ofList]
  exact controlFree_quoteChar (by decide) c

end Text

open Text

variable {kind : DiagnosticKind} {span : Span} {detail : Option String} {problem : Diagnostic}
  {problems : List Diagnostic} {scan : Scan} {c : Char} {text : List Char}

/-! ### Messages -/

/-- The text with a detail in the place of every pair of braces; braces of the detail stay. -/
def fillBraces (detail : List Char) : List Char → List Char
  | '\x7b' :: '\x7d' :: rest => detail ++ fillBraces detail rest
  | c :: rest => c :: fillBraces detail rest
  | [] => []

/-- A message is its template, as that is shown, with the detail in the place of the braces. -/
theorem DiagnosticKind.message_eq_fillBraces (kind : DiagnosticKind) (detail : String) :
    (kind.message (some detail)).toList = fillBraces detail.toList kind.template.text.toList := by
  cases kind <;> simp [message, template, Template.fill, Template.text, fillBraces, plainMessage]

namespace Diagnostic

/-- What the diagnostic says holds no control character: its message is the one of its kind, or the
template of its kind with a detail in the place of the braces. -/
structure Plain (problem : Diagnostic) : Prop where
  message_eq : problem.message = problem.kind.plainMessage ∨
    ∃ detail, problem.message.toList = fillBraces detail problem.kind.template.text.toList
  message : ControlFree problem.message.toList
  hints : ∀ hint ∈ problem.hints, ControlFree hint.toList

theorem plain_new (h : ∀ text ∈ detail, ControlFree text.toList) :
    (Diagnostic.new kind span detail).Plain where
  message_eq := by
    cases detail with
    | none => exact .inl rfl
    | some text => exact .inr ⟨text.toList, kind.message_eq_fillBraces text⟩
  message := by
    have hplain : ControlFree kind.plainMessage.toList := by cases kind <;> decide
    have hbefore : ControlFree kind.template.before.toList := by cases kind <;> decide
    have hafter : ControlFree kind.template.after.toList := by cases kind <;> decide
    cases detail with
    | none => exact hplain
    | some text =>
      show ControlFree (kind.template.before ++ text ++ kind.template.after).toList
      rw [String.toList_append, String.toList_append, controlFree_append, controlFree_append]
      exact ⟨⟨hbefore, h text rfl⟩, hafter⟩
  hints := by
    show ∀ hint ∈ kind.hint?.toList, ControlFree hint.toList
    cases kind <;> decide

theorem plain_new_some {text : String} (h : ControlFree text.toList) :
    (Diagnostic.new kind span (some text)).Plain := by
  apply plain_new
  intro shown hshown
  rw [← Option.some.inj hshown]
  exact h

theorem Plain.line (h : problem.Plain) : ControlFree problem.line.toList := by
  have hplace : ControlFree
      s!"error at {problem.span.start}..{problem.span.stop}: {problem.message}".toList := by
    simp only [String.toList_append, controlFree_append]
    exact ⟨⟨⟨⟨⟨by decide, controlFree_toString _⟩, by decide⟩, controlFree_toString _⟩, by decide⟩,
      h.message⟩
  have hhints : ∀ hint ∈ problem.hints, ControlFree s!" (hint: {hint})".toList := by
    intro hint hhint
    simp only [String.toList_append, controlFree_append]
    exact ⟨⟨by decide, h.hints hint hhint⟩, by decide⟩
  unfold Diagnostic.line
  rw [String.toList_append, controlFree_append]
  refine ⟨hplace, ?_⟩
  rw [String.toList_join]
  intro c hc
  obtain ⟨written, hwritten, hc⟩ := List.mem_flatMap.mp hc
  obtain ⟨hint, hhint, rfl⟩ := List.mem_map.mp hwritten
  exact hhints hint hhint c hc

end Diagnostic

/-! ### What the check says -/

theorem isControl_of_isOperator (h : isOperator c = true) : isControl c = false := by
  simp only [isOperator, Bool.or_eq_true, decide_eq_true_eq] at h
  rcases h with (((rfl | rfl) | rfl) | rfl) | rfl <;> decide

theorem isOperator_of_bar_or_point (h : (decide (c = '|') || decide (c = '.')) = true) :
    isOperator c = true := by
  rw [isOperator, Bool.or_assoc, h, Bool.or_true]

/-- An operator may be named in a message. -/
theorem controlFree_named (hc : isOperator c = true) {behind : String}
    (hbehind : ControlFree behind.toList) : ControlFree ("`" ++ toString c ++ behind).toList := by
  rw [String.toList_append, String.toList_append, controlFree_append, controlFree_append]
  refine ⟨⟨by decide, ?_⟩, hbehind⟩
  show ControlFree (String.singleton c).toList
  rw [String.toList_singleton]
  exact List.forall_mem_singleton.mpr (isControl_of_isOperator hc)

namespace Scan

theorem plain_of_mem_danglingOperator (h : problem ∈ scan.danglingOperator) : problem.Plain := by
  unfold danglingOperator at h
  split at h
  · next c _ =>
    split at h
    · next hc =>
      obtain rfl := List.mem_singleton.mp h
      have hoperator := isOperator_of_bar_or_point hc
      exact Diagnostic.plain_new_some (controlFree_named hoperator (by decide))
    · cases h
  · cases h

theorem plain_of_mem_closingProblems (h : problem ∈ scan.closingProblems) : problem.Plain := by
  rcases List.mem_append.mp h with h | h
  · split at h
    · obtain rfl := List.mem_singleton.mp h
      exact Diagnostic.plain_new_some (by decide)
    · cases h
  · split at h
    · obtain rfl := List.mem_singleton.mp h
      exact Diagnostic.plain_new nofun
    · exact plain_of_mem_danglingOperator h

theorem plain_of_mem_problemsAt (h : problem ∈ scan.problemsAt c) : problem.Plain := by
  simp only [problemsAt] at h
  split at h
  · cases h
  split at h
  · exact plain_of_mem_closingProblems h
  split at h
  · obtain rfl := List.mem_singleton.mp h
    exact Diagnostic.plain_new_some (controlFree_toString _)
  split at h
  · next hc =>
    split at h
    · cases h
    · obtain rfl := List.mem_singleton.mp h
      have hoperator : isOperator c = true := by
        rw [isOperator, hc]
        rfl
      exact Diagnostic.plain_new_some (controlFree_named hoperator (by decide))
  split at h
  · next hc =>
    split at h
    · cases h
    · obtain rfl := List.mem_singleton.mp h
      have hoperator := isOperator_of_bar_or_point hc
      exact Diagnostic.plain_new_some (controlFree_named hoperator (by decide))
  split at h
  · cases h
  · -- the only place where a character of the text is shown that may be a control
    obtain rfl := List.mem_singleton.mp h
    apply Diagnostic.plain_new_some
    rw [String.toList_append, String.toList_append, controlFree_append, controlFree_append]
    exact ⟨⟨by decide, controlFree_quotedChar c⟩, by decide⟩

theorem plain_of_mem_problemsAtEnd (h : problem ∈ scan.problemsAtEnd) : problem.Plain := by
  rcases List.mem_append.mp h with h | h
  · exact plain_of_mem_danglingOperator h
  · obtain ⟨start, -, rfl⟩ := List.mem_map.mp h
    exact Diagnostic.plain_new_some (by decide)

theorem plain_of_mem_problems (h : problem ∈ scan.problems text) : problem.Plain := by
  induction text generalizing scan with
  | nil => exact plain_of_mem_problemsAtEnd h
  | cons c rest ih =>
    rcases List.mem_append.mp h with h | h
    · exact plain_of_mem_problemsAt h
    · exact ih h

end Scan

theorem plain_of_mem_check (h : problem ∈ check text) : problem.Plain := by
  unfold check at h
  split at h
  · obtain rfl := List.mem_singleton.mp h
    exact Diagnostic.plain_new nofun
  · exact Scan.plain_of_mem_problems h

/-! ### Reports -/

/-- The line tells where the problem is, what it is, and what can be done about it. -/
def Diagnostic.ToldBy (problem : Diagnostic) (line : List Char) : Prop :=
  line = "error at ".toList ++ Nat.toDigits 10 problem.span.start ++ "..".toList ++
    Nat.toDigits 10 problem.span.stop ++ ": ".toList ++ problem.message.toList ++
    problem.hints.flatMap fun hint => " (hint: ".toList ++ hint.toList ++ ")".toList

theorem Diagnostic.toldBy_line (problem : Diagnostic) : problem.ToldBy problem.line.toList := by
  simp only [ToldBy, line, String.toList_append, String.toList_join, List.flatMap_map]
  simp only [Nat.toString_eq_ofList_toDigits, String.toList_ofList]
  rfl

/-- Diagnostics that say nothing with a control character in it take a line each. -/
theorem splitOn_plainReport (hne : problems ≠ []) (h : ∀ problem ∈ problems, problem.Plain) :
    (plainReport problems).toList.splitOn '\n' =
      problems.map fun problem => problem.line.toList := by
  have hlines : (plainReport problems).toList =
      ['\n'].intercalate (problems.map fun problem => problem.line.toList) := by
    rw [plainReport, String.toList_intercalate, List.map_map]
    rfl
  rw [hlines]
  apply List.splitOn_intercalate
  · intro line hline
    obtain ⟨problem, hproblem, rfl⟩ := List.mem_map.mp hline
    exact (h problem hproblem).line.newline_not_mem
  · simpa using hne

theorem length_splitOn_newline (text : List Char) :
    (text.splitOn '\n').length = text.count '\n' + 1 := by
  induction text with
  | nil => rfl
  | cons c rest ih =>
    rw [List.splitOn_cons_eq_if_modifyHead, List.count_cons]
    split
    · rw [List.length_cons, ih]
    · rw [List.length_modifyHead, ih]

/-- **Reports without a source.**  The report on a text in which something is wrong has a line for
every problem, in their order, and no line feeds but those between the lines.  A line tells the
place of its problem, the message and the hints, and no control character is shown in a message,
wherever it stands in the text. -/
theorem report_check_of_no_source (h : check text ≠ []) (path : Option String) (colored : Bool) :
    ∃ rendered, report none path colored (check text) = .ok rendered ∧
      rendered.toList.splitOn '\n' = (check text).map (fun problem => problem.line.toList) ∧
      rendered.toList.count '\n' + 1 = (check text).length ∧
      ∀ problem ∈ check text, problem.Plain ∧ problem.ToldBy problem.line.toList := by
  have hplain : ∀ problem ∈ check text, problem.Plain := by
    intro problem hproblem
    exact plain_of_mem_check hproblem
  have hlines := splitOn_plainReport h hplain
  refine ⟨plainReport (check text), rfl, hlines, ?_, ?_⟩
  · rw [← length_splitOn_newline, hlines, List.length_map]
  · intro problem hproblem
    exact ⟨hplain problem hproblem, problem.toldBy_line⟩

/-- A line feed, an escape, an operator beside a brace, and a parenthesis that is not closed. -/
theorem report_check_of_no_source_of_controls :
    check "\n\x1b\x7b|(".toList ≠ [] ∧ (check "\n\x1b\x7b|(".toList).length = 4 ∧
      ∃ rendered, report none none false (check "\n\x1b\x7b|(".toList) = .ok rendered ∧
        rendered.toList.splitOn '\n' =
          (check "\n\x1b\x7b|(".toList).map (fun problem => problem.line.toList) ∧
        rendered.toList.count '\n' + 1 = (check "\n\x1b\x7b|(".toList).length ∧
        ∀ problem ∈ check "\n\x1b\x7b|(".toList,
          problem.Plain ∧ problem.ToldBy problem.line.toList := by
  have hne : check "\n\x1b\x7b|(".toList ≠ [] := by decide
  exact ⟨hne, by decide, report_check_of_no_source hne none false⟩

end PatternAutomata
