import PatternAutomata.Diagnostic.Snippet
import PatternAutomata.Proofs.Pattern.Matching

/-!
# What the check reports

Of each kind of problem, the check reports what shows at each character in turn, and then what shows
at the end of the text.  At a character it reports a kind once at most, and where the report ends
tells the character, so no report comes twice.  A report stands on the text: on a character that does
not belong into a pattern, on a pair of parentheses with nothing between them, on a parenthesis
without partner, on an operator beside another one, or on an operator that misses an operand.
-/

namespace PatternAutomata

open Text

variable {kind : DiagnosticKind} {problems more : List Diagnostic} {span : Span} {scan : Scan}
  {c : Char} {text : List Char}

/-! ### Defects -/

/-- Whether the character does not belong into a pattern. -/
def isForeign (c : Char) : Bool :=
  !(isSymbol c || isOperator c || isParenthesis c)

/-- The span of a piece of a text behind what comes before it. -/
def spanOf (before piece : List Char) : Span :=
  ⟨byteLength before, byteLength before + byteLength piece⟩

/-- What is wrong with a piece of a text, behind what comes before it. -/
def IsDefect (before piece : List Char) : DiagnosticKind → Prop
  | .emptyPattern => False
  | .invalidCharacter => ∃ c, piece = [c] ∧ isForeign c = true
  | .unbalancedParens => piece = ['('] ∨ piece = [')']
  | .emptyGroup => piece = ['(', ')']
  | .consecutiveOperators => ∃ first second, before.getLast? = some first ∧ piece = [second] ∧
      Scan.isRepeatOrBar first = true ∧ Scan.isRepeatOrBar second = true
  | .missingOperand => ∃ c, piece = [c] ∧ isOperator c = true

/-- The spans that are reported for a kind of problem, in order. -/
def reportsOf (kind : DiagnosticKind) (problems : List Diagnostic) : List Span :=
  (problems.filter (·.kind = kind)).map Diagnostic.span

theorem mem_reportsOf : span ∈ reportsOf kind problems ↔
    ∃ problem ∈ problems, problem.kind = kind ∧ problem.span = span := by
  simp [reportsOf, and_assoc]

@[simp] theorem reportsOf_nil : reportsOf kind [] = [] := rfl

@[simp] theorem reportsOf_append :
    reportsOf kind (problems ++ more) = reportsOf kind problems ++ reportsOf kind more := by
  simp [reportsOf]

@[simp] theorem reportsOf_new {kind' : DiagnosticKind} {detail : Option String} :
    reportsOf kind [.new kind' span detail] = if kind = kind' then [span] else [] := by
  by_cases h : kind = kind'
  · simp [reportsOf, Diagnostic.new, h]
  · simp [reportsOf, Diagnostic.new, h, Ne.symm h]

theorem reportsOf_map_new (kind kind' : DiagnosticKind) (spans : List Span)
    (detail : Option String) :
    reportsOf kind (spans.map fun span => .new kind' span detail) =
      if kind = kind' then spans else [] := by
  induction spans with
  | nil => simp
  | cons span spans ih =>
    rw [List.map_cons, ← List.singleton_append, reportsOf_append, reportsOf_new, ih]
    split <;> rfl

namespace Scan

/-! ### What is reported at a character -/

/-- The span of the next character. -/
def here (scan : Scan) (c : Char) : Span :=
  ⟨scan.position, scan.position + c.utf8Size⟩

/-- The span of a bar or point, if one is the character before. -/
def danglingReports (scan : Scan) : List Span :=
  if scan.previous = some '|' ∨ scan.previous = some '.' then
    [⟨scan.position - 1, scan.position⟩]
  else []

/-- The spans that are reported at a character. -/
def reportsAt (scan : Scan) (c : Char) : DiagnosticKind → List Span
  | .emptyPattern => []
  | .invalidCharacter => if isForeign c then [scan.here c] else []
  | .unbalancedParens => if c = ')' ∧ scan.opened = [] then [scan.here c] else []
  | .emptyGroup =>
    if c = ')' ∧ scan.previous = some '(' then [⟨scan.position - 1, scan.position + 1⟩] else []
  | .consecutiveOperators =>
    if isRepeatOrBar c ∧ scan.previous.any isRepeatOrBar then [scan.here c] else []
  | .missingOperand =>
    if c = ')' then scan.danglingReports
    else if isOperator c ∧ ¬ canFollow scan.previous ∧
      ¬ (isRepeatOrBar c ∧ scan.previous.any isRepeatOrBar) then [scan.here c]
    else []

/-- The spans that are reported at the end of the text. -/
def reportsAtEnd (scan : Scan) : DiagnosticKind → List Span
  | .unbalancedParens => scan.opened.reverse.map fun start => ⟨start, start + 1⟩
  | .missingOperand => scan.danglingReports
  | .emptyPattern | .invalidCharacter | .emptyGroup | .consecutiveOperators => []

theorem isForeign_iff : isForeign c = true ↔
    isSymbol c = false ∧ isOperator c = false ∧ c ≠ '(' ∧ c ≠ ')' := by
  simp [isForeign, isParenthesis, and_assoc]

theorem isRepeatOrBar_iff : isRepeatOrBar c = true ↔ c = '*' ∨ c = '+' ∨ c = '?' ∨ c = '|' := by
  simp [isRepeatOrBar, or_assoc]

theorem isOperator_eq : isOperator c = (isRepeatOrBar c || decide (c = '.')) := rfl

theorem isRepeatOrBar_eq_false (hc : isOperator c = false) : isRepeatOrBar c = false :=
  (Bool.or_eq_false_iff.mp hc).1

theorem char_cases (c : Char) : c = '(' ∨ c = ')' ∨ isRepeatOrBar c = true ∨ c = '.' ∨
    isSymbol c = true ∨ isForeign c = true := by
  by_contra hnone
  simp only [not_or, Bool.not_eq_true] at hnone
  obtain ⟨hopen, hclose, hrepeat, hpoint, hsymbol, hforeign⟩ := hnone
  simp [isForeign, isParenthesis, hopen, hclose, isOperator_eq, hrepeat, hpoint, hsymbol]
    at hforeign

theorem problemsAt_of_isRepeatOrBar (scan : Scan) (hc : isRepeatOrBar c = true) :
    ∃ detail, scan.problemsAt c =
      if scan.previous.any isRepeatOrBar then
        [.new .consecutiveOperators (scan.here c) (toString scan.position)]
      else if canFollow scan.previous then []
      else [.new .missingOperand (scan.here c) (some detail)] := by
  rcases isRepeatOrBar_iff.mp hc with rfl | rfl | rfl | rfl <;> exact ⟨_, rfl⟩

theorem problemsAt_of_point (scan : Scan) :
    ∃ detail, scan.problemsAt '.' =
      if canFollow scan.previous then []
      else [.new .missingOperand (scan.here '.') (some detail)] :=
  ⟨_, rfl⟩

theorem problemsAt_of_isForeign (scan : Scan) (hc : isForeign c = true) :
    ∃ detail, scan.problemsAt c = [.new .invalidCharacter (scan.here c) (some detail)] := by
  obtain ⟨hsymbol, hoperator, hopen, hclose⟩ := isForeign_iff.mp hc
  have hrepeat := isRepeatOrBar_eq_false hoperator
  simp only [isOperator, Bool.or_eq_false_iff, decide_eq_false_iff_not] at hoperator
  obtain ⟨⟨⟨⟨hstar, hplus⟩, hoptional⟩, hbar⟩, hpoint⟩ := hoperator
  refine ⟨"`" ++ quotedChar c ++ "`", ?_⟩
  simp [problemsAt, here, hopen, hclose, hrepeat, hstar, hplus, hoptional, hbar, hpoint, hsymbol]

theorem reportsOf_danglingOperator (kind : DiagnosticKind) (scan : Scan) :
    reportsOf kind scan.danglingOperator =
      if kind = .missingOperand then scan.danglingReports else [] := by
  unfold danglingOperator danglingReports
  cases scan.previous with
  | none => simp
  | some c => by_cases hc : c = '|' ∨ c = '.' <;> simp [hc]

theorem reportsOf_closingProblems (kind : DiagnosticKind) (scan : Scan) :
    reportsOf kind scan.closingProblems = scan.reportsAt ')' kind := by
  have hforeign : isForeign ')' = false := rfl
  have hrepeat : isRepeatOrBar ')' = false := rfl
  have hsize : Char.utf8Size ')' = 1 := rfl
  rw [closingProblems, reportsOf_append]
  by_cases hgroup : scan.previous = some '('
  · by_cases hopened : scan.opened = [] <;> cases kind <;>
      simp [hgroup, hopened, reportsAt, danglingReports, here, hforeign, hrepeat, hsize]
  · by_cases hopened : scan.opened = [] <;> cases kind <;>
      simp [hgroup, hopened, reportsAt, reportsOf_danglingOperator, here, hforeign, hrepeat, hsize]

/-- At every character, each kind is reported where it shows. -/
theorem reportsOf_problemsAt (kind : DiagnosticKind) (scan : Scan) (c : Char) :
    reportsOf kind (scan.problemsAt c) = scan.reportsAt c kind := by
  rcases char_cases c with rfl | rfl | hc | rfl | hc | hc
  · cases kind <;> rfl
  · exact reportsOf_closingProblems kind scan
  · obtain ⟨detail, hproblems⟩ := problemsAt_of_isRepeatOrBar scan hc
    have hkinds : isForeign c = false ∧ c ≠ ')' ∧ isOperator c = true := by
      rcases isRepeatOrBar_iff.mp hc with rfl | rfl | rfl | rfl <;> decide
    obtain ⟨hforeign, hclose, hoperator⟩ := hkinds
    rw [hproblems]
    by_cases hprevious : scan.previous.any isRepeatOrBar = true
    · cases kind <;> simp [hprevious, reportsAt, hc, hforeign, hclose]
    · by_cases hfollow : canFollow scan.previous = true <;> cases kind <;>
        simp [hprevious, hfollow, reportsAt, hforeign, hclose, hoperator]
  · obtain ⟨detail, hproblems⟩ := problemsAt_of_point scan
    have hforeign : isForeign '.' = false := rfl
    have hrepeat : isRepeatOrBar '.' = false := rfl
    have hoperator : isOperator '.' = true := rfl
    rw [hproblems]
    by_cases hfollow : canFollow scan.previous = true <;> cases kind <;>
      simp [hfollow, reportsAt, hforeign, hrepeat, hoperator]
  · have hforeign : isForeign c = false := by simp [isForeign, hc]
    have hclose : c ≠ ')' := ne_of_isSymbol hc rfl
    have hoperator := isOperator_of_isSymbol hc
    rw [problemsAt_of_isSymbol hc]
    cases kind <;>
      simp [reportsAt, hforeign, hclose, hoperator, isRepeatOrBar_eq_false hoperator]
  · obtain ⟨detail, hproblems⟩ := problemsAt_of_isForeign scan hc
    obtain ⟨-, hoperator, -, hclose⟩ := isForeign_iff.mp hc
    rw [hproblems]
    cases kind <;>
      simp [reportsAt, hc, hclose, hoperator, isRepeatOrBar_eq_false hoperator]

theorem reportsOf_problemsAtEnd (kind : DiagnosticKind) (scan : Scan) :
    reportsOf kind scan.problemsAtEnd = scan.reportsAtEnd kind := by
  have hopened := reportsOf_map_new kind .unbalancedParens
    (scan.opened.reverse.map fun start => ⟨start, start + 1⟩) "unclosed parentheses"
  rw [List.map_map] at hopened
  rw [problemsAtEnd, reportsOf_append, reportsOf_danglingOperator]
  refine (congrArg _ hopened).trans ?_
  cases kind <;> simp [reportsAtEnd]

/-! ### What is reported along a text -/

/-- The spans that are reported at the characters of a text, in order. -/
def reports (scan : Scan) (kind : DiagnosticKind) : List Char → List Span
  | [] => []
  | c :: rest => scan.reportsAt c kind ++ (scan.after c).reports kind rest

theorem reportsOf_problems : reportsOf kind (scan.problems text) =
    scan.reports kind text ++ (scan.read text).reportsAtEnd kind := by
  induction text generalizing scan with
  | nil => exact reportsOf_problemsAtEnd kind scan
  | cons c rest ih =>
    rw [problems, reportsOf_append, reportsOf_problemsAt, ih, reports, read_cons, List.append_assoc]

theorem mem_reports : span ∈ scan.reports kind text ↔
    ∃ before c after, text = before ++ c :: after ∧
      span ∈ (scan.read before).reportsAt c kind := by
  induction text generalizing scan with
  | nil => simp [reports]
  | cons c rest ih =>
    rw [reports, List.mem_append, ih]
    constructor
    · rintro (hhere | ⟨before, d, after, rfl, hspan⟩)
      · exact ⟨[], c, rest, rfl, hhere⟩
      · exact ⟨c :: before, d, after, rfl, hspan⟩
    · rintro ⟨before, d, after, htext, hspan⟩
      cases before with
      | nil =>
        cases htext
        exact .inl hspan
      | cons b before =>
        cases htext
        exact .inr ⟨before, d, after, rfl, hspan⟩

/-- At a character a kind is reported once at most, and the report ends with the character; only an
operand that is missing may be reported at the character before. -/
theorem reportsAt_cases (hkind : kind ≠ .missingOperand) (scan : Scan) (c : Char) :
    scan.reportsAt c kind = [] ∨
      ∃ start, scan.reportsAt c kind = [⟨start, (scan.after c).position⟩] := by
  cases kind with
  | emptyPattern => exact .inl rfl
  | invalidCharacter | unbalancedParens | consecutiveOperators =>
    rw [reportsAt]
    split
    · exact .inr ⟨_, rfl⟩
    · exact .inl rfl
  | emptyGroup =>
    rw [reportsAt]
    split
    · next h =>
      obtain ⟨rfl, -⟩ := h
      exact .inr ⟨_, rfl⟩
    · exact .inl rfl
  | missingOperand => exact absurd rfl hkind

theorem position_lt_after (scan : Scan) (c : Char) : scan.position < (scan.after c).position :=
  Nat.lt_add_of_pos_right c.utf8Size_pos

theorem position_lt_stop (hkind : kind ≠ .missingOperand) (h : span ∈ scan.reports kind text) :
    scan.position < span.stop := by
  induction text generalizing scan with
  | nil => cases h
  | cons c rest ih =>
    rcases List.mem_append.mp h with hhere | hrest
    · rcases reportsAt_cases hkind scan c with hnone | ⟨start, hone⟩
      · rw [hnone] at hhere
        cases hhere
      · rw [hone, List.mem_singleton] at hhere
        rw [hhere]
        exact position_lt_after scan c
    · exact Nat.lt_trans (position_lt_after scan c) (ih hrest)

theorem pairwise_reports (hkind : kind ≠ .missingOperand) (scan : Scan) (text : List Char) :
    (scan.reports kind text).Pairwise fun first second => first.stop < second.stop := by
  induction text generalizing scan with
  | nil => exact .nil
  | cons c rest ih =>
    rw [reports]
    rcases reportsAt_cases hkind scan c with hnone | ⟨start, hone⟩
    · rw [hnone]
      exact ih (scan.after c)
    · rw [hone, List.singleton_append, List.pairwise_cons]
      exact ⟨fun second hsecond => position_lt_stop hkind hsecond, ih (scan.after c)⟩

theorem count_reports (hkind : kind ≠ .missingOperand) (h : span ∈ scan.reports kind text) :
    (scan.reports kind text).count span = 1 := by
  apply List.count_eq_one_of_mem _ h
  apply (pairwise_reports hkind scan text).imp
  intro first second hlt heq
  exact Nat.ne_of_lt hlt (congrArg Span.stop heq)

end Scan

/-! ### What the check finds -/

open Scan

theorem reportsOf_check (kind : DiagnosticKind) (h : text ≠ []) :
    reportsOf kind (check text) =
      reports {} kind text ++ (read {} text).reportsAtEnd kind := by
  have hempty : text.isEmpty = false := by simpa using h
  rw [check, hempty]
  exact reportsOf_problems

theorem position_read_start (before : List Char) :
    (read {} before).position = byteLength before :=
  position_read.trans (Nat.zero_add _)

theorem previous_read_start (before : List Char) : (read {} before).previous = before.getLast? := by
  rw [previous_read]
  exact Option.or_none

theorem here_read_start (before : List Char) (c : Char) :
    (read {} before).here c = spanOf before [c] := by
  rw [here, position_read_start]
  rfl

/-- A bar or point that nothing follows. -/
theorem exists_of_mem_danglingReports {before : List Char}
    (h : span ∈ (read {} before).danglingReports) :
    ∃ earlier c, before = earlier ++ [c] ∧ isOperator c = true ∧ span = spanOf earlier [c] := by
  unfold danglingReports at h
  split at h
  · next hprevious =>
    rw [previous_read_start] at hprevious
    have hlast : ∃ c, before.getLast? = some c ∧ isOperator c = true ∧ c.utf8Size = 1 := by
      rcases hprevious with hbar | hpoint
      · exact ⟨'|', hbar, rfl, rfl⟩
      · exact ⟨'.', hpoint, rfl, rfl⟩
    obtain ⟨c, hlast, hoperator, hsize⟩ := hlast
    obtain ⟨earlier, rfl⟩ := List.getLast?_eq_some_iff.mp hlast
    refine ⟨earlier, c, rfl, hoperator, ?_⟩
    rw [List.mem_singleton.mp h, position_read_start, byteLength_append]
    simp [spanOf, byteLength, hsize]
  · cases h

/-- A pair of parentheses with nothing between them. -/
theorem emptyGroup_span (earlier : List Char) :
    (⟨(read {} (earlier ++ ['('])).position - 1, (read {} (earlier ++ ['('])).position + 1⟩ : Span) =
      spanOf earlier ['(', ')'] := by
  have hposition : (read {} (earlier ++ ['('])).position = byteLength earlier + 1 := by
    rw [position_read_start, byteLength_append]
    rfl
  rw [hposition]
  rfl

/-- What is reported at a character stands on a defect. -/
theorem exists_defect_of_mem_reportsAt {before : List Char} (after : List Char)
    (h : span ∈ (read {} before).reportsAt c kind) :
    ∃ earlier piece later, before ++ c :: after = earlier ++ piece ++ later ∧
      span = spanOf earlier piece ∧ IsDefect earlier piece kind := by
  cases kind with
  | emptyPattern => cases h
  | invalidCharacter =>
    obtain ⟨hc, hspan⟩ := List.mem_ite_nil_right.mp h
    rw [List.mem_singleton.mp hspan, here_read_start]
    exact ⟨before, [c], after, by simp, rfl, c, rfl, hc⟩
  | unbalancedParens =>
    obtain ⟨⟨rfl, -⟩, hspan⟩ := List.mem_ite_nil_right.mp h
    rw [List.mem_singleton.mp hspan, here_read_start]
    exact ⟨before, [')'], after, by simp, rfl, .inr rfl⟩
  | emptyGroup =>
    obtain ⟨⟨rfl, hprevious⟩, hspan⟩ := List.mem_ite_nil_right.mp h
    rw [previous_read_start] at hprevious
    obtain ⟨earlier, rfl⟩ := List.getLast?_eq_some_iff.mp hprevious
    rw [List.mem_singleton.mp hspan, emptyGroup_span]
    exact ⟨earlier, ['(', ')'], after, by simp, rfl, rfl⟩
  | consecutiveOperators =>
    obtain ⟨⟨hc, hprevious⟩, hspan⟩ := List.mem_ite_nil_right.mp h
    rw [previous_read_start, Option.any_eq_true] at hprevious
    obtain ⟨first, hlast, hfirst⟩ := hprevious
    rw [List.mem_singleton.mp hspan, here_read_start]
    exact ⟨before, [c], after, by simp, rfl, first, c, hlast, rfl, hfirst, hc⟩
  | missingOperand =>
    rw [reportsAt] at h
    split at h
    · next hc =>
      obtain ⟨earlier, d, rfl, hoperator, hspan⟩ := exists_of_mem_danglingReports h
      exact ⟨earlier, [d], c :: after, rfl, hspan, d, rfl, hoperator⟩
    · obtain ⟨⟨hc, -⟩, hspan⟩ := List.mem_ite_nil_right.mp h
      rw [List.mem_singleton.mp hspan, here_read_start]
      exact ⟨before, [c], after, by simp, rfl, c, rfl, hc⟩

/-- What is reported at the end of a text stands on a defect. -/
theorem exists_defect_of_mem_reportsAtEnd (h : span ∈ (read {} text).reportsAtEnd kind) :
    ∃ earlier piece later, text = earlier ++ piece ++ later ∧ span = spanOf earlier piece ∧
      IsDefect earlier piece kind := by
  cases kind with
  | emptyPattern | invalidCharacter | emptyGroup | consecutiveOperators => cases h
  | unbalancedParens =>
    obtain ⟨start, hstart, rfl⟩ := List.mem_map.mp h
    obtain ⟨before, after, rfl, -, rfl⟩ := mem_opened_iff.mp (List.mem_reverse.mp hstart)
    exact ⟨before, ['('], after, by simp, rfl, .inl rfl⟩
  | missingOperand =>
    obtain ⟨earlier, c, rfl, hoperator, hspan⟩ := exists_of_mem_danglingReports h
    exact ⟨earlier, [c], [], by simp, hspan, c, rfl, hoperator⟩

theorem exists_defect_of_mem_check (hne : text ≠ []) {problem : Diagnostic}
    (h : problem ∈ check text) :
    ∃ before piece after, text = before ++ piece ++ after ∧ problem.span = spanOf before piece ∧
      IsDefect before piece problem.kind := by
  have hspan : problem.span ∈ reportsOf problem.kind (check text) :=
    mem_reportsOf.mpr ⟨problem, h, rfl, rfl⟩
  rw [reportsOf_check problem.kind hne] at hspan
  rcases List.mem_append.mp hspan with hread | hend
  · obtain ⟨before, c, after, rfl, hat⟩ := mem_reports.mp hread
    exact exists_defect_of_mem_reportsAt after hat
  · exact exists_defect_of_mem_reportsAtEnd hend

/-! ### Every defect, and once -/

/-- A kind that the end of the text adds nothing to is reported once where it shows. -/
theorem count_of_mem_reportsAt {before after : List Char} (hkind : kind ≠ .missingOperand)
    (hend : ∀ scan : Scan, scan.reportsAtEnd kind = [])
    (h : span ∈ (read {} before).reportsAt c kind) :
    (reportsOf kind (check (before ++ c :: after))).count span = 1 := by
  have hne : before ++ c :: after ≠ [] := by simp
  rw [reportsOf_check kind hne, hend, List.append_nil]
  exact count_reports hkind (mem_reports.mpr ⟨before, c, after, rfl, h⟩)

theorem count_invalidCharacter (before after : List Char) (hc : isForeign c = true) :
    (reportsOf .invalidCharacter (check (before ++ c :: after))).count (spanOf before [c]) = 1 := by
  have hat : spanOf before [c] ∈ (read {} before).reportsAt c .invalidCharacter := by
    rw [← here_read_start]
    exact List.mem_ite_nil_right.mpr ⟨hc, List.mem_singleton_self _⟩
  exact count_of_mem_reportsAt nofun (fun _ => rfl) hat

theorem count_emptyGroup (before after : List Char) :
    (reportsOf .emptyGroup (check (before ++ '(' :: ')' :: after))).count
      (spanOf before ['(', ')']) = 1 := by
  have htext : before ++ '(' :: ')' :: after = before ++ ['('] ++ ')' :: after := by simp
  have hat : spanOf before ['(', ')'] ∈ (read {} (before ++ ['('])).reportsAt ')' .emptyGroup := by
    rw [← emptyGroup_span]
    refine List.mem_ite_nil_right.mpr ⟨⟨rfl, ?_⟩, List.mem_singleton_self _⟩
    rw [previous_read_start, List.getLast?_concat]
  rw [htext]
  exact count_of_mem_reportsAt nofun (fun _ => rfl) hat

theorem count_consecutiveOperators (before after : List Char) {first second : Char}
    (hfirst : isRepeatOrBar first = true) (hsecond : isRepeatOrBar second = true) :
    (reportsOf .consecutiveOperators (check (before ++ first :: second :: after))).count
      (spanOf (before ++ [first]) [second]) = 1 := by
  have htext : before ++ first :: second :: after = before ++ [first] ++ second :: after := by simp
  have hat : spanOf (before ++ [first]) [second] ∈
      (read {} (before ++ [first])).reportsAt second .consecutiveOperators := by
    rw [← here_read_start]
    refine List.mem_ite_nil_right.mpr ⟨⟨hsecond, ?_⟩, List.mem_singleton_self _⟩
    rw [previous_read_start, List.getLast?_concat]
    exact hfirst
  rw [htext]
  exact count_of_mem_reportsAt nofun (fun _ => rfl) hat

/-! ### Parentheses without partner -/

/-- The spans of the places of a character at which something holds of the text before it and behind
it, in the order of the text. -/
structure Lists (text : List Char) (c : Char) (wanted : List Char → List Char → Prop)
    (spans : List Span) : Prop where
  ordered : spans.Pairwise fun first second => first.start < second.start
  mem_iff : ∀ span, span ∈ spans ↔
    ∃ before after, text = before ++ c :: after ∧ wanted before after ∧ span = spanOf before [c]

theorem lists_unopened (text : List Char) :
    Lists text ')' (fun before _ => ¬ HasOpener before) (reports {} .unbalancedParens text) := by
  have hmem : ∀ span, span ∈ reports {} .unbalancedParens text ↔ ∃ before after,
      text = before ++ ')' :: after ∧ ¬ HasOpener before ∧ span = spanOf before [')'] := by
    intro span
    rw [mem_reports]
    constructor
    · rintro ⟨before, c, after, rfl, hat⟩
      obtain ⟨⟨rfl, hopened⟩, hspan⟩ := List.mem_ite_nil_right.mp hat
      rw [List.mem_singleton.mp hspan, here_read_start]
      exact ⟨before, after, rfl, opened_eq_nil_iff.mp hopened, rfl⟩
    · rintro ⟨before, after, rfl, hopener, rfl⟩
      rw [← here_read_start]
      exact ⟨before, ')', after, rfl, List.mem_ite_nil_right.mpr
        ⟨⟨rfl, opened_eq_nil_iff.mpr hopener⟩, List.mem_singleton_self _⟩⟩
  have hkind : DiagnosticKind.unbalancedParens ≠ .missingOperand := nofun
  refine ⟨?_, hmem⟩
  apply (pairwise_reports hkind {} text).imp_of_mem
  intro first second hfirst hsecond hstop
  obtain ⟨before, -, -, -, rfl⟩ := (hmem first).mp hfirst
  obtain ⟨before', -, -, -, rfl⟩ := (hmem second).mp hsecond
  exact Nat.lt_of_add_lt_add_right hstop

theorem lists_unclosed (text : List Char) :
    Lists text '(' (fun _ after => ¬ HasCloser after)
      ((read {} text).reportsAtEnd .unbalancedParens) := by
  refine ⟨?_, ?_⟩
  · rw [reportsAtEnd, List.pairwise_map, List.pairwise_reverse]
    exact (nested_start.read text).descending
  · intro span
    rw [reportsAtEnd, List.mem_map]
    constructor
    · rintro ⟨start, hstart, rfl⟩
      obtain ⟨before, after, rfl, hcloser, rfl⟩ := mem_opened_iff.mp (List.mem_reverse.mp hstart)
      exact ⟨before, after, rfl, hcloser, rfl⟩
    · rintro ⟨before, after, rfl, hcloser, rfl⟩
      refine ⟨byteLength before, List.mem_reverse.mpr ?_, rfl⟩
      exact mem_opened_iff.mpr ⟨before, after, rfl, hcloser, rfl⟩

/-! ### The whole report -/

/-- The problems are the defects of a text: each stands on a defect of its kind, and each defect of a
kind that needs no context is reported once. -/
structure PointsOut (text : List Char) (problems : List Diagnostic) : Prop where
  sound : ∀ problem ∈ problems, ∃ before piece after, text = before ++ piece ++ after ∧
    problem.span = spanOf before piece ∧ IsDefect before piece problem.kind
  foreign : ∀ before c after, text = before ++ c :: after → isForeign c = true →
    (reportsOf .invalidCharacter problems).count (spanOf before [c]) = 1
  empty : ∀ before after, text = before ++ '(' :: ')' :: after →
    (reportsOf .emptyGroup problems).count (spanOf before ['(', ')']) = 1
  consecutive : ∀ before first second after, text = before ++ first :: second :: after →
    isRepeatOrBar first = true → isRepeatOrBar second = true →
    (reportsOf .consecutiveOperators problems).count (spanOf (before ++ [first]) [second]) = 1
  /-- The parentheses without partner: those that close a group, then those that open one. -/
  unbalanced : ∃ closing opening, reportsOf .unbalancedParens problems = closing ++ opening ∧
    Lists text ')' (fun before _ => ¬ HasOpener before) closing ∧
    Lists text '(' (fun _ after => ¬ HasCloser after) opening

theorem pointsOut_check (hne : text ≠ []) : PointsOut text (check text) where
  sound _ hproblem := exists_defect_of_mem_check hne hproblem
  foreign before _ after htext hc := htext ▸ count_invalidCharacter before after hc
  empty before after htext := htext ▸ count_emptyGroup before after
  consecutive before _ _ after htext hfirst hsecond :=
    htext ▸ count_consecutiveOperators before after hfirst hsecond
  unbalanced := ⟨_, _, reportsOf_check _ hne, lists_unopened text, lists_unclosed text⟩

/-- The span stands on characters of the text, and drawing it changes nothing about it. -/
structure Span.Within (span : Span) (text : List Char) : Prop where
  nonempty : span.start < span.stop
  inside : span.stop ≤ byteLength text
  start_boundary : isBoundary span.start text = true
  stop_boundary : isBoundary span.stop text = true
  clamp_eq : span.clamp (byteLength text) = span

theorem IsDefect.ne_nil {before piece : List Char} (h : IsDefect before piece kind) :
    piece ≠ [] := by
  rintro rfl
  cases kind <;> simp [IsDefect] at h

theorem spanOf_within {before piece : List Char} (after : List Char) (hpiece : piece ≠ []) :
    (spanOf before piece).Within (before ++ piece ++ after) := by
  have hnonempty : (spanOf before piece).start < (spanOf before piece).stop :=
    Nat.lt_add_of_pos_right (byteLength_pos hpiece)
  have hstop : (spanOf before piece).stop = byteLength (before ++ piece) :=
    (byteLength_append before piece).symm
  have hinside : (spanOf before piece).stop ≤ byteLength (before ++ piece ++ after) := by
    rw [hstop, byteLength_append (before ++ piece)]
    exact Nat.le_add_right _ _
  refine ⟨hnonempty, hinside, ?_, ?_, Span.clamp_of_inside hnonempty hinside⟩
  · rw [List.append_assoc]
    exact isBoundary_append before (piece ++ after)
  · rw [hstop]
    exact isBoundary_append (before ++ piece) after

/-- **What the check reports.**  In a text that is not empty, every problem stands on a defect of its
kind, and its span lies on whole characters of the text and is drawn as it is.  Every foreign
character, every empty pair of parentheses and every two neighbours of repeats and bars are reported
once, and so is every parenthesis without partner: first those that close a group, then those that
open one. -/
theorem check_points_out (hne : text ≠ []) :
    PointsOut text (check text) ∧ ∀ problem ∈ check text, problem.span.Within text := by
  refine ⟨pointsOut_check hne, ?_⟩
  intro problem hproblem
  obtain ⟨before, piece, after, rfl, hspan, hdefect⟩ := exists_defect_of_mem_check hne hproblem
  rw [hspan]
  exact spanOf_within after hdefect.ne_nil

/-- Defects of every kind, behind a character of two bytes. -/
theorem check_points_out_of_defects :
    "é)a*|()(.".toList ≠ [] ∧
      (check "é)a*|()(.".toList).map (fun problem => (problem.kind, problem.span)) =
        [(.invalidCharacter, ⟨0, 2⟩), (.unbalancedParens, ⟨2, 3⟩), (.consecutiveOperators, ⟨5, 6⟩),
          (.emptyGroup, ⟨6, 8⟩), (.missingOperand, ⟨9, 10⟩), (.missingOperand, ⟨9, 10⟩),
          (.unbalancedParens, ⟨8, 9⟩)] ∧
      PointsOut "é)a*|()(.".toList (check "é)a*|()(.".toList) ∧
      ∀ problem ∈ check "é)a*|()(.".toList, problem.span.Within "é)a*|()(.".toList := by
  have hne : "é)a*|()(.".toList ≠ [] := by decide
  exact ⟨hne, by decide, check_points_out hne⟩

end PatternAutomata
