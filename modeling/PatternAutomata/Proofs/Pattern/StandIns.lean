import Mathlib.Data.List.Forall2
import PatternAutomata.Proofs.Pattern.Reports

/-!
# Symbols in the place of foreign characters

A character that does not belong into a pattern gives one problem and no other.  This is a law of
two scans: one reads a text, the other the same text with a symbol in the place of every foreign
character.  The bytes at which the characters stand differ, so the scans agree on less than what
they remember: the character before is the same or was replaced, and as many groups are open.  That
much decides which kinds of problem show at the next character and at the end of the text.
-/

namespace PatternAutomata

variable {c d : Char} {text filled : List Char} {scan other : Scan} {kind : DiagnosticKind}
  {problems more : List Diagnostic}

/-! ### Kinds of problems -/

/-- The kinds of problems, in order. -/
def kindsOf (problems : List Diagnostic) : List DiagnosticKind :=
  problems.map Diagnostic.kind

@[simp] theorem kindsOf_nil : kindsOf [] = [] := rfl

@[simp] theorem kindsOf_append : kindsOf (problems ++ more) = kindsOf problems ++ kindsOf more :=
  List.map_append

@[simp] theorem kindsOf_new {span : Span} {detail : Option String} :
    kindsOf [.new kind span detail] = [kind] := rfl

theorem not_mem_kindsOf_iff : kind ∉ kindsOf problems ↔ reportsOf kind problems = [] := by
  simp [kindsOf, reportsOf]

/-- The kinds of problems that are no foreign characters. -/
def withoutForeign (kinds : List DiagnosticKind) : List DiagnosticKind :=
  kinds.filter (· ≠ .invalidCharacter)

theorem withoutForeign_append (kinds kinds' : List DiagnosticKind) :
    withoutForeign (kinds ++ kinds') = withoutForeign kinds ++ withoutForeign kinds' :=
  List.filter_append _ _

theorem withoutForeign_of_not_mem {kinds : List DiagnosticKind}
    (h : DiagnosticKind.invalidCharacter ∉ kinds) : withoutForeign kinds = kinds := by
  apply List.filter_eq_self.mpr
  intro kind hkind
  rw [decide_eq_true_eq]
  rintro rfl
  exact h hkind

namespace Scan

/-- The kind of problem of a bar or point, if one is the character before. -/
def danglingKinds (scan : Scan) : List DiagnosticKind :=
  if scan.previous = some '|' ∨ scan.previous = some '.' then [.missingOperand] else []

/-- The kinds of problems that show at a character. -/
def kindsAt (scan : Scan) (c : Char) : List DiagnosticKind :=
  if isForeign c then [.invalidCharacter]
  else if c = ')' then
    (if scan.opened.length = 0 then [.unbalancedParens] else [])
      ++ if scan.previous = some '(' then [.emptyGroup] else scan.danglingKinds
  else if isOperator c then
    if isRepeatOrBar c && scan.previous.any isRepeatOrBar then [.consecutiveOperators]
    else if canFollow scan.previous then [] else [.missingOperand]
  else []

/-- The kinds of problems that show at the end of the text. -/
def kindsAtEnd (scan : Scan) : List DiagnosticKind :=
  scan.danglingKinds ++ List.replicate scan.opened.length .unbalancedParens

theorem kindsOf_danglingOperator (scan : Scan) :
    kindsOf scan.danglingOperator = scan.danglingKinds := by
  unfold danglingOperator danglingKinds
  cases scan.previous with
  | none => simp
  | some c => by_cases hc : c = '|' ∨ c = '.' <;> simp [hc]

theorem kindsOf_closingProblems (scan : Scan) :
    kindsOf scan.closingProblems = scan.kindsAt ')' := by
  have hforeign : isForeign ')' = false := rfl
  rw [closingProblems, kindsOf_append]
  by_cases hopened : scan.opened = [] <;> by_cases hgroup : scan.previous = some '(' <;>
    simp [kindsAt, hforeign, hopened, hgroup, kindsOf_danglingOperator]

theorem kindsOf_problemsAt (scan : Scan) (c : Char) :
    kindsOf (scan.problemsAt c) = scan.kindsAt c := by
  rcases char_cases c with rfl | rfl | hc | rfl | hc | hc
  · rfl
  · exact kindsOf_closingProblems scan
  · obtain ⟨detail, hproblems⟩ := problemsAt_of_isRepeatOrBar scan hc
    have hkinds : isForeign c = false ∧ c ≠ ')' ∧ isOperator c = true := by
      rcases isRepeatOrBar_iff.mp hc with rfl | rfl | rfl | rfl <;> decide
    obtain ⟨hforeign, hclose, hoperator⟩ := hkinds
    rw [hproblems]
    by_cases hprevious : scan.previous.any isRepeatOrBar = true
    · simp [kindsAt, hforeign, hclose, hoperator, hc, hprevious]
    · by_cases hfollow : canFollow scan.previous = true <;>
        simp [kindsAt, hforeign, hclose, hoperator, hprevious, hfollow]
  · obtain ⟨detail, hproblems⟩ := problemsAt_of_point scan
    have hforeign : isForeign '.' = false := rfl
    have hoperator : isOperator '.' = true := rfl
    have hrepeat : isRepeatOrBar '.' = false := rfl
    rw [hproblems]
    by_cases hfollow : canFollow scan.previous = true <;>
      simp [kindsAt, hforeign, hoperator, hrepeat, hfollow]
  · have hforeign : isForeign c = false := by simp [isForeign, hc]
    have hclose : c ≠ ')' := ne_of_isSymbol hc rfl
    rw [problemsAt_of_isSymbol hc]
    simp [kindsAt, hforeign, hclose, isOperator_of_isSymbol hc]
  · obtain ⟨detail, hproblems⟩ := problemsAt_of_isForeign scan hc
    rw [hproblems]
    simp [kindsAt, hc]

theorem kindsOf_problemsAtEnd (scan : Scan) : kindsOf scan.problemsAtEnd = scan.kindsAtEnd := by
  have hopened : kindsOf (scan.opened.reverse.map fun start =>
      .new .unbalancedParens ⟨start, start + 1⟩ "unclosed parentheses") =
      List.replicate scan.opened.length .unbalancedParens := by
    rw [kindsOf, List.map_map, ← List.length_reverse]
    exact List.map_eq_replicate_iff.mpr fun _ _ => rfl
  rw [problemsAtEnd, kindsOf_append, kindsOf_danglingOperator, hopened, kindsAtEnd]

theorem kindsOf_problems_cons : kindsOf (scan.problems (c :: text)) =
    scan.kindsAt c ++ kindsOf ((scan.after c).problems text) := by
  rw [problems, kindsOf_append, kindsOf_problemsAt]

/-! ### Foreign characters are counted -/

theorem invalidCharacter_not_mem_kindsAt (scan : Scan) (hc : isForeign c = false) :
    DiagnosticKind.invalidCharacter ∉ scan.kindsAt c := by
  rw [← kindsOf_problemsAt, not_mem_kindsOf_iff, reportsOf_problemsAt]
  simp [reportsAt, hc]

theorem invalidCharacter_not_mem_kindsAtEnd (scan : Scan) :
    DiagnosticKind.invalidCharacter ∉ scan.kindsAtEnd := by
  rw [← kindsOf_problemsAtEnd, not_mem_kindsOf_iff, reportsOf_problemsAtEnd]
  rfl

theorem count_invalidCharacter_problems (scan : Scan) (text : List Char) :
    (kindsOf (scan.problems text)).count .invalidCharacter = text.countP isForeign := by
  induction text generalizing scan with
  | nil =>
    rw [problems, kindsOf_problemsAtEnd]
    exact List.count_eq_zero.mpr scan.invalidCharacter_not_mem_kindsAtEnd
  | cons c text ih =>
    rw [kindsOf_problems_cons, List.count_append, ih]
    cases hc : isForeign c with
    | false =>
      rw [List.count_eq_zero.mpr (scan.invalidCharacter_not_mem_kindsAt hc),
        List.countP_cons_of_neg (by simp [hc]), Nat.zero_add]
    | true =>
      have hat : scan.kindsAt c = [.invalidCharacter] := by simp [kindsAt, hc]
      rw [hat, List.countP_cons_of_pos hc, List.count_singleton_self, Nat.add_comm]

end Scan

/-! ### A symbol in the place of a foreign character -/

/-- The second character is in the place of the first: a symbol if the first does not belong into a
pattern, and otherwise the same character. -/
inductive StandsIn : Char → Char → Prop where
  | foreign {c d : Char} (hc : isForeign c = true) (hd : isSymbol d = true) : StandsIn c d
  | same {c : Char} (hc : isForeign c = false) : StandsIn c c

/-- The text with one symbol in the place of every character that does not belong into a pattern. -/
def fillForeign (letter : Char) (text : List Char) : List Char :=
  text.map fun c => if isForeign c then letter else c

theorem forall₂_fillForeign {letter : Char} (hletter : isSymbol letter = true) (text : List Char) :
    List.Forall₂ StandsIn text (fillForeign letter text) := by
  induction text with
  | nil => exact .nil
  | cons c text ih =>
    refine .cons ?_ ih
    cases hc : isForeign c with
    | false => simpa [hc] using StandsIn.same hc
    | true => simpa [hc] using StandsIn.foreign hc hletter

namespace StandsIn

/-- Neither a replaced character nor what replaces it is an operator or a parenthesis. -/
theorem eq_iff (h : StandsIn c d) (sign : Char) (hsign : isForeign sign = false)
    (hsymbol : isSymbol sign = false) : d = sign ↔ c = sign := by
  cases h with
  | foreign hc hd =>
    constructor
    · rintro rfl
      rw [hd] at hsymbol
      cases hsymbol
    · rintro rfl
      rw [hc] at hsign
      cases hsign
  | same => exact Iff.rfl

theorem isRepeatOrBar_eq (h : StandsIn c d) : Scan.isRepeatOrBar d = Scan.isRepeatOrBar c := by
  rw [Bool.eq_iff_iff, Scan.isRepeatOrBar_iff, Scan.isRepeatOrBar_iff, h.eq_iff '*' rfl rfl,
    h.eq_iff '+' rfl rfl, h.eq_iff '?' rfl rfl, h.eq_iff '|' rfl rfl]

theorem canFollow_eq (h : StandsIn c d) : Scan.canFollow (some d) = Scan.canFollow (some c) := by
  simp only [Scan.canFollow, h.eq_iff '(' rfl rfl, h.eq_iff '|' rfl rfl,
    h.eq_iff '.' rfl rfl]

end StandsIn

/-! ### Two scans side by side -/

/-- What two scans agree on if the second reads symbols in the place of foreign characters. -/
structure Scan.Alike (scan other : Scan) : Prop where
  previous : Option.Rel StandsIn scan.previous other.previous
  opened : other.opened.length = scan.opened.length

namespace Scan.Alike

theorem after (h : scan.Alike other) (hd : StandsIn c d) :
    (scan.after c).Alike (other.after d) where
  previous := .some hd
  opened := by
    have hopen := hd.eq_iff '(' rfl rfl
    have hclose := hd.eq_iff ')' rfl rfl
    simp only [Scan.after, hopen, hclose]
    split
    · simp [h.opened]
    · split <;> simp [h.opened]

/-- What is the same for a character and for what stands in for it, is the same for the characters
before. -/
theorem congr_previous {α : Type} (h : scan.Alike other) (f : Option Char → α)
    (hf : ∀ c d, StandsIn c d → f (some d) = f (some c)) : f other.previous = f scan.previous := by
  have hprevious := h.previous
  generalize scan.previous = before at hprevious ⊢
  generalize other.previous = before' at hprevious ⊢
  cases hprevious with
  | some hd => exact hf _ _ hd
  | none => rfl

theorem previous_eq_iff (h : scan.Alike other) (sign : Char) (hsign : isForeign sign = false)
    (hsymbol : isSymbol sign = false) : other.previous = some sign ↔ scan.previous = some sign := by
  refine iff_of_eq (h.congr_previous (fun before => before = some sign) fun c d hd => ?_)
  simp [hd.eq_iff sign hsign hsymbol]

theorem any_isRepeatOrBar_eq (h : scan.Alike other) :
    other.previous.any isRepeatOrBar = scan.previous.any isRepeatOrBar :=
  h.congr_previous (fun before => before.any isRepeatOrBar) fun _ _ hd => hd.isRepeatOrBar_eq

theorem canFollow_eq (h : scan.Alike other) :
    canFollow other.previous = canFollow scan.previous :=
  h.congr_previous canFollow fun _ _ hd => hd.canFollow_eq

theorem danglingKinds_eq (h : scan.Alike other) : other.danglingKinds = scan.danglingKinds := by
  simp only [danglingKinds, h.previous_eq_iff '|' rfl rfl,
    h.previous_eq_iff '.' rfl rfl]

theorem kindsAt_eq (h : scan.Alike other) (c : Char) : other.kindsAt c = scan.kindsAt c := by
  simp only [kindsAt, h.opened, h.previous_eq_iff '(' rfl rfl, h.danglingKinds_eq,
    h.any_isRepeatOrBar_eq, h.canFollow_eq]

theorem kindsAtEnd_eq (h : scan.Alike other) : other.kindsAtEnd = scan.kindsAtEnd := by
  rw [kindsAtEnd, kindsAtEnd, h.danglingKinds_eq, h.opened]

/-- At a character and at what stands in for it, the same kinds show but for the foreign
character. -/
theorem kindsAt_standsIn (h : scan.Alike other) (hd : StandsIn c d) :
    other.kindsAt d = withoutForeign (scan.kindsAt c) := by
  cases hd with
  | foreign hc hd =>
    have hat : scan.kindsAt c = [.invalidCharacter] := by simp [kindsAt, hc]
    rw [← kindsOf_problemsAt, problemsAt_of_isSymbol hd, hat]
    rfl
  | same hc =>
    rw [h.kindsAt_eq, withoutForeign_of_not_mem (scan.invalidCharacter_not_mem_kindsAt hc)]

theorem kindsOf_problems (h : scan.Alike other) (hfilled : List.Forall₂ StandsIn text filled) :
    kindsOf (other.problems filled) = withoutForeign (kindsOf (scan.problems text)) := by
  induction hfilled generalizing scan other with
  | nil =>
    rw [problems, problems, kindsOf_problemsAtEnd, kindsOf_problemsAtEnd, h.kindsAtEnd_eq,
      withoutForeign_of_not_mem scan.invalidCharacter_not_mem_kindsAtEnd]
  | cons hd _ ih =>
    rw [kindsOf_problems_cons, kindsOf_problems_cons, withoutForeign_append, h.kindsAt_standsIn hd,
      ih (h.after hd)]

end Scan.Alike

/-! ### The whole check -/

theorem check_eq_problems (hne : text ≠ []) : check text = Scan.problems {} text := by
  rw [check, if_neg (by simpa using hne)]

/-- **One foreign character, one problem.**  If symbols are put in the place of all foreign
characters of a text that is not empty, the check finds the same kinds of problem in the same order,
but for the foreign characters; and of these it had found as many as were replaced.  So a text that
is a pattern but for some foreign characters has one problem for each of them and no other. -/
theorem kindsOf_check_standIns (hne : text ≠ []) (hfilled : List.Forall₂ StandsIn text filled) :
    kindsOf (check filled) = withoutForeign (kindsOf (check text)) ∧
      (kindsOf (check text)).count .invalidCharacter = text.countP isForeign ∧
      (check filled = [] →
        kindsOf (check text) = List.replicate (text.countP isForeign) .invalidCharacter) := by
  have hne' : filled ≠ [] := by
    rintro rfl
    exact hne (List.forall₂_nil_right_iff.mp hfilled)
  have hstart : Scan.Alike {} {} := ⟨.none, rfl⟩
  have hkinds : kindsOf (check filled) = withoutForeign (kindsOf (check text)) := by
    rw [check_eq_problems hne, check_eq_problems hne']
    exact hstart.kindsOf_problems hfilled
  have hcount : (kindsOf (check text)).count .invalidCharacter = text.countP isForeign := by
    rw [check_eq_problems hne]
    exact Scan.count_invalidCharacter_problems {} text
  refine ⟨hkinds, hcount, fun hpattern => ?_⟩
  rw [hpattern, kindsOf_nil, eq_comm, withoutForeign, List.filter_eq_nil_iff] at hkinds
  have hall : ∀ kind ∈ kindsOf (check text), kind = .invalidCharacter := by
    intro kind hkind
    simpa using hkinds kind hkind
  rw [← hcount, List.count_eq_length.mpr fun kind hkind => (hall kind hkind).symm]
  exact List.eq_replicate_of_mem hall

/-- Three foreign characters in the places of operands: alone, in a group and at the end. -/
theorem kindsOf_check_standIns_of_letters :
    "ä|(é.b)*ß".toList ≠ [] ∧
      List.Forall₂ StandsIn "ä|(é.b)*ß".toList "x|(x.b)*x".toList ∧
      check "x|(x.b)*x".toList = [] ∧
      kindsOf (check "ä|(é.b)*ß".toList) =
        [.invalidCharacter, .invalidCharacter, .invalidCharacter] := by
  have hne : "ä|(é.b)*ß".toList ≠ [] := by decide
  have hfilled : List.Forall₂ StandsIn "ä|(é.b)*ß".toList "x|(x.b)*x".toList :=
    @forall₂_fillForeign 'x' rfl "ä|(é.b)*ß".toList
  have hpattern : check "x|(x.b)*x".toList = [] := by decide
  obtain ⟨-, -, hkinds⟩ := kindsOf_check_standIns hne hfilled
  exact ⟨hne, hfilled, hpattern, hkinds hpattern⟩

end PatternAutomata
