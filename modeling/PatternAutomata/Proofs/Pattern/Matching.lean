import PatternAutomata.Proofs.Pattern.Postorder
import PatternAutomata.Text.Lines

/-!
# Parentheses and their partners

Two parentheses are partners if every parenthesis between them has its partner between them.  The
check keeps the places of the groups that are open, innermost first.  Reading a text in which every
parenthesis has its partner leaves these places as they were.  So a closing parenthesis finds none
open exactly if it has no partner, and a place stays open up to the end exactly if its parenthesis
has none.
-/

namespace PatternAutomata

open Text

variable {text left right inner outer : List Char} {c : Char} {scan : Scan} {start : Nat}

/-- The texts in which every parenthesis has its partner. -/
inductive Balanced : List Char → Prop where
  | nil : Balanced []
  | other {c : Char} {text : List Char} (hc : isParenthesis c = false) (h : Balanced text) :
    Balanced (c :: text)
  | group {inner rest : List Char} (hinner : Balanced inner) (hrest : Balanced rest) :
    Balanced ('(' :: inner ++ ')' :: rest)

/-- A closing parenthesis behind the text has its partner in the text. -/
def HasOpener (text : List Char) : Prop :=
  ∃ outer inner, text = outer ++ '(' :: inner ∧ Balanced inner

/-- An opening parenthesis before the text has its partner in the text. -/
def HasCloser (text : List Char) : Prop :=
  ∃ inner outer, text = inner ++ ')' :: outer ∧ Balanced inner

/-! ### Longer texts -/

theorem isParenthesis_eq_false (hopen : c ≠ '(') (hclose : c ≠ ')') : isParenthesis c = false := by
  simp [isParenthesis, hopen, hclose]

theorem Balanced.append (hleft : Balanced left) (hright : Balanced right) :
    Balanced (left ++ right) := by
  induction hleft with
  | nil => exact hright
  | other hc _ ih => exact .other hc ih
  | @group inner rest hinner _ _ ih =>
    have hassoc : '(' :: inner ++ ')' :: rest ++ right = '(' :: inner ++ ')' :: (rest ++ right) := by
      simp
    rw [hassoc]
    exact .group hinner ih

theorem HasOpener.concat (h : HasOpener text) (hc : isParenthesis c = false) :
    HasOpener (text ++ [c]) := by
  obtain ⟨outer, inner, rfl, hinner⟩ := h
  exact ⟨outer, inner ++ [c], by simp, hinner.append (.other hc .nil)⟩

theorem HasOpener.append_group (h : HasOpener outer) (hinner : Balanced inner) :
    HasOpener (outer ++ '(' :: inner ++ [')']) := by
  obtain ⟨outer, inner', rfl, hinner'⟩ := h
  exact ⟨outer, inner' ++ ('(' :: inner ++ [')']), by simp, hinner'.append (.group hinner .nil)⟩

theorem HasCloser.cons (h : HasCloser text) (hc : isParenthesis c = false) :
    HasCloser (c :: text) := by
  obtain ⟨inner, outer, rfl, hinner⟩ := h
  exact ⟨c :: inner, outer, rfl, .other hc hinner⟩

theorem HasCloser.group_append (h : HasCloser outer) (hinner : Balanced inner) :
    HasCloser ('(' :: (inner ++ ')' :: outer)) := by
  obtain ⟨inner', outer, rfl, hinner'⟩ := h
  exact ⟨'(' :: inner ++ ')' :: inner', outer, by simp, .group hinner hinner'⟩

namespace Scan

/-! ### Reading on -/

/-- What is remembered behind a text. -/
def read (scan : Scan) (text : List Char) : Scan :=
  text.foldl Scan.after scan

@[simp] theorem read_nil : scan.read [] = scan := rfl

@[simp] theorem read_cons : scan.read (c :: text) = (scan.after c).read text := rfl

@[simp] theorem read_append : scan.read (left ++ right) = (scan.read left).read right :=
  List.foldl_append

theorem position_read : (scan.read text).position = scan.position + byteLength text := by
  induction text generalizing scan with
  | nil => rfl
  | cons c text ih =>
    rw [read_cons, ih, byteLength, ← Nat.add_assoc]
    rfl

theorem previous_read : (scan.read text).previous = text.getLast?.or scan.previous := by
  rcases List.eq_nil_or_concat text with rfl | ⟨text, c, rfl⟩
  · rfl
  · rw [List.concat_eq_append, read_append, List.getLast?_concat]
    rfl

theorem opened_after_other (scan : Scan) (hc : isParenthesis c = false) :
    (scan.after c).opened = scan.opened := by
  simp only [isParenthesis, Bool.or_eq_false_iff, decide_eq_false_iff_not] at hc
  exact opened_after_of_ne hc.1 hc.2

/-- Behind a balanced text, the groups are open that were open before it. -/
theorem opened_read_of_balanced (scan : Scan) (h : Balanced text) :
    (scan.read text).opened = scan.opened := by
  induction h generalizing scan with
  | nil => rfl
  | other hc _ ih => rw [read_cons, ih, opened_after_other scan hc]
  | @group inner rest _ _ ihinner ihrest =>
    have hclosed : (((scan.after '(').read inner).after ')').opened = scan.opened :=
      congrArg List.tail (ihinner _)
    rw [List.cons_append, read_cons, read_append, read_cons, ihrest, hclosed]

/-- Behind a group that is closed again, the groups are open that were open before it. -/
theorem opened_read_group (scan : Scan) (h : Balanced inner) :
    (((scan.after '(').read inner).after ')').opened = scan.opened :=
  congrArg List.tail (opened_read_of_balanced _ h)

/-! ### Closing parentheses -/

/-- Read from the end, a text either has a group open or leaves none open. -/
theorem hasOpener_or_opened_eq_nil (text : List Char) :
    HasOpener text ∨ ∀ scan : Scan, scan.opened = [] → (scan.read text).opened = [] := by
  induction hlength : text.length using Nat.strong_induction_on generalizing text with
  | h n ih =>
    rcases List.eq_nil_or_concat text with rfl | ⟨before, c, rfl⟩
    · exact .inr fun scan h => h
    rw [List.concat_eq_append] at hlength ⊢
    have hshorter : before.length < n := by simp [← hlength]
    by_cases hopen : c = '('
    · exact .inl ⟨before, [], by rw [hopen], .nil⟩
    rcases ih before.length hshorter before rfl with hopener | hnone
    · by_cases hclose : c = ')'
      · obtain ⟨outer, inner, rfl, hinner⟩ := hopener
        obtain rfl := hclose
        have hshorter' : outer.length < n := by
          simp only [List.length_append, List.length_cons] at hshorter
          omega
        -- the parenthesis closes the innermost group, and the text before that decides
        rcases ih outer.length hshorter' outer rfl with hopener' | hnone'
        · exact .inl (hopener'.append_group hinner)
        · refine .inr fun scan h => ?_
          rw [read_append, read_append, read_cons]
          exact (opened_read_group (scan.read outer) hinner).trans (hnone' scan h)
      · exact .inl (hopener.concat (isParenthesis_eq_false hopen hclose))
    · refine .inr fun scan h => ?_
      have hbefore := hnone scan h
      rw [read_append]
      simp [after, hopen, hbefore]

/-- No group is open behind a text exactly if a closing parenthesis there has no partner. -/
theorem opened_eq_nil_iff : (read {} text).opened = [] ↔ ¬ HasOpener text := by
  constructor
  · rintro h ⟨outer, inner, rfl, hinner⟩
    rw [read_append, read_cons, opened_read_of_balanced _ hinner] at h
    cases h
  · intro h
    exact (hasOpener_or_opened_eq_nil text).resolve_left h {} rfl

/-! ### Opening parentheses -/

/-- Read from the beginning, a text either closes a group from before it or leaves all of them
open. -/
theorem hasCloser_or_suffix (text : List Char) :
    HasCloser text ∨ ∀ scan : Scan, scan.opened <:+ (scan.read text).opened := by
  induction hlength : text.length using Nat.strong_induction_on generalizing text with
  | h n ih =>
    cases text with
    | nil => exact .inr fun scan => List.suffix_rfl
    | cons c rest =>
      have hshorter : rest.length < n := by simp [← hlength]
      by_cases hclose : c = ')'
      · exact .inl ⟨[], rest, by rw [hclose]; rfl, .nil⟩
      rcases ih rest.length hshorter rest rfl with hcloser | hkept
      · by_cases hopen : c = '('
        · obtain ⟨inner, outer, rfl, hinner⟩ := hcloser
          obtain rfl := hopen
          have hshorter' : outer.length < n := by
            simp only [List.length_append, List.length_cons] at hshorter
            omega
          -- the group is closed again, and the text behind that decides
          rcases ih outer.length hshorter' outer rfl with hcloser' | hkept'
          · exact .inl (hcloser'.group_append hinner)
          · refine .inr fun scan => ?_
            have hbehind := hkept' (((scan.after '(').read inner).after ')')
            rw [opened_read_group scan hinner] at hbehind
            rwa [read_cons, read_append, read_cons]
        · exact .inl (hcloser.cons (isParenthesis_eq_false hopen hclose))
      · refine .inr fun scan => ?_
        have hnext : scan.opened <:+ (scan.after c).opened := by
          by_cases hopen : c = '('
          · obtain rfl := hopen
            exact List.suffix_cons _ _
          · rw [opened_after_other scan (isParenthesis_eq_false hopen hclose)]
        exact hnext.trans (hkept (scan.after c))

/-- The groups that are open were opened one after the other in the text read so far. -/
structure Nested (scan : Scan) : Prop where
  descending : scan.opened.Pairwise fun inner outer => outer < inner
  before : ∀ start ∈ scan.opened, start < scan.position

theorem nested_start : Nested {} :=
  ⟨.nil, nofun⟩

theorem Nested.after (h : scan.Nested) (c : Char) : (scan.after c).Nested := by
  have hnext : ∀ start ∈ scan.opened, start < scan.position + c.utf8Size :=
    fun start hstart => Nat.lt_add_right _ (h.before start hstart)
  by_cases hopen : c = '('
  · obtain rfl := hopen
    refine ⟨.cons h.before h.descending, ?_⟩
    intro start hstart
    rcases List.mem_cons.mp hstart with rfl | hstart
    · exact Nat.lt_succ_self _
    · exact hnext start hstart
  by_cases hclose : c = ')'
  · obtain rfl := hclose
    exact ⟨h.descending.tail, fun start hstart => hnext start (List.mem_of_mem_tail hstart)⟩
  · have hsame := opened_after_other scan (isParenthesis_eq_false hopen hclose)
    refine ⟨?_, ?_⟩
    · rw [hsame]
      exact h.descending
    · rw [hsame]
      exact hnext

theorem Nested.read (h : scan.Nested) (text : List Char) : (scan.read text).Nested := by
  induction text generalizing scan with
  | nil => exact h
  | cons c rest ih => exact ih (h.after c)

theorem mem_opened_after (h : start ∈ (scan.after c).opened) :
    start ∈ scan.opened ∨ c = '(' ∧ start = scan.position := by
  by_cases hopen : c = '('
  · obtain rfl := hopen
    rcases List.mem_cons.mp h with rfl | h
    · exact .inr ⟨rfl, rfl⟩
    · exact .inl h
  by_cases hclose : c = ')'
  · obtain rfl := hclose
    exact .inl (List.mem_of_mem_tail h)
  · rw [opened_after_other scan (isParenthesis_eq_false hopen hclose)] at h
    exact .inl h

theorem mem_opened_read (h : start ∈ (scan.read text).opened) :
    start ∈ scan.opened ∨ scan.position ≤ start := by
  induction text generalizing scan with
  | nil => exact .inl h
  | cons c rest ih =>
    rcases ih h with hafter | hle
    · rcases mem_opened_after hafter with hbefore | ⟨-, rfl⟩
      · exact .inl hbefore
      · exact .inr (Nat.le_refl _)
    · exact .inr (Nat.le_trans (Nat.le_add_right _ _) hle)

/-- A group that is closed again is not open any more. -/
theorem Nested.not_mem_opened (hnested : scan.Nested) (h : HasCloser text) :
    scan.position ∉ ((scan.after '(').read text).opened := by
  obtain ⟨inner, outer, rfl, hinner⟩ := h
  intro hmem
  rw [read_append, read_cons] at hmem
  rcases mem_opened_read hmem with hopened | hle
  · rw [opened_read_group scan hinner] at hopened
    exact Nat.lt_irrefl _ (hnested.before _ hopened)
  · have hposition : scan.position < (((scan.after '(').read inner).after ')').position := by
      have hread : (((scan.after '(').read inner).after ')').position =
          scan.position + 1 + byteLength inner + 1 := by
        change ((scan.after '(').read inner).position + 1 = _
        rw [position_read]
        rfl
      omega
    exact absurd hle (Nat.not_le_of_lt hposition)

theorem exists_unclosed (hnested : scan.Nested) (h : start ∈ (scan.read text).opened) :
    start ∈ scan.opened ∨ ∃ before after, text = before ++ '(' :: after ∧ ¬ HasCloser after ∧
      start = scan.position + byteLength before := by
  induction text generalizing scan with
  | nil => exact .inl h
  | cons c rest ih =>
    rcases ih (hnested.after c) h with hafter | ⟨before, after, rfl, hcloser, hstart⟩
    · rcases mem_opened_after hafter with hbefore | ⟨rfl, rfl⟩
      · exact .inl hbefore
      · exact .inr ⟨[], rest, rfl, fun hcloser => hnested.not_mem_opened hcloser h, rfl⟩
    · refine .inr ⟨c :: before, after, rfl, hcloser, ?_⟩
      rw [hstart, byteLength, ← Nat.add_assoc]
      rfl

/-- A group is open behind a text exactly if it is opened there by a parenthesis without partner. -/
theorem mem_opened_iff : start ∈ (read {} text).opened ↔
    ∃ before after, text = before ++ '(' :: after ∧ ¬ HasCloser after ∧
      start = byteLength before := by
  constructor
  · intro h
    rcases exists_unclosed nested_start h with hnone | hread
    · cases hnone
    · simpa using hread
  · rintro ⟨before, after, rfl, hcloser, rfl⟩
    have hkept := (hasCloser_or_suffix after).resolve_left hcloser ((read {} before).after '(')
    have hopened : byteLength before ∈ ((read {} before).after '(').opened := by
      have hposition : (read {} before).position = byteLength before :=
        position_read.trans (Nat.zero_add _)
      rw [← hposition]
      exact List.mem_cons_self
    rw [read_append, read_cons]
    exact hkept.subset hopened

end Scan

end PatternAutomata
