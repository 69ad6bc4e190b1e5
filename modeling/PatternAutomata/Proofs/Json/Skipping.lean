import PatternAutomata.Fault
import PatternAutomata.Proofs.Json.Grammar

/-!
# Skipped values

A value is skipped by a loop over its parts with the open brackets on a stack.  What the loop does is
given as a relation that follows the stack and not the fuel; the fuel that it starts with is always
enough.

A value that is well formed is skipped exactly, however deep it is.  And a reader of any shape that
succeeds leaves off where a skipped value ends: so a reader that meets a well-formed value either
fails or takes this value and nothing else.
-/

namespace PatternAutomata.Json

variable {text rest final start word chars : List Char} {bracket : Bracket} {outer : List Bracket}
  {skip : Skip}

/-! ### What is left is shorter -/

theorem length_skipSpace_le (text : List Char) : (skipSpace text).length ≤ text.length :=
  (List.dropWhile_sublist _).length_le

theorem length_lt_of_skipSpace {c : Char} (h : skipSpace text = c :: rest) :
    rest.length < text.length := by
  have hle := length_skipSpace_le text
  rw [h, List.length_cons] at hle
  exact hle

theorem length_le_of_readWord (h : readWord word text = .ok rest) : rest.length ≤ text.length := by
  induction word generalizing text with
  | nil =>
    cases h
    exact Nat.le_refl _
  | cons expected word ih =>
    cases text with
    | nil => cases h
    | cons c text =>
      rw [readWord] at h
      split at h
      · exact Nat.le_succ_of_le (ih h)
      · cases h

theorem length_lt_of_readColon (h : readColon text = .ok rest) : rest.length < text.length := by
  unfold readColon at h
  split at h
  · next heq =>
    cases h
    exact length_lt_of_skipSpace heq
  · cases h
  · cases h

theorem length_lt_of_skipChars (h : skipChars text = .ok rest) : rest.length < text.length := by
  fun_induction skipChars text with
  | case2 =>
    cases h
    exact Nat.lt_succ_self _
  | case3 _ _ _ _ _ _ ih | case6 _ _ _ _ _ ih | case10 _ _ _ _ _ _ _ _ ih =>
    have hlt := ih h
    simp only [List.length_cons]
    omega
  | _ => cases h

theorem length_lt_of_someDigits {digits : List Char} (h : someDigits text = .ok (digits, rest)) :
    rest.length < text.length := by
  have hsum : (digitsOf text).1.length + (digitsOf text).2.length = text.length := by
    rw [digitsOf, ← List.length_append, List.takeWhile_append_dropWhile]
  unfold someDigits at h
  split at h
  · cases h
  · cases h
  · next hnone hsome =>
    rw [Except.ok.inj h] at hsum hsome
    have hpos : 0 < digits.length := by
      refine List.length_pos_iff.mpr fun hnil => ?_
      exact hsome rest (by rw [hnil])
    simp only at hsum
    omega

theorem length_lt_of_scanWhole {whole : List Char} (h : scanWhole text = .ok (whole, rest)) :
    rest.length < text.length := by
  obtain ⟨⟨digits, left⟩, hdigits, h⟩ := bind_eq_ok_iff.mp h
  dsimp only at h
  split at h
  · cases h
  · cases h
    exact length_lt_of_someDigits hdigits

theorem length_le_of_scanFraction {fraction : Option (List Char)}
    (h : scanFraction text = .ok (fraction, rest)) : rest.length ≤ text.length := by
  unfold scanFraction at h
  split at h
  · obtain ⟨⟨digits, left⟩, hdigits, h⟩ := bind_eq_ok_iff.mp h
    cases h
    exact Nat.le_succ_of_le (Nat.le_of_lt (length_lt_of_someDigits hdigits))
  · cases h
    exact Nat.le_refl _

theorem length_powerSign_le (text : List Char) : (powerSign text).2.length ≤ text.length := by
  unfold powerSign
  split
  · exact Nat.le_succ _
  · exact Nat.le_succ _
  · exact Nat.le_refl _

theorem length_le_of_scanPower {power : Option (Bool × List Char)}
    (h : scanPower text = .ok (power, rest)) : rest.length ≤ text.length := by
  unfold scanPower at h
  split at h
  · cases h
    exact Nat.le_refl _
  · next c more =>
    split at h
    · obtain ⟨⟨digits, left⟩, hdigits, h⟩ := bind_eq_ok_iff.mp h
      cases h
      have hlt : rest.length < (powerSign more).2.length := length_lt_of_someDigits hdigits
      have hle := length_powerSign_le more
      rw [List.length_cons]
      omega
    · cases h
      exact Nat.le_refl _

theorem length_lt_of_scanNumber {number : NumberText} (h : scanNumber text = .ok (number, rest)) :
    rest.length < text.length := by
  have hunsigned : ∀ {negative text}, scanUnsigned negative text = .ok (number, rest) →
      rest.length < text.length := by
    intro negative text h
    obtain ⟨⟨whole, more⟩, hwhole, h⟩ := bind_eq_ok_iff.mp h
    obtain ⟨⟨fraction, left⟩, hfraction, h⟩ := bind_eq_ok_iff.mp h
    obtain ⟨⟨power, last⟩, hpower, h⟩ := bind_eq_ok_iff.mp h
    cases h
    have hlt := length_lt_of_scanWhole hwhole
    have hle := length_le_of_scanFraction hfraction
    have hle' := length_le_of_scanPower hpower
    omega
  unfold scanNumber at h
  split at h
  · exact Nat.lt_succ_of_lt (hunsigned h)
  · exact hunsigned h

theorem length_lt_of_skipScalar (h : skipScalar text = .ok rest) : rest.length < text.length := by
  unfold skipScalar at h
  split at h
  · exact Nat.lt_succ_of_le (length_le_of_readWord h)
  · exact Nat.lt_succ_of_le (length_le_of_readWord h)
  · exact Nat.lt_succ_of_le (length_le_of_readWord h)
  · exact Nat.lt_succ_of_lt (length_lt_of_skipChars h)
  · split at h
    · obtain ⟨⟨number, left⟩, hnumber, h⟩ := bind_eq_ok_iff.mp h
      cases h
      exact length_lt_of_scanNumber hnumber
    · cases h
  · cases h

theorem length_lt_of_skipName (h : skipName text = .ok rest) : rest.length < text.length := by
  unfold skipName at h
  split at h
  · next heq =>
    obtain ⟨left, hchars, hcolon⟩ := bind_eq_ok_iff.mp h
    have hlt := length_lt_of_skipSpace heq
    have hlt' := length_lt_of_skipChars hchars
    have hlt'' := length_lt_of_readColon hcolon
    omega
  · cases h
  · cases h

/-! ### The loop as a relation -/

/-- What is left of a value, inside open brackets, is skipped up to the rest of the text. -/
inductive Skips : Skip → List Bracket → List Char → List Char → Prop where
  | done {text : List Char} : Skips .next [] text text
  | scalar {outer : List Bracket} {text rest final : List Char}
    (hscalar : skipScalar (skipSpace text) = .ok rest) (hrest : Skips .next outer rest final) :
    Skips .value outer text final
  | openList {outer : List Bracket} {text rest final : List Char}
    (hstart : skipSpace text = '[' :: rest) (hrest : Skips (.first .list) outer rest final) :
    Skips .value outer text final
  | openObject {outer : List Bracket} {text rest final : List Char}
    (hstart : skipSpace text = '\x7b' :: rest) (hrest : Skips (.first .object) outer rest final) :
    Skips .value outer text final
  | firstClose {outer : List Bracket} {bracket : Bracket} {text rest final : List Char}
    (hstart : skipSpace text = bracket.close :: rest) (hrest : Skips .next outer rest final) :
    Skips (.first bracket) outer text final
  | firstItem {outer : List Bracket} {c : Char} {text rest final : List Char}
    (hstart : skipSpace text = c :: rest) (hclose : c ≠ Bracket.list.close)
    (hrest : Skips .value (.list :: outer) (c :: rest) final) :
    Skips (.first .list) outer text final
  | firstMember {outer : List Bracket} {c : Char} {text rest value final : List Char}
    (hstart : skipSpace text = c :: rest) (hclose : c ≠ Bracket.object.close)
    (hname : skipName (c :: rest) = .ok value)
    (hrest : Skips .value (.object :: outer) value final) : Skips (.first .object) outer text final
  | nextClose {outer : List Bracket} {bracket : Bracket} {text rest final : List Char}
    (hstart : skipSpace text = bracket.close :: rest) (hrest : Skips .next outer rest final) :
    Skips .next (bracket :: outer) text final
  | nextItem {outer : List Bracket} {text rest final : List Char}
    (hstart : skipSpace text = ',' :: rest) (hrest : Skips .value (.list :: outer) rest final) :
    Skips .next (.list :: outer) text final
  | nextMember {outer : List Bracket} {text rest value final : List Char}
    (hstart : skipSpace text = ',' :: rest) (hname : skipName rest = .ok value)
    (hrest : Skips .value (.object :: outer) value final) : Skips .next (.object :: outer) text final

/-- The steps that the loop may take without taking a character. -/
def Skip.margin : Skip → Nat
  | .first _ => 2
  | _ => 1

theorem close_ne_comma (bracket : Bracket) : bracket.close ≠ ',' := by
  cases bracket <;> decide

theorem exists_fuel {n fuel : Nat} (h : n + skip.margin ≤ fuel) : ∃ more, fuel = more + 1 := by
  have hpos : 0 < skip.margin := by cases skip <;> exact Nat.succ_pos _
  exact Nat.exists_eq_add_one_of_ne_zero (by omega)

/-- The fuel is enough if it counts each character twice. -/
theorem Skips.skipFrom_eq (h : Skips skip outer text final) {fuel : Nat}
    (hfuel : 2 * text.length + skip.margin ≤ fuel) : skipFrom fuel skip outer text = .ok final := by
  induction h generalizing fuel with
  | done =>
    obtain ⟨fuel, rfl⟩ := exists_fuel hfuel
    rfl
  | @scalar outer text rest final hscalar _ ih =>
    obtain ⟨fuel, rfl⟩ := exists_fuel hfuel
    have hlt := length_lt_of_skipScalar hscalar
    have hle := length_skipSpace_le text
    simp only [Skip.margin] at hfuel ih
    rw [skipFrom]
    split
    · next heq =>
      rw [heq] at hscalar
      cases hscalar
    · next heq =>
      rw [heq] at hscalar
      cases hscalar
    · rw [hscalar, ok_bind]
      exact ih (by omega)
  | openList hstart _ ih | openObject hstart _ ih =>
    obtain ⟨fuel, rfl⟩ := exists_fuel hfuel
    have hlt := length_lt_of_skipSpace hstart
    simp only [Skip.margin] at hfuel ih
    simp only [skipFrom, hstart]
    exact ih (by omega)
  | firstClose hstart _ ih =>
    obtain ⟨fuel, rfl⟩ := exists_fuel hfuel
    have hlt := length_lt_of_skipSpace hstart
    simp only [Skip.margin] at hfuel ih
    simp only [skipFrom, hstart, if_true]
    exact ih (by omega)
  | firstItem hstart hclose _ ih =>
    obtain ⟨fuel, rfl⟩ := exists_fuel hfuel
    have hlt := length_lt_of_skipSpace hstart
    simp only [Skip.margin, List.length_cons] at hfuel ih
    simp only [skipFrom, hstart, if_neg hclose]
    exact ih (by omega)
  | firstMember hstart hclose hname _ ih =>
    obtain ⟨fuel, rfl⟩ := exists_fuel hfuel
    have hlt := length_lt_of_skipSpace hstart
    have hlt' := length_lt_of_skipName hname
    simp only [Skip.margin, List.length_cons] at hfuel ih hlt'
    simp only [skipFrom, hstart, if_neg hclose, hname, ok_bind]
    exact ih (by omega)
  | @nextClose outer bracket _ _ _ hstart _ ih =>
    obtain ⟨fuel, rfl⟩ := exists_fuel hfuel
    have hlt := length_lt_of_skipSpace hstart
    simp only [Skip.margin] at hfuel ih
    simp only [skipFrom, hstart, if_neg (close_ne_comma bracket), if_true]
    exact ih (by omega)
  | nextItem hstart _ ih =>
    obtain ⟨fuel, rfl⟩ := exists_fuel hfuel
    have hlt := length_lt_of_skipSpace hstart
    simp only [Skip.margin] at hfuel ih
    simp only [skipFrom, hstart, if_true]
    exact ih (by omega)
  | nextMember hstart hname _ ih =>
    obtain ⟨fuel, rfl⟩ := exists_fuel hfuel
    have hlt := length_lt_of_skipSpace hstart
    have hlt' := length_lt_of_skipName hname
    simp only [Skip.margin] at hfuel ih
    simp only [skipFrom, hstart, if_true, hname, ok_bind]
    exact ih (by omega)

/-- A value stands at the beginning of the text, and the rest follows it. -/
def Passes (text rest : List Char) : Prop :=
  ∀ outer final, Skips .next outer rest final → Skips .value outer text final

theorem Passes.skipValue_eq (h : Passes text rest) : skipValue text = .ok rest := by
  refine (h [] rest .done).skipFrom_eq ?_
  exact Nat.add_le_add_left (by decide) _

/-- What follows a value is determined. -/
theorem Passes.unique {other : List Char} (h : Passes text rest) (h' : Passes text other) :
    rest = other := by
  have heq := h.skipValue_eq.symm.trans h'.skipValue_eq
  cases heq
  rfl

/-- What the loop skips with brackets of its own, it skips inside others as well. -/
theorem skips_of_skipFrom {stack : List Bracket} {fuel : Nat}
    (h : skipFrom fuel skip stack text = .ok rest) (hrest : Skips .next outer rest final) :
    Skips skip (stack ++ outer) text final := by
  -- The loop pushes and pops its own brackets only; when they are gone, it has come to the rest.
  fun_induction skipFrom fuel skip stack text with
  | case1 => cases h
  | case2 =>
    cases h
    exact hrest
  | case3 => cases h
  | case4 _ _ _ _ hstart ih => exact .nextItem hstart (ih h)
  | case5 _ _ _ _ hstart ih =>
    obtain ⟨value, hname, h⟩ := bind_eq_ok_iff.mp h
    exact .nextMember hstart hname (ih value h)
  | case6 _ _ _ _ _ hstart _ ih => exact .nextClose hstart (ih h)
  | case7 => cases h
  | case8 => cases h
  | case9 _ _ _ _ _ hstart ih => exact .firstClose hstart (ih h)
  | case10 _ _ _ _ _ hstart hclose ih => exact .firstItem hstart hclose (ih h)
  | case11 _ _ _ _ _ hstart hclose ih =>
    obtain ⟨value, hname, h⟩ := bind_eq_ok_iff.mp h
    exact .firstMember hstart hclose hname (ih value h)
  | case12 _ _ _ _ hstart ih => exact .openList hstart (ih h)
  | case13 _ _ _ _ hstart ih => exact .openObject hstart (ih h)
  | case14 _ _ _ _ _ ih =>
    obtain ⟨left, hscalar, h⟩ := bind_eq_ok_iff.mp h
    exact .scalar hscalar (ih left h)

theorem passes_of_skipValue (h : skipValue text = .ok rest) : Passes text rest :=
  fun _ _ hrest => skips_of_skipFrom h hrest

/-! ### Parts of a value -/

/-- What stands in a bracket from an item on, or from behind one, is skipped. -/
def SkipsIn (bracket : Bracket) (first : Bool) (outer : List Bracket) (text final : List Char) :
    Prop :=
  if first then Skips (.first bracket) outer text final
  else Skips .next (bracket :: outer) text final

/-- Items stand at the beginning of the text, and the rest follows in the same bracket. -/
def Inside (bracket : Bracket) (first : Bool) (text rest : List Char) : Prop :=
  ∀ outer final, Skips .next (bracket :: outer) rest final → SkipsIn bracket first outer text final

/-- The bracket ends in the text, and the rest follows it. -/
def Leaves (bracket : Bracket) (first : Bool) (text rest : List Char) : Prop :=
  ∀ outer final, Skips .next outer rest final → SkipsIn bracket first outer text final

variable {first : Bool} {c : Char} {part : Part} {blanks value : List Char}

theorem Inside.leaves (h : Inside bracket first text value) (h' : Leaves bracket false value rest) :
    Leaves bracket first text rest :=
  fun outer final hrest => h outer final (h' outer final hrest)

theorem Inside.trans (h : Inside bracket first text value) (h' : Inside bracket false value rest) :
    Inside bracket first text rest :=
  fun outer final hrest => h outer final (h' outer final hrest)

theorem leaves_close (h : skipSpace text = bracket.close :: rest) :
    Leaves bracket first text rest := by
  intro outer final hrest
  cases first with
  | false => exact .nextClose h hrest
  | true => exact .firstClose h hrest

theorem inside_firstItem (h : skipSpace text = c :: value) (hclose : c ≠ ']')
    (hvalue : Passes (c :: value) rest) : Inside .list true text rest :=
  fun _ final hrest => .firstItem h hclose (hvalue _ final hrest)

theorem inside_nextItem (h : skipSpace text = ',' :: value) (hvalue : Passes value rest) :
    Inside .list false text rest :=
  fun _ final hrest => .nextItem h (hvalue _ final hrest)

theorem inside_firstMember {quoted : List Char} (h : skipSpace text = '"' :: quoted)
    (hname : skipName ('"' :: quoted) = .ok value) (hvalue : Passes value rest) :
    Inside .object true text rest :=
  fun _ final hrest => .firstMember h (by decide) hname (hvalue _ final hrest)

theorem inside_nextMember {name : List Char} (h : skipSpace text = ',' :: name)
    (hname : skipName name = .ok value) (hvalue : Passes value rest) :
    Inside .object false text rest :=
  fun _ final hrest => .nextMember h hname (hvalue _ final hrest)

theorem passes_scalar (h : skipScalar (skipSpace text) = .ok rest) : Passes text rest :=
  fun _ _ hrest => .scalar h hrest

theorem passes_list (h : skipSpace text = '[' :: value) (hleaves : Leaves .list true value rest) :
    Passes text rest :=
  fun outer final hrest => .openList h (hleaves outer final hrest)

theorem passes_object (h : skipSpace text = '\x7b' :: value)
    (hleaves : Leaves .object true value rest) : Passes text rest :=
  fun outer final hrest => .openObject h (hleaves outer final hrest)

/-! ### Well-formed values are skipped -/

theorem StringText.skipChars_eq (h : StringText text) (rest : List Char) :
    skipChars (text ++ '"' :: rest) = .ok rest := by
  induction h with
  | nil => simp [skipChars]
  | plain hquote hbackslash hcontrol _ ih =>
    rw [List.cons_append, skipChars, if_neg hcontrol, ih]
    all_goals simp [hquote, hbackslash]
  | short hletter _ ih =>
    obtain ⟨hunit, hshort⟩ := shortEscape?_eq hletter
    simp [skipChars, hunit, hshort, ih]
  | unit hunit _ ih => simp [skipChars, hunit, ih]

section Numbers

variable {whole fraction power : List Char}

/-- Neither a digit nor a point goes on where a number ends or its power of ten begins. -/
theorem IsPower.head (h : IsPower power) (hrest : Ended rest) :
    ∀ c ∈ (power ++ rest).head?, c.isDigit = false ∧ c ≠ '.' := by
  cases h with
  | absent =>
    intro c hc
    refine ⟨hrest.not_isDigit c hc, ?_⟩
    cases rest with
    | nil => cases hc
    | cons d rest =>
      cases hc
      exact hrest.ne (by decide) (by decide) (by decide) (by decide)
  | digits hmark =>
    intro c hc
    cases hc
    rcases hmark with rfl | rfl <;> decide

theorem IsFraction.head (h : IsFraction fraction) (hpower : IsPower power) (hrest : Ended rest) :
    ∀ c ∈ (fraction ++ (power ++ rest)).head?, c.isDigit = false := by
  cases h with
  | absent => exact fun c hc => (hpower.head hrest c hc).1
  | digits =>
    intro c hc
    cases hc
    decide

theorem IsFraction.scanFraction_eq (h : IsFraction fraction) (hpower : IsPower power)
    (hrest : Ended rest) :
    ∃ digits, scanFraction (fraction ++ (power ++ rest)) = .ok (digits, power ++ rest) := by
  have hhead := hpower.head hrest
  cases h with
  | absent =>
    refine ⟨none, ?_⟩
    rw [List.nil_append]
    unfold scanFraction
    split
    · next hpoint =>
      rw [hpoint] at hhead
      exact absurd rfl (hhead '.' rfl).2
    · rfl
  | @digits text h =>
    refine ⟨some text, ?_⟩
    rw [List.cons_append]
    simp only [scanFraction, someDigits_append h fun c hc => (hhead c hc).1, ok_bind]
    rfl

theorem powerSign_append {sign : List Char} (hsign : sign = [] ∨ sign = ['+'] ∨ sign = ['-'])
    (h : Digits text) :
    ∃ negative, powerSign (sign ++ (text ++ rest)) = (negative, text ++ rest) := by
  obtain ⟨c, digits, rfl, hc⟩ := h.exists_cons
  rcases hsign with rfl | rfl | rfl
  · refine ⟨false, ?_⟩
    rw [List.nil_append, List.cons_append]
    unfold powerSign
    split
    · next hminus =>
      cases hminus
      exact absurd hc (by decide)
    · next hplus =>
      cases hplus
      exact absurd hc (by decide)
    · rfl
  · exact ⟨false, rfl⟩
  · exact ⟨true, rfl⟩

theorem IsPower.scanPower_eq (h : IsPower power) (hrest : Ended rest) :
    ∃ parts, scanPower (power ++ rest) = .ok (parts, rest) := by
  cases h with
  | absent => exact ⟨none, scanPower_of_ended hrest⟩
  | @digits mark sign text hmark hsign h =>
    obtain ⟨negative, hnegative⟩ := @powerSign_append text rest sign hsign h
    refine ⟨some (negative, text), ?_⟩
    have hmark' : (mark = 'e' || mark = 'E') = true := by simpa using hmark
    rw [List.cons_append, List.append_assoc, scanPower, if_pos hmark', hnegative]
    simp only [someDigits_append h hrest.not_isDigit, ok_bind]
    rfl

theorem IsNumber.scanNumber_eq (h : IsNumber text) (hrest : Ended rest) :
    ∃ number, scanNumber (text ++ rest) = .ok (number, rest) := by
  cases h with
  | @parts sign whole fraction power hsign hwhole hfraction hpower =>
    obtain ⟨digits, hdigits⟩ := hfraction.scanFraction_eq hpower hrest
    obtain ⟨parts, hparts⟩ := hpower.scanPower_eq hrest
    have hunsigned : ∀ negative, scanUnsigned negative (whole ++ (fraction ++ (power ++ rest))) =
        .ok (⟨negative, whole, digits, parts⟩, rest) := by
      intro negative
      simp only [scanUnsigned, hwhole.scanWhole_eq (hfraction.head hpower hrest), hdigits, hparts,
        ok_bind]
      rfl
    simp only [List.append_assoc]
    rcases hsign with rfl | rfl
    · rw [List.nil_append, scanNumber_of_whole hwhole]
      exact ⟨_, hunsigned false⟩
    · exact ⟨_, hunsigned true⟩

theorem IsNumber.begins (h : IsNumber text) :
    ∃ c rest, text = c :: rest ∧ (c = '-' ∨ c.isDigit = true) := by
  cases h with
  | parts hsign hwhole =>
    obtain ⟨c, digits, rfl, hc⟩ := hwhole.1.exists_cons
    rcases hsign with rfl | rfl
    · exact ⟨c, _, rfl, .inr hc⟩
    · exact ⟨'-', _, rfl, .inl rfl⟩

end Numbers

theorem WellFormed.begins (h : WellFormed .value text) :
    ∃ c rest, text = c :: rest ∧ isSpace c = false ∧ c ≠ ']' := by
  cases h with
  | word h =>
    rcases List.mem_cons.mp h with rfl | h
    · exact ⟨'n', _, rfl, by decide, by decide⟩
    rcases List.mem_cons.mp h with rfl | h
    · exact ⟨'t', _, rfl, by decide, by decide⟩
    · rw [List.mem_singleton.mp h]
      exact ⟨'f', _, rfl, by decide, by decide⟩
  | number h =>
    obtain ⟨c, rest, rfl, rfl | hc⟩ := h.begins
    · exact ⟨'-', rest, rfl, by decide, by decide⟩
    · refine ⟨c, rest, rfl, isSpace_of_isDigit hc, ?_⟩
      rintro rfl
      cases hc
  | text => exact ⟨'"', _, rfl, by decide, by decide⟩
  | list => exact ⟨'[', _, rfl, by decide, by decide⟩
  | object => exact ⟨'\x7b', _, rfl, by decide, by decide⟩

theorem skipScalar_word (h : text ∈ words) (rest : List Char) :
    skipScalar (text ++ rest) = .ok rest := by
  rcases List.mem_cons.mp h with rfl | h
  · rfl
  rcases List.mem_cons.mp h with rfl | h
  · rfl
  · rw [List.mem_singleton.mp h]
    rfl

theorem skipScalar_number {number : NumberText} (h : scanNumber text = .ok (number, rest))
    (hbegins : ∃ c more, text = c :: more ∧ (c = '-' ∨ c.isDigit = true)) :
    skipScalar text = .ok rest := by
  obtain ⟨c, more, rfl, hc⟩ := hbegins
  unfold skipScalar
  split
  · next heq => cases heq; rcases hc with hc | hc <;> cases hc
  · next heq => cases heq; rcases hc with hc | hc <;> cases hc
  · next heq => cases heq; rcases hc with hc | hc <;> cases hc
  · next heq => cases heq; rcases hc with hc | hc <;> cases hc
  · next heq =>
    cases heq
    rw [if_pos (by simpa using hc), h]
    rfl
  · next heq => cases heq

theorem skipName_append {name before : List Char} (hblanks : Blank blanks) (hname : StringText name)
    (hbefore : Blank before) (rest : List Char) :
    skipName (blanks ++ '"' :: (name ++ '"' :: (before ++ ':' :: rest))) = .ok rest := by
  rw [skipName, skipSpace_blanks_cons hblanks (by decide)]
  simp only [hname.skipChars_eq, ok_bind, readColon_eq hbefore]

/-- What it is for a part of a text to be skipped, whatever follows it. -/
def Part.IsSkipped : Part → List Char → Prop
  | .value, text =>
    ∀ blanks rest, Blank blanks → Ended rest → Passes (blanks ++ (text ++ rest)) rest
  | .items first, text => ∀ rest, Leaves .list first (text ++ rest) rest
  | .members first, text => ∀ rest, Leaves .object first (text ++ rest) rest

/-- **A well-formed value is skipped**, and nothing else is. -/
theorem WellFormed.isSkipped (h : WellFormed part text) : part.IsSkipped text := by
  -- What follows a value must not go on with it, which matters to numbers only.
  induction h with
  | word h =>
    intro blanks rest hblanks hrest
    obtain ⟨c, more, heq, hc, -⟩ := (WellFormed.word h).begins
    apply passes_scalar
    rw [heq, List.cons_append, skipSpace_blanks_cons hblanks hc, ← List.cons_append, ← heq]
    exact skipScalar_word h rest
  | number h =>
    intro blanks rest hblanks hrest
    obtain ⟨number, hnumber⟩ := h.scanNumber_eq hrest
    obtain ⟨c, more, heq, hc, -⟩ := (WellFormed.number h).begins
    apply passes_scalar
    rw [heq, List.cons_append, skipSpace_blanks_cons hblanks hc, ← List.cons_append, ← heq]
    refine skipScalar_number hnumber ?_
    obtain ⟨c, more, rfl, hc⟩ := h.begins
    exact ⟨c, _, rfl, hc⟩
  | text h =>
    intro blanks rest hblanks _
    apply passes_scalar
    rw [List.cons_append, skipSpace_blanks_cons hblanks (by decide), List.append_assoc]
    exact h.skipChars_eq rest
  | list _ ih =>
    intro blanks rest hblanks _
    exact passes_list (skipSpace_blanks_cons hblanks (by decide)) (ih rest)
  | object _ ih =>
    intro blanks rest hblanks _
    exact passes_object (skipSpace_blanks_cons hblanks (by decide)) (ih rest)
  | closeList hblanks =>
    intro rest
    apply leaves_close
    rw [List.append_assoc]
    exact skipSpace_blanks_cons hblanks (by decide)
  | firstItem hblanks hitem hrest ih ihrest =>
    intro rest
    obtain ⟨c, more, rfl, hc, hclose⟩ := hitem.begins
    refine Inside.leaves ?_ (ihrest rest)
    have hvalue := ih [] _ blank_nil (hrest.ended_items rest)
    simp only [List.append_assoc, List.cons_append, List.nil_append] at hvalue ⊢
    exact inside_firstItem (skipSpace_blanks_cons hblanks hc) hclose hvalue
  | nextItem hbefore hblanks _ hrest ih ihrest =>
    intro rest
    refine Inside.leaves ?_ (ihrest rest)
    have hvalue := ih _ _ hblanks (hrest.ended_items rest)
    simp only [List.append_assoc, List.cons_append]
    exact inside_nextItem (skipSpace_blanks_cons hbefore (by decide)) hvalue
  | closeObject hblanks =>
    intro rest
    apply leaves_close
    rw [List.append_assoc]
    exact skipSpace_blanks_cons hblanks (by decide)
  | firstMember hblanks hname hbefore hafter _ hrest ih ihrest =>
    intro rest
    refine Inside.leaves ?_ (ihrest rest)
    have hvalue := ih _ _ hafter (hrest.ended_members rest)
    simp only [List.append_assoc, List.cons_append]
    exact inside_firstMember (skipSpace_blanks_cons hblanks (by decide))
      (skipName_append blank_nil hname hbefore _) hvalue
  | nextMember hcomma hblanks hname hbefore hafter _ hrest ih ihrest =>
    intro rest
    refine Inside.leaves ?_ (ihrest rest)
    have hvalue := ih _ _ hafter (hrest.ended_members rest)
    simp only [List.append_assoc, List.cons_append]
    exact inside_nextMember (skipSpace_blanks_cons hcomma (by decide))
      (skipName_append hblanks hname hbefore _) hvalue

/-- A well-formed value follows the colon. -/
theorem Follows.exists_passes (h : Follows value written) (hrest : Ended rest) :
    ∃ left, readColon (written ++ rest) = .ok left ∧ Passes left rest := by
  obtain ⟨hvalue, before, after, hbefore, hafter, rfl⟩ := h
  refine ⟨after ++ (value ++ rest), ?_, hvalue.isSkipped after rest hafter hrest⟩
  rw [List.append_assoc, List.cons_append, List.append_assoc, readColon_eq hbefore]

theorem Follows.skipMember_eq (h : Follows value written) (hrest : Ended rest) (state : σ) :
    skipMember state (written ++ rest) = .ok (state, rest) := by
  obtain ⟨left, hcolon, hpasses⟩ := h.exists_passes hrest
  simp only [skipMember, hcolon, hpasses.skipValue_eq, ok_bind]
  rfl

end PatternAutomata.Json
