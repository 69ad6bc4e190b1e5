import Mathlib.Tactic.SplitIfs
import PatternAutomata.Json.Reading
import PatternAutomata.Json.Value

/-!
# Spelled strings and written numbers read back

A string is spelled in many ways: a character stands for itself, or it is escaped by a backslash and
a letter, by the hexadecimal digits of its number, or by those of the two halves of a surrogate
pair.  However a string is spelled, it is read back as it was, and what is written is one of its
spellings.  A number is read back too, if what follows it does not continue it: no digit, point or
power of ten may come next.
-/

namespace PatternAutomata.Json

/-! ### Strings -/

/-- The letters that may follow a backslash, and the characters that they stand for. -/
def shortEscapes : List (Char × Char) :=
  [('"', '"'), ('\\', '\\'), ('/', '/'), ('b', '\x08'), ('f', '\x0c'), ('n', '\n'), ('r', '\r'),
    ('t', '\t')]

/-- The text, up to a closing mark, is one of the spellings of the characters. -/
inductive Spells : List Char → List Char → Prop where
  | nil : Spells [] []
  | plain {text chars : List Char} {c : Char} (hquote : c ≠ '"') (hbackslash : c ≠ '\\')
    (hcontrol : ¬ c.toNat < 0x20) (hrest : Spells text chars) : Spells (c :: text) (c :: chars)
  | short {text chars : List Char} {letter c : Char} (hletter : (letter, c) ∈ shortEscapes)
    (hrest : Spells text chars) : Spells ('\\' :: letter :: text) (c :: chars)
  | unit {text chars : List Char} {d₁ d₂ d₃ d₄ c : Char}
    (hunit : hexUnit? d₁ d₂ d₃ d₄ = some c.toNat) (hrest : Spells text chars) :
    Spells ('\\' :: 'u' :: d₁ :: d₂ :: d₃ :: d₄ :: text) (c :: chars)
  | pair {text chars : List Char} {d₁ d₂ d₃ d₄ e₁ e₂ e₃ e₄ c : Char} {high low : Nat}
    (hhigh : hexUnit? d₁ d₂ d₃ d₄ = some high) (hlow : hexUnit? e₁ e₂ e₃ e₄ = some low)
    (hhighRange : 0xd800 ≤ high ∧ high < 0xdc00) (hlowRange : 0xdc00 ≤ low ∧ low < 0xe000)
    (hchar : c.toNat = 0x10000 + (high - 0xd800) * 0x400 + (low - 0xdc00))
    (hrest : Spells text chars) :
    Spells ('\\' :: 'u' :: d₁ :: d₂ :: d₃ :: d₄ :: '\\' :: 'u' :: e₁ :: e₂ :: e₃ :: e₄ :: text)
      (c :: chars)

section Strings

variable {c letter : Char} {text chars : List Char}

theorem shortEscape?_eq (h : (letter, c) ∈ shortEscapes) :
    letter ≠ 'u' ∧ shortEscape? letter = some c := by
  have hall : ∀ entry ∈ shortEscapes, entry.1 ≠ 'u' ∧ shortEscape? entry.1 = some entry.2 := by
    decide
  exact hall _ h

theorem readChars_plain (hquote : c ≠ '"') (hbackslash : c ≠ '\\') (hcontrol : ¬ c.toNat < 0x20) :
    readChars (c :: text) = prepend c (readChars text) := by
  rw [readChars, if_neg hcontrol]
  all_goals simp [hquote, hbackslash]

theorem readChars_short (h : (letter, c) ∈ shortEscapes) :
    readChars ('\\' :: letter :: text) = prepend c (readChars text) := by
  obtain ⟨hunit, hshort⟩ := shortEscape?_eq h
  simp [readChars, hunit, hshort]

/-- The number of a character is no half of a surrogate pair. -/
theorem readChars_unit {d₁ d₂ d₃ d₄ : Char} (h : hexUnit? d₁ d₂ d₃ d₄ = some c.toNat) :
    readChars ('\\' :: 'u' :: d₁ :: d₂ :: d₃ :: d₄ :: text) = prepend c (readChars text) := by
  have hvalid : c.toNat < 0xd800 ∨ 0xdfff < c.toNat ∧ c.toNat < 0x110000 := c.valid
  have hlow : isLowSurrogate c.toNat = false := decide_eq_false fun hle => by omega
  have hhigh : isHighSurrogate c.toNat = false := decide_eq_false fun hle => by omega
  simp [readChars, h, hlow, hhigh]

theorem readChars_pair {d₁ d₂ d₃ d₄ e₁ e₂ e₃ e₄ : Char} {high low : Nat}
    (hhigh : hexUnit? d₁ d₂ d₃ d₄ = some high) (hlow : hexUnit? e₁ e₂ e₃ e₄ = some low)
    (hhighRange : 0xd800 ≤ high ∧ high < 0xdc00) (hlowRange : 0xdc00 ≤ low ∧ low < 0xe000)
    (hchar : c.toNat = 0x10000 + (high - 0xd800) * 0x400 + (low - 0xdc00)) :
    readChars ('\\' :: 'u' :: d₁ :: d₂ :: d₃ :: d₄ ::
      '\\' :: 'u' :: e₁ :: e₂ :: e₃ :: e₄ :: text) = prepend c (readChars text) := by
  have hnotLow : isLowSurrogate high = false := decide_eq_false fun hle => by omega
  have hisHigh : isHighSurrogate high = true := decide_eq_true hhighRange
  have hisLow : isLowSurrogate low = true := decide_eq_true hlowRange
  have hpair : pairChar high low = c := by rw [pairChar, ← hchar, Char.ofNat_toNat]
  simp [readChars, hhigh, hlow, hnotLow, hisHigh, hisLow, hpair]

/-- A spelled string is read up to its closing mark. -/
theorem Spells.readChars_eq (h : Spells text chars) (rest : List Char) :
    readChars (text ++ '"' :: rest) = .ok (chars, rest) := by
  induction h with
  | nil => simp [readChars]
  | plain hquote hbackslash hcontrol _ ih =>
    rw [List.cons_append, readChars_plain hquote hbackslash hcontrol, ih]
    rfl
  | short hletter _ ih =>
    rw [List.cons_append, List.cons_append, readChars_short hletter, ih]
    rfl
  | unit hunit _ ih =>
    simp only [List.cons_append]
    rw [readChars_unit hunit, ih]
    rfl
  | pair hhigh hlow hhighRange hlowRange hchar _ ih =>
    simp only [List.cons_append]
    rw [readChars_pair hhigh hlow hhighRange hlowRange hchar, ih]
    rfl

theorem hexUnit?_hexDigit :
    ∀ n < 0x20, hexUnit? '0' '0' (hexDigit (n / 16)) (hexDigit n) = some n := by
  decide

theorem Spells.escapeChar (h : Spells text chars) (c : Char) :
    Spells (escapeChar c ++ text) (c :: chars) := by
  unfold Json.escapeChar
  split_ifs with hquote hbackslash hnewline hreturn htab hbackspace hfeed hcontrol
  · exact .short (by simp [shortEscapes, hquote]) h
  · exact .short (by simp [shortEscapes, hbackslash]) h
  · exact .short (by simp [shortEscapes, hnewline]) h
  · exact .short (by simp [shortEscapes, hreturn]) h
  · exact .short (by simp [shortEscapes, htab]) h
  · exact .short (by simp [shortEscapes, hbackspace]) h
  · exact .short (by simp [shortEscapes, hfeed]) h
  · exact .unit (hexUnit?_hexDigit c.toNat hcontrol) h
  · exact .plain hquote hbackslash hcontrol h

/-- What is written between the marks of a string spells it. -/
theorem spells_flatMap_escapeChar (chars : List Char) : Spells (chars.flatMap escapeChar) chars := by
  induction chars with
  | nil => exact .nil
  | cons c chars ih => exact ih.escapeChar c

end Strings

/-! ### Numbers -/

/-- A value may end before the text: a blank, a comma or a closing bracket comes next, or
nothing. -/
def Ended (text : List Char) : Prop :=
  ∀ c ∈ text.head?, isSpace c = true ∨ c = ',' ∨ c = ']' ∨ c = '\x7d'

section Numbers

variable {c : Char} {digits rest text whole : List Char} {n taken : Nat}

theorem Ended.not_isDigit (h : Ended text) : ∀ c ∈ text.head?, c.isDigit = false := by
  intro c hc
  have hcases := h c hc
  simp only [isSpace, Bool.or_eq_true, decide_eq_true_eq] at hcases
  rcases hcases with (((rfl | rfl) | rfl) | rfl) | rfl | rfl | rfl <;> decide

theorem Ended.ne {d : Char} (h : Ended (c :: text)) (hspace : isSpace d = false) (hcomma : d ≠ ',')
    (hlist : d ≠ ']') (hobject : d ≠ '\x7d') : c ≠ d := by
  rintro rfl
  rcases h c rfl with h | h | h | h
  · rw [hspace] at h
    cases h
  · exact hcomma h
  · exact hlist h
  · exact hobject h

/-- One digit at least, and nothing else. -/
def Digits (text : List Char) : Prop :=
  text ≠ [] ∧ ∀ c ∈ text, c.isDigit = true

/-- The digits before the point of a number. -/
def IsWhole (text : List Char) : Prop :=
  Digits text ∧ (text.head? = some '0' → text = ['0'])

theorem Digits.exists_cons (h : Digits text) :
    ∃ c rest, text = c :: rest ∧ c.isDigit = true := by
  obtain ⟨c, rest, rfl⟩ := List.exists_cons_of_ne_nil h.1
  exact ⟨c, rest, rfl, h.2 c (List.mem_cons_self ..)⟩

theorem someDigits_append (h : Digits digits) (hrest : ∀ c ∈ rest.head?, c.isDigit = false) :
    someDigits (digits ++ rest) = .ok (digits, rest) := by
  have htake : rest.takeWhile Char.isDigit = [] := by
    cases rest with
    | nil => rfl
    | cons c rest => simp [hrest c rfl]
  have hdrop : rest.dropWhile Char.isDigit = rest := by
    cases rest with
    | nil => rfl
    | cons c rest => simp [hrest c rfl]
  have hdigits : digitsOf (digits ++ rest) = (digits, rest) := by
    rw [digitsOf, List.takeWhile_append_of_pos h.2, List.dropWhile_append_of_pos h.2, htake,
      hdrop, List.append_nil]
  rw [someDigits, hdigits]
  simp [h.1]

theorem IsWhole.scanWhole_eq (h : IsWhole whole) (hrest : ∀ c ∈ rest.head?, c.isDigit = false) :
    scanWhole (whole ++ rest) = .ok (whole, rest) := by
  simp only [scanWhole, someDigits_append h.1 hrest, bind, Except.bind]
  split
  · next hlead => cases h.2 rfl
  · rfl

/-- A text that begins with a digit has no sign. -/
theorem scanNumber_of_whole (h : IsWhole whole) :
    scanNumber (whole ++ rest) = scanUnsigned false (whole ++ rest) := by
  obtain ⟨c, digits, rfl, hc⟩ := h.1.exists_cons
  unfold scanNumber
  split
  · next hminus =>
    cases hminus
    exact absurd hc (by decide)
  · rfl

theorem scanFraction_of_ended (h : Ended rest) : scanFraction rest = .ok (none, rest) := by
  cases rest with
  | nil => rfl
  | cons c rest =>
    have hpoint : c ≠ '.' := h.ne (by decide) (by decide) (by decide) (by decide)
    simp [scanFraction, hpoint]

theorem scanPower_of_ended (h : Ended rest) : scanPower rest = .ok (none, rest) := by
  cases rest with
  | nil => rfl
  | cons c rest =>
    have hlower : c ≠ 'e' := h.ne (by decide) (by decide) (by decide) (by decide)
    have hupper : c ≠ 'E' := h.ne (by decide) (by decide) (by decide) (by decide)
    simp [scanPower, hlower, hupper]

/-- Only zero is written with a leading zero. -/
theorem eq_zero_of_head?_toDigits (n : Nat) (h : (Nat.toDigits 10 n).head? = some '0') : n = 0 := by
  induction n using Nat.strongRecOn with
  | ind n ih =>
    by_cases hn : n < 10
    · rw [Nat.toDigits_of_lt_base hn] at h
      simpa using h
    · have hle : 10 ≤ n := Nat.le_of_not_lt hn
      have hhead : (Nat.toDigits 10 n).head? = (Nat.toDigits 10 (n / 10)).head? := by
        rw [Nat.toDigits_of_base_le (by decide) hle, List.head?_append, Option.or_of_isSome]
        exact List.isSome_head?.mpr Nat.toDigits_ne_nil
      have hzero := ih (n / 10) (by omega) (hhead ▸ h)
      omega

theorem isWhole_toDigits (n : Nat) : IsWhole (Nat.toDigits 10 n) := by
  refine ⟨⟨Nat.toDigits_ne_nil, fun c hc => ?_⟩, fun hlead => ?_⟩
  · exact Nat.isDigit_of_mem_toDigits (by decide) (by decide) hc
  · rw [eq_zero_of_head?_toDigits n hlead, Nat.toDigits_zero]

/-- Digits are taken one by one while 64 bits hold them. -/
theorem takeWhole_eq (h : Nat.ofDigitChars 10 digits taken ≤ greatestWord) :
    takeWhole taken digits = (Nat.ofDigitChars 10 digits taken, 0) := by
  induction digits generalizing taken with
  | nil => rw [takeWhole, Nat.ofDigitChars_nil]
  | cons c digits ih =>
    have hmore : taken * 10 + digitValue c = 10 * taken + (c.toNat - '0'.toNat) := by
      rw [digitValue, Nat.mul_comm]
    rw [Nat.ofDigitChars_cons, ← hmore] at h ⊢
    have hle : taken * 10 + digitValue c ≤ greatestWord := by
      refine Nat.le_trans ?_ h
      rw [Nat.ofDigitChars_eq_ofDigitChars_zero]
      exact Nat.le_add_right_of_le (Nat.le_mul_of_pos_left _ (Nat.pow_pos (by decide)))
    simp only [takeWhole, if_pos hle]
    exact ih h

/-- A written number is read back, if 64 bits hold it. -/
theorem readNumber_toDigits (hn : n ≤ greatestWord) (h : Ended rest) :
    readNumber (Nat.toDigits 10 n ++ rest) = .ok (.natural n, rest) := by
  have hwhole := isWhole_toDigits n
  have hscan : scanNumber (Nat.toDigits 10 n ++ rest) =
      .ok (⟨false, Nat.toDigits 10 n, none, none⟩, rest) := by
    simp only [scanNumber_of_whole hwhole, scanUnsigned, hwhole.scanWhole_eq h.not_isDigit,
      scanFraction_of_ended h, scanPower_of_ended h, bind, Except.bind]
    rfl
  have hvalue : NumberText.value? ⟨false, Nat.toDigits 10 n, none, none⟩ = some (.natural n) := by
    have htake : takeWhole 0 (Nat.toDigits 10 n) = (n, 0) := by
      rw [takeWhole_eq (by rwa [Nat.ofDigitChars_ten_toDigits]), Nat.ofDigitChars_ten_toDigits]
    simp only [NumberText.value?, htake]
    rfl
  simp only [readNumber, hscan, hvalue, bind, Except.bind]
  rfl

end Numbers

end PatternAutomata.Json
