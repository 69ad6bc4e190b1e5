import PatternAutomata.Proofs.Pattern.Reports

/-!
# Clamped spans

A span is cut to its source before it is drawn, and widened if nothing of it is left.  What is left
stands between characters if the ends of the span do.  A span that is widened takes in one byte: the
one it stands before, or the last one of the source.  So it takes in a character if that character
has one byte, and cuts it otherwise.
-/

namespace PatternAutomata

open Text

variable {c : Char} {bytes : Nat} {before rest text source : List Char} {span clamped : Span}

/-! ### Boundaries of characters -/

theorem isBoundary_cons_iff : isBoundary bytes (c :: rest) = true ↔
    bytes = 0 ∨ ∃ more, bytes = c.utf8Size + more ∧ isBoundary more rest = true := by
  constructor
  · intro h
    cases bytes with
    | zero => exact .inl rfl
    | succ bytes =>
      simp only [isBoundary, Bool.and_eq_true, decide_eq_true_eq] at h
      obtain ⟨hle, hrest⟩ := h
      exact .inr ⟨_, (Nat.add_sub_cancel' hle).symm, hrest⟩
  · rintro (rfl | ⟨more, rfl, hrest⟩)
    · rw [isBoundary]
    · rw [isBoundary_add, hrest]

/-- A byte is a boundary if and only if it stands between two parts of the text. -/
theorem isBoundary_iff : isBoundary bytes text = true ↔
    ∃ before after, text = before ++ after ∧ byteLength before = bytes := by
  constructor
  · intro h
    induction text generalizing bytes with
    | nil =>
      cases bytes with
      | zero => exact ⟨[], [], rfl, rfl⟩
      | succ bytes => exact absurd h Bool.false_ne_true
    | cons c rest ih =>
      rcases isBoundary_cons_iff.mp h with rfl | ⟨more, rfl, hrest⟩
      · exact ⟨[], c :: rest, rfl, rfl⟩
      · obtain ⟨before, after, rfl, rfl⟩ := ih hrest
        exact ⟨c :: before, after, rfl, rfl⟩
  · rintro ⟨before, after, rfl, rfl⟩
    exact isBoundary_append before after

/-- Behind a part of the text, boundaries are those of what is left. -/
theorem isBoundary_behind :
    isBoundary (byteLength before + bytes) (before ++ rest) = isBoundary bytes rest := by
  induction before with
  | nil => rw [byteLength, Nat.zero_add, List.nil_append]
  | cons c before ih => rw [byteLength, Nat.add_assoc, List.cons_append, isBoundary_add, ih]

/-- One byte behind the start of a character is a boundary if the character has no other bytes. -/
theorem isBoundary_one_iff : isBoundary 1 (c :: rest) = true ↔ c.utf8Size = 1 := by
  have hpos := c.utf8Size_pos
  rw [isBoundary_cons_iff]
  constructor
  · rintro (h | ⟨more, hmore, -⟩)
    · cases h
    · omega
  · intro hsize
    exact .inr ⟨0, hsize.symm, by rw [isBoundary]⟩

/-- So is one byte before the end of the last character. -/
theorem isBoundary_pred_iff : isBoundary (c.utf8Size - 1) [c] = true ↔ c.utf8Size = 1 := by
  have hpos := c.utf8Size_pos
  rw [isBoundary_cons_iff]
  constructor
  · rintro (h | ⟨more, hmore, -⟩)
    · omega
    · omega
  · intro hsize
    exact .inl (by rw [hsize])

/-! ### Spans -/

/-- Both ends of the span stand between characters of the text. -/
def Span.CutsNothing (span : Span) (text : List Char) : Prop :=
  isBoundary span.start text = true ∧ isBoundary span.stop text = true

instance : Decidable (span.CutsNothing text) :=
  inferInstanceAs (Decidable (_ ∧ _))

/-- What of a span lies in a source of the given length. -/
def Span.cut (span : Span) (length : Nat) : Span :=
  ⟨min span.start length, min span.stop length⟩

theorem Span.clamp_of_meets {length : Nat} (h : span.start < span.stop)
    (hmeets : span.start < length) : span.clamp length = span.cut length := by
  have hne : min span.start length ≠ min span.stop length := by omega
  simp only [clamp, cut, if_neg hne]

theorem Span.clamp_of_empty {length : Nat} (h : span.start = span.stop)
    (hmeets : span.start < length) : span.clamp length = ⟨span.start, span.start + 1⟩ := by
  have hstart : min span.start length = span.start := Nat.min_eq_left (Nat.le_of_lt hmeets)
  simp only [clamp, ← h, hstart, if_true, if_neg (Nat.ne_of_lt hmeets)]

theorem Span.clamp_of_behind {length : Nat} (h : span.start ≤ span.stop)
    (hbehind : length ≤ span.start) : span.clamp length = ⟨length - 1, length⟩ := by
  have hstart : min span.start length = length := Nat.min_eq_right hbehind
  have hstop : min span.stop length = length := Nat.min_eq_right (Nat.le_trans hbehind h)
  simp only [clamp, hstart, hstop, if_true]

/-- A part of the source is drawn that is not empty. -/
theorem Span.clamp_inside {length : Nat} (hpos : 0 < length) (h : span.start ≤ span.stop) :
    (span.clamp length).start < (span.clamp length).stop ∧
      (span.clamp length).stop ≤ length := by
  rcases Nat.lt_or_ge span.start length with hmeets | hbehind
  · rcases Nat.lt_or_eq_of_le h with hlt | hempty
    · rw [clamp_of_meets hlt hmeets]
      exact ⟨lt_min (min_lt_of_left_lt hlt) (min_lt_of_left_lt hmeets), Nat.min_le_right ..⟩
    · rw [clamp_of_empty hempty hmeets]
      exact ⟨Nat.lt_succ_self _, hmeets⟩
  · rw [clamp_of_behind h hbehind]
    exact ⟨Nat.pred_lt_self hpos, Nat.le_refl _⟩

/-! ### What a span is clamped to -/

/-- The span takes in one byte of the character behind a part of the source.  That is the character,
and cuts nothing, exactly if the character has no other bytes. -/
structure Span.IsByteOf (span : Span) (source before : List Char) (c : Char) : Prop where
  cutsNothing_iff : span.CutsNothing source ↔ c.utf8Size = 1
  eq_spanOf_iff : span = spanOf before [c] ↔ c.utf8Size = 1

/-- What a span is drawn as in a source. -/
structure Span.ClampsTo (span : Span) (source : List Char) (clamped : Span) : Prop where
  nonempty : clamped.start < clamped.stop
  inside : clamped.stop ≤ byteLength source
  kept : span.start < span.stop → span.stop ≤ byteLength source → clamped = span
  /-- Of a span that meets the source, what lies in it is drawn. -/
  meets : span.start < span.stop → span.start < byteLength source →
    clamped = span.cut (byteLength source) ∧ clamped.CutsNothing source
  /-- An empty span is drawn as the first byte of the character it stands before. -/
  empty : span.start = span.stop → span.start < byteLength source →
    clamped = ⟨span.start, span.start + 1⟩ ∧
      ∃ before c after, source = before ++ c :: after ∧ span.start = byteLength before ∧
        clamped.IsByteOf source before c
  /-- A span behind the source is drawn as the last byte of its last character. -/
  behind : byteLength source ≤ span.start →
    clamped = ⟨byteLength source - 1, byteLength source⟩ ∧
      ∃ before c, source = before ++ [c] ∧ clamped.IsByteOf source before c

theorem spanOf_char : spanOf before [c] = ⟨byteLength before, byteLength before + c.utf8Size⟩ := by
  rw [spanOf, byteLength, byteLength, Nat.add_zero]

theorem isByteOf_first :
    Span.IsByteOf ⟨byteLength before, byteLength before + 1⟩ (before ++ c :: rest) before c where
  cutsNothing_iff := by
    rw [Span.CutsNothing, isBoundary_behind, isBoundary_one_iff]
    exact and_iff_right (isBoundary_append before (c :: rest))
  eq_spanOf_iff := by
    rw [spanOf_char, Span.mk.injEq, Nat.add_right_inj]
    exact ⟨fun heq => heq.2.symm, fun hsize => ⟨rfl, hsize.symm⟩⟩

theorem isByteOf_last :
    Span.IsByteOf ⟨byteLength (before ++ [c]) - 1, byteLength (before ++ [c])⟩
      (before ++ [c]) before c := by
  have hlength : byteLength (before ++ [c]) = byteLength before + c.utf8Size := by
    rw [byteLength_append, byteLength, byteLength, Nat.add_zero]
  have hstart : byteLength (before ++ [c]) - 1 = byteLength before + (c.utf8Size - 1) := by
    rw [hlength]
    exact Nat.add_sub_assoc c.utf8Size_pos _
  have hstop : isBoundary (byteLength (before ++ [c])) (before ++ [c]) = true := by
    simpa using isBoundary_append (before ++ [c]) []
  constructor
  · rw [Span.CutsNothing, hstop, hstart, isBoundary_behind, isBoundary_pred_iff]
    exact and_iff_left rfl
  · have hpos := c.utf8Size_pos
    rw [spanOf_char, Span.mk.injEq, hstart, hlength]
    omega

/-- A boundary before the end of a text is the start of a character. -/
theorem exists_char_of_isBoundary (h : isBoundary bytes text = true)
    (hlt : bytes < byteLength text) :
    ∃ before c after, text = before ++ c :: after ∧ bytes = byteLength before := by
  obtain ⟨before, after, rfl, rfl⟩ := isBoundary_iff.mp h
  cases after with
  | nil =>
    rw [List.append_nil] at hlt
    exact absurd hlt (Nat.lt_irrefl _)
  | cons c after => exact ⟨before, c, after, rfl, rfl⟩

/-- **Clamped spans.**  Where the ends of a span, cut to a source that is not empty, stand between
characters, the span is drawn as a part of the source that is not empty.  If it meets the source,
this part stands between characters, too; otherwise it is one byte, and cuts the character that this
byte is of unless that has no others. -/
theorem Span.clampsTo_clamp (hne : source ≠ []) (h : span.start ≤ span.stop)
    (hcut : (span.cut (byteLength source)).CutsNothing source) :
    span.ClampsTo source (span.clamp (byteLength source)) := by
  obtain ⟨hnonempty, hinside⟩ := Span.clamp_inside (byteLength_pos hne) h
  exact
    { nonempty := hnonempty
      inside := hinside
      kept := clamp_of_inside
      meets := by
        intro hlt hmeets
        rw [clamp_of_meets hlt hmeets]
        exact ⟨rfl, hcut⟩
      empty := by
        intro hempty hmeets
        have hstart : min span.start (byteLength source) = span.start :=
          Nat.min_eq_left (Nat.le_of_lt hmeets)
        obtain ⟨before, c, after, rfl, hbefore⟩ :=
          exists_char_of_isBoundary (hstart ▸ hcut.1) hmeets
        rw [clamp_of_empty hempty hmeets, hbefore]
        exact ⟨rfl, before, c, after, rfl, rfl, isByteOf_first⟩
      behind := by
        intro hbehind
        obtain ⟨before, c, rfl⟩ := (List.eq_nil_or_concat' source).resolve_left hne
        rw [clamp_of_behind h hbehind]
        exact ⟨rfl, before, c, rfl, isByteOf_last⟩ }

/-- A span behind the source is drawn as its last character, which has one byte. -/
theorem Span.clampsTo_clamp_of_letter :
    Span.ClampsTo ⟨7, 9⟩ ['é', 'a'] ⟨2, 3⟩ :=
  Span.clampsTo_clamp (by decide) (by decide) (by decide)

/-- The parenthesis that the check finds open in one text stands behind another text.  Its span is
drawn as the last byte of a character with two. -/
theorem Span.clamp_cuts_of_accent :
    ['é'] ≠ [] ∧ (check "ab(".toList).map Diagnostic.span = [⟨2, 3⟩] ∧
      (Span.cut ⟨2, 3⟩ (byteLength ['é'])).CutsNothing ['é'] ∧
      Span.clamp ⟨2, 3⟩ (byteLength ['é']) = ⟨1, 2⟩ ∧
      ¬ Span.CutsNothing ⟨1, 2⟩ ['é'] ∧ spanOf [] ['é'] = ⟨0, 2⟩ ∧
      report (some "é") none false (check "ab(".toList) = .error .cutsCharacter :=
  ⟨by decide, by decide, by decide, by decide, by decide, by decide, rfl⟩

end PatternAutomata
