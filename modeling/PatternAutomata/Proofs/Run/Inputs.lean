import Mathlib.Data.List.DropRight
import PatternAutomata.Run.Suite

/-!
# The inputs of a text

Every text is a line, or a line with a line feed and another text behind it.  A line gives at most
one input, which is what is left of it without the white space at its ends; as carriage returns are
white space, it does not matter whether one belongs to the line or to its end.  So a text gives the
inputs of its lines, in order, and whatever is said here of texts follows line by line.
-/

namespace PatternAutomata

namespace Text

variable {c : Char} {text line rest : List Char}

/-! ### White space at the ends -/

theorem trimEnd_eq (text : List Char) : trimEnd text = text.rdropWhile isBlank := rfl

theorem trim_concat_of_isBlank (h : isBlank c = true) (text : List Char) :
    trim (text ++ [c]) = trim text := by
  have hblank : [c].dropWhile isBlank = [] := List.dropWhile_cons_of_pos h
  rw [trim, trim, List.dropWhile_append]
  split
  · next hempty => rw [hblank, List.isEmpty_iff.mp hempty]
  · rw [trimEnd_eq, List.rdropWhile_concat_pos _ _ _ h, trimEnd_eq]

/-- What is taken off at the ends of a text is white space. -/
theorem exists_append_trim_append (text : List Char) :
    ∃ before after, (∀ c ∈ before ++ after, isBlank c = true) ∧
      text = before ++ trim text ++ after := by
  refine ⟨text.takeWhile isBlank, (text.dropWhile isBlank).rtakeWhile isBlank, ?_, ?_⟩
  · intro c hc
    rcases List.mem_append.mp hc with hc | hc
    · exact List.mem_takeWhile_imp hc
    · exact List.mem_rtakeWhile_imp hc
  · rw [trim, trimEnd_eq, List.append_assoc, List.rdropWhile_append_rtakeWhile,
      List.takeWhile_append_dropWhile]

theorem mem_of_mem_trim (h : c ∈ trim text) : c ∈ text := by
  obtain ⟨before, after, -, htext⟩ := exists_append_trim_append text
  rw [htext]
  exact List.mem_append_left _ (List.mem_append_right _ h)

/-- The text neither starts nor ends with white space. -/
structure IsTrimmed (text : List Char) : Prop where
  head : ∀ c ∈ text.head?, isBlank c = false
  last : ∀ c ∈ text.getLast?, isBlank c = false

theorem isTrimmed_trim (text : List Char) : IsTrimmed (trim text) where
  head c hc := by
    obtain ⟨after, hafter⟩ : trim text <+: text.dropWhile isBlank := List.rdropWhile_prefix ..
    have hfirst := List.head?_dropWhile_not isBlank text
    rw [← hafter, List.head?_append, Option.mem_def.mp hc] at hfirst
    exact hfirst
  last c hc := by
    have hne : trim text ≠ [] := List.ne_nil_of_mem (List.mem_of_getLast? hc)
    rw [List.getLast?_eq_some_getLast hne] at hc
    cases hc
    exact Bool.eq_false_iff.mpr (List.rdropWhile_last_not _ _ hne)

theorem IsTrimmed.trim_eq (h : IsTrimmed text) : trim text = text := by
  have hfirst : text.dropWhile isBlank = text := by
    cases text with
    | nil => rfl
    | cons c rest => rw [List.dropWhile_cons_of_neg (by rw [h.head c rfl]; decide)]
  rw [trim, hfirst, trimEnd_eq, List.rdropWhile_eq_self_iff]
  intro hne
  rw [h.last _ (List.getLast?_eq_some_getLast hne)]
  decide

/-! ### Lines -/

/-- Every text is a line, or a line with a line feed and another text behind it. -/
theorem line_induction {motive : List Char → Prop}
    (last : ∀ line, '\n' ∉ line → motive line)
    (next : ∀ line rest, '\n' ∉ line → motive rest → motive (line ++ '\n' :: rest))
    (text : List Char) : motive text := by
  have hbehind : ∀ line, '\n' ∉ line → motive (line ++ text) := by
    induction text with
    | nil =>
      intro line hline
      rw [List.append_nil]
      exact last line hline
    | cons c rest ih =>
      intro line hline
      by_cases hc : c = '\n'
      · rw [hc]
        exact next line rest hline (ih [] List.not_mem_nil)
      · rw [List.append_cons]
        apply ih
        rintro hmem
        rcases List.mem_append.mp hmem with hmem | hmem
        · exact hline hmem
        · exact hc (List.mem_singleton.mp hmem).symm
  exact hbehind [] List.not_mem_nil

theorem lines_of_line (h : '\n' ∉ line) (hne : line ≠ []) : lines line = [⟨line, .absent⟩] := by
  induction line with
  | nil => exact absurd rfl hne
  | cons c rest ih =>
    obtain ⟨hc, hrest⟩ := List.ne_and_not_mem_of_not_mem_cons h
    have hreturn : ∀ more, c = '\r' → rest = '\n' :: more → False := by
      rintro more - rfl
      exact hrest List.mem_cons_self
    rw [lines.eq_4 c rest (fun heq => hc heq.symm) hreturn]
    cases rest with
    | nil => rfl
    | cons d more => rw [ih hrest (List.cons_ne_nil d more)]

/-- A carriage return before a line feed belongs to the end of the line. -/
theorem exists_lines_append (h : '\n' ∉ line) (rest : List Char) :
    ∃ first : Line, lines (line ++ '\n' :: rest) = first :: lines rest ∧
      (line = first.chars ∨ line = first.chars ++ ['\r']) := by
  induction line with
  | nil => exact ⟨⟨[], .feed⟩, rfl, .inl rfl⟩
  | cons c line ih =>
    obtain ⟨hc, hline⟩ := List.ne_and_not_mem_of_not_mem_cons h
    by_cases hreturn : c = '\r' ∧ line = []
    · obtain ⟨rfl, rfl⟩ := hreturn
      exact ⟨⟨[], .returnFeed⟩, rfl, .inr rfl⟩
    · obtain ⟨first, hlines, hchars⟩ := ih hline
      have hend : ∀ more, c = '\r' → line ++ '\n' :: rest = '\n' :: more → False := by
        intro more hfirst hmore
        cases line with
        | nil => exact hreturn ⟨hfirst, rfl⟩
        | cons d line => exact hline (List.mem_cons.mpr (.inl (List.cons.inj hmore).1.symm))
      refine ⟨⟨c :: first.chars, first.ending⟩, ?_, ?_⟩
      · rw [List.cons_append, lines.eq_4 c _ (fun heq => hc heq.symm) hend, hlines]
      · rcases hchars with hchars | hchars
        · exact .inl (congrArg (c :: ·) hchars)
        · exact .inr (congrArg (c :: ·) hchars)

/-- The text with a carriage return before every line feed. -/
def withReturns (text : List Char) : List Char :=
  text.flatMap fun c => if c = '\n' then ['\r', '\n'] else [c]

theorem withReturns_of_line (h : '\n' ∉ line) : withReturns line = line := by
  induction line with
  | nil => rfl
  | cons c line ih =>
    obtain ⟨hc, hline⟩ := List.ne_and_not_mem_of_not_mem_cons h
    have hsame : (if c = '\n' then ['\r', '\n'] else [c]) = [c] := if_neg fun heq => hc heq.symm
    rw [withReturns, List.flatMap_cons, hsame, ← withReturns, ih hline]
    rfl

theorem withReturns_append (h : '\n' ∉ line) (rest : List Char) :
    withReturns (line ++ '\n' :: rest) = (line ++ ['\r']) ++ '\n' :: withReturns rest := by
  have hline : line.flatMap (fun c => if c = '\n' then ['\r', '\n'] else [c]) = line :=
    withReturns_of_line h
  rw [withReturns, List.flatMap_append, hline, List.append_assoc]
  rfl

end Text

open Text

variable {text line rest entry : List Char} {entries : List (List Char)}

/-! ### Inputs -/

/-- The input on a line, if it has one. -/
def inputOn (line : List Char) : List (List Char) :=
  if trim line = [] then [] else [trim line]

theorem inputOn_concat_return (line : List Char) : inputOn (line ++ ['\r']) = inputOn line := by
  rw [inputOn, trim_concat_of_isBlank (by decide), inputOn]

theorem parseInputs_eq (text : List Char) :
    parseInputs text = (lines text).flatMap fun line => inputOn line.chars := by
  rw [parseInputs]
  induction lines text with
  | nil => rfl
  | cons line more ih =>
    rw [List.map_cons, List.flatMap_cons, ← ih, List.filter_cons, inputOn]
    by_cases hempty : trim line.chars = []
    · simp [hempty]
    · simp [hempty]

theorem parseInputs_of_line (h : '\n' ∉ line) : parseInputs line = inputOn line := by
  by_cases hempty : line = []
  · rw [hempty]
    rfl
  · rw [parseInputs_eq, lines_of_line h hempty, List.flatMap_singleton]

theorem parseInputs_line_append (h : '\n' ∉ line) (rest : List Char) :
    parseInputs (line ++ '\n' :: rest) = inputOn line ++ parseInputs rest := by
  obtain ⟨first, hlines, hchars⟩ := exists_lines_append h rest
  have hfirst : inputOn line = inputOn first.chars := by
    rcases hchars with rfl | rfl
    · rfl
    · exact inputOn_concat_return _
  rw [parseInputs_eq, hlines, List.flatMap_cons, ← parseInputs_eq, hfirst]

theorem parseInputs_append (before after : List Char) :
    parseInputs (before ++ '\n' :: after) = parseInputs before ++ parseInputs after := by
  induction before using line_induction with
  | last line hline => rw [parseInputs_line_append hline, parseInputs_of_line hline]
  | next line rest hline ih =>
    rw [List.append_assoc, List.cons_append, parseInputs_line_append hline, ih,
      parseInputs_line_append hline, List.append_assoc]

/-- An input is a part of a line that has something in it and no white space at its ends. -/
structure IsInput (entry : List Char) : Prop where
  ne_nil : entry ≠ []
  newline_not_mem : '\n' ∉ entry
  trimmed : IsTrimmed entry

theorem isInput_of_mem_inputOn (hline : '\n' ∉ line) (h : entry ∈ inputOn line) :
    IsInput entry := by
  unfold inputOn at h
  split at h
  · cases h
  · next hne =>
    obtain rfl := List.mem_singleton.mp h
    exact ⟨hne, fun hmem => hline (mem_of_mem_trim hmem), isTrimmed_trim line⟩

theorem isInput_of_mem (h : entry ∈ parseInputs text) : IsInput entry := by
  induction text using line_induction with
  | last line hline =>
    rw [parseInputs_of_line hline] at h
    exact isInput_of_mem_inputOn hline h
  | next line rest hline ih =>
    rw [parseInputs_line_append hline] at h
    rcases List.mem_append.mp h with h | h
    · exact isInput_of_mem_inputOn hline h
    · exact ih h

theorem IsInput.inputOn_eq (h : IsInput entry) : inputOn entry = [entry] := by
  rw [inputOn, h.trimmed.trim_eq, if_neg h.ne_nil]

/-- Inputs are read back from a text with one of them on each line. -/
theorem parseInputs_intercalate (h : ∀ entry ∈ entries, IsInput entry) :
    parseInputs (['\n'].intercalate entries) = entries := by
  induction entries with
  | nil => rfl
  | cons entry entries ih =>
    obtain ⟨hentry, hentries⟩ := List.forall_mem_cons.mp h
    cases entries with
    | nil =>
      rw [List.intercalate_singleton, parseInputs_of_line hentry.newline_not_mem,
        hentry.inputOn_eq]
    | cons next more =>
      rw [List.intercalate_cons_cons, List.append_assoc, List.singleton_append,
        parseInputs_line_append hentry.newline_not_mem, hentry.inputOn_eq, ih hentries]
      rfl

theorem parseInputs_withReturns (text : List Char) :
    parseInputs (withReturns text) = parseInputs text := by
  induction text using line_induction with
  | last line hline => rw [withReturns_of_line hline]
  | next line rest hline ih =>
    have hreturn : '\n' ∉ line ++ ['\r'] := by
      simpa using hline
    rw [withReturns_append hline, parseInputs_line_append hreturn, inputOn_concat_return, ih,
      parseInputs_line_append hline]

/-- **The inputs of a text.**  A text without line feeds gives one input, what is left of it without
the white space at its ends, or none if nothing is left.  A line feed separates texts whose inputs
are read one after the other.  So an input is not empty, stays on its line and neither starts nor
ends with white space; inputs put on lines of their own are read back; and a text in which carriage
returns stand before the line feeds has the same inputs. -/
theorem parseInputs_line_by_line :
    (∀ line, '\n' ∉ line → ∃ before entry after, line = before ++ entry ++ after ∧
      (∀ c ∈ before ++ after, isBlank c = true) ∧
      parseInputs line = if entry = [] then [] else [entry]) ∧
    (∀ before after,
      parseInputs (before ++ '\n' :: after) = parseInputs before ++ parseInputs after) ∧
    (∀ text, ∀ entry ∈ parseInputs text, IsInput entry) ∧
    (∀ text, parseInputs (['\n'].intercalate (parseInputs text)) = parseInputs text) ∧
    ∀ text, parseInputs (withReturns text) = parseInputs text := by
  refine ⟨?_, parseInputs_append, ?_, ?_, parseInputs_withReturns⟩
  · intro line hline
    obtain ⟨before, after, hblank, htext⟩ := exists_append_trim_append line
    exact ⟨before, trim line, after, htext, hblank, parseInputs_of_line hline⟩
  · intro text entry hentry
    exact isInput_of_mem hentry
  · intro text
    apply parseInputs_intercalate
    intro entry hentry
    exact isInput_of_mem hentry

end PatternAutomata
