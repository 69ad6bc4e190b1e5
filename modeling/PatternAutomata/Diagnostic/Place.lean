import PatternAutomata.Diagnostic.Basic
import PatternAutomata.Text.Lines
import PatternAutomata.Text.Width

/-!
# Places in a source

A byte of a source belongs to a line; the end of a line belongs to the line it ends.  The place of a
byte is its line, the characters before it in the line and the columns these take.
-/

namespace PatternAutomata

open Text

/-- A place in a source. -/
structure Place where
  /-- The line, counted from zero. -/
  line : Nat
  /-- The number of characters before the place in its line. -/
  char : Nat
  /-- The number of columns these characters take. -/
  column : Nat
deriving DecidableEq, Repr

def tabWidth : Nat := 4

def isDirection (c : Char) : Bool :=
  (0x202a ≤ c.toNat && c.toNat ≤ 0x202e) || (0x2066 ≤ c.toNat && c.toNat ≤ 0x2069)

/-- The number of columns in which a character of a source is shown.  A character that is replaced
takes the columns of what stands for it. -/
def shownWidth (c : Char) : Nat :=
  if c = '\t' then tabWidth
  else if isDirection c then 1
  else displayWidth c

def shownColumns : List Char → Nat
  | [] => 0
  | c :: rest => shownWidth c + shownColumns rest

/-- What a character of a source is shown as: a picture for a control character, blanks for a tab,
and a replacement for a character that would reorder the others. -/
def shownChar (c : Char) : List Char :=
  if c = '\t' then List.replicate tabWidth ' '
  else if c = '\n' then [c]
  else if c.toNat < 0x20 then [Char.ofNat (0x2400 + c.toNat)]
  else if c = '\x7f' then ['\u2421']
  else if c = '\u200d' then []
  else if isDirection c then ['\ufffd']
  else [c]

def shownText (text : List Char) : List Char :=
  text.flatMap shownChar

/-- A line of a source. -/
structure SourceLine where
  /-- Its number, counted from zero. -/
  index : Nat
  /-- The byte it starts at. -/
  start : Nat
  line : Line
deriving DecidableEq, Repr

def numberLines (index start : Nat) : List Line → List SourceLine
  | [] => []
  | line :: rest => ⟨index, start, line⟩ :: numberLines (index + 1) (start + line.size) rest

def sourceLines (source : List Char) : List SourceLine :=
  numberLines 0 0 (lines source)

/-- The line that a byte belongs to; bytes behind the source belong to its last line. -/
def lineAt? (byte : Nat) : List SourceLine → Option SourceLine
  | [] => none
  | [last] => some last
  | line :: next :: rest =>
    if byte < line.start + line.line.size then some line else lineAt? byte (next :: rest)

/-- The characters before a byte, counted from the first of them. -/
def charsBefore : Nat → List Char → List Char
  | _, [] => []
  | bytes, c :: rest =>
    if c.utf8Size ≤ bytes then c :: charsBefore (bytes - c.utf8Size) rest else []

def isBoundary : Nat → List Char → Bool
  | 0, _ => true
  | _ + 1, [] => false
  | bytes + 1, c :: rest =>
    c.utf8Size ≤ bytes + 1 && isBoundary (bytes + 1 - c.utf8Size) rest

theorem isBoundary_add {c : Char} {bytes : Nat} {rest : List Char} :
    isBoundary (c.utf8Size + bytes) (c :: rest) = isBoundary bytes rest := by
  obtain ⟨size, hsize⟩ := Nat.exists_eq_add_one.mpr c.utf8Size_pos
  rw [hsize, Nat.add_right_comm]
  simp [isBoundary, hsize]

/-- Between two parts of a text no character is cut. -/
theorem isBoundary_append (before after : List Char) :
    isBoundary (byteLength before) (before ++ after) = true := by
  induction before with
  | nil => rw [byteLength, isBoundary]
  | cons c before ih => rw [byteLength, List.cons_append, isBoundary_add, ih]

def SourceLine.place (line : SourceLine) (byte : Nat) : Place :=
  let before := charsBefore (byte - line.start) line.line.chars
  ⟨line.index, before.length, shownColumns before⟩

/-- The places of the ends of a span, each in its line.  A start inside a two-character line end
counts a character more.  An end behind the first byte of a line end on a later line than the start
counts one more, too. -/
def places (source : List SourceLine) (span : Span) : Option (Place × Place) := do
  let first ← lineAt? span.start source
  let last ← lineAt? span.stop source
  let start := first.place span.start
  let stop := last.place span.stop
  let inEnd := byteLength first.line.chars < span.start - first.start
  let start := if inEnd then { start with char := start.char + 1 } else start
  let behind := last.start + byteLength last.line.chars < span.stop
  let stop :=
    if start.line ≠ stop.line ∧ behind then
      { stop with char := stop.char + 1, column := stop.column + 1 }
    else stop
  return (start, stop)

end PatternAutomata
