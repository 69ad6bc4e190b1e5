import PatternAutomata.Diagnostic.Canvas
import PatternAutomata.Diagnostic.Place
import PatternAutomata.Text.Blank

/-!
# Diagnostics in their source

A diagnostic is drawn below its message in the lines of the source that its span touches.  A span
inside a line is underlined.  A span over several lines is drawn as a bracket in a column of its own
to the left of the source; only its first lines and its end are drawn, and left out are lines in
between that show little.  The parts are drawn in the order of the lines, also if the span ends on
an earlier line than it starts.  A span that cuts a character, or that runs backwards inside a line,
has no drawing.  Where all drawn lines are indented far, most of the indentation is left out.
-/

namespace PatternAutomata

open Text

/-- The span cut to a source of the given length, and widened so that it is not empty: behind the
source it is the last byte, elsewhere the byte it stands before. -/
def Span.clamp (span : Span) (length : Nat) : Span :=
  let start := min span.start length
  let stop := min span.stop length
  if start = stop then
    if start = length then ⟨length - 1, length⟩ else ⟨start, start + 1⟩
  else ⟨start, stop⟩

theorem Span.clamp_of_inside {span : Span} {length : Nat} (h : span.start < span.stop)
    (hinside : span.stop ≤ length) : span.clamp length = span := by
  have hstart : min span.start length = span.start :=
    Nat.min_eq_left (Nat.le_trans (Nat.le_of_lt h) hinside)
  have hstop : min span.stop length = span.stop := Nat.min_eq_left hinside
  simp only [clamp, hstart, hstop]
  exact if_neg (Nat.ne_of_lt h)

/-! ### Indentation -/

/-- The columns of white space before the first other character; only a tab has more than one. -/
def indentation : List Char → Nat
  | [] => 0
  | c :: rest =>
    if isBlank c then (if c = '\t' then tabWidth else 1) + indentation rest else 0

/-- The least indentation of the lines that are not blank. -/
def sharedIndentation (lines : List SourceLine) : Nat :=
  let visible := lines.filter fun line => !line.line.chars.all isBlank
  match visible.map (fun line => indentation line.line.chars) with
  | [] => 0
  | first :: rest => rest.foldl min first

def fullIndentation : Nat := 26

def keptIndentation : Nat := 22

def cutIndentation (columns : Nat) : Nat :=
  if fullIndentation < columns then columns - keptIndentation else 0

def dropColumns : Nat → List Char → List Char
  | _, [] => []
  | columns, c :: rest =>
    if columns = 0 then c :: rest else dropColumns (columns - displayWidth c) rest

/-! ### Layout -/

/-- Where the parts of a drawing stand. -/
structure Layout where
  /-- The columns of the line numbers. -/
  numbers : Nat
  /-- Whether there is a column for a bracket. -/
  bracket : Bool
  /-- How many columns of every line are left out at its start. -/
  cut : Nat

namespace Layout

def ruler (layout : Layout) : Nat := layout.numbers + 1

def bracketColumn (layout : Layout) : Nat := layout.numbers + 3

def code (layout : Layout) : Nat :=
  if layout.bracket then layout.numbers + 5 else layout.numbers + 3

def columnOf (layout : Layout) (line : SourceLine) (column : Nat) : Nat :=
  layout.code + column - min layout.cut (shownColumns line.line.chars)

/-- What is left out of an indentation, or of the lines inside a bracket. -/
def ellipsisText : List Char := ['.', '.', '.']

/-- A row with nothing but the ruler. -/
def rulerRow (layout : Layout) : Row :=
  Row.empty.put layout.ruler .frame ['|']

def lineNumber (layout : Layout) (index : Nat) : List Char :=
  let digits := (toString (index + 1)).toList
  List.replicate (layout.numbers - digits.length) ' ' ++ digits

def sourceRow (layout : Layout) (line : SourceLine) : Row :=
  let numbered := Row.empty.put 0 .frame (layout.lineNumber line.index)
  let ruled := numbered.put layout.ruler .frame ['|']
  let row := ruled.put layout.code .plain (dropColumns layout.cut (shownText line.line.chars))
  if layout.cut = 0 then row else row.put layout.code .frame ellipsisText

def mark (layout : Layout) (c : Char) (row : Row) : Row :=
  row.put layout.bracketColumn .alert [c]

/-- The row with the upright of a bracket, if it lies inside one. -/
def upright (layout : Layout) (inside : Bool) (row : Row) : Row :=
  if inside then layout.mark '|' row else row

def ellipsis : Row :=
  Row.empty.put 0 .frame ellipsisText

end Layout

/-! ### Spans inside a line -/

/-- The rows of a span inside a line: the line, and a caret below every column of the span, at least
one. -/
def lineRows (layout : Layout) (line : SourceLine) (start stop : Place) : List Row :=
  let first := layout.columnOf line start.column
  let last := layout.columnOf line (max start.column (stop.column - 1))
  [layout.sourceRow line, layout.rulerRow.fill first .alert '^' (last - first + 1)]

/-! ### Spans over several lines -/

/-- Whether a line shows little: it is blank, a comment or a single bracket. -/
def showsLittle (chars : List Char) : Bool :=
  let text := trim chars
  let startsWith (start : String) : Bool := start.toList.isPrefixOf text
  (startsWith "//" && !(startsWith "///" || startsWith "//!"))
    || text.isEmpty
    || text.length = 1 && text.all fun c => c ∈ ['\x7b', '\x7d', '(', ')', '[', ']']

def shownBeforeGap : Nat := 4

/-- The lines between the first and the last of a bracket that are always drawn, by their numbers:
the next ones up to the last of them that shows something, and the one before the end if it is far
away and shows something. -/
def drawnBetween (source : List SourceLine) (first last : Nat) : List Nat :=
  let little (index : Nat) : Bool :=
    match source[index]? with
    | some line => showsLittle line.line.chars
    | none => true
  let middle := min (first + shownBeforeGap) last
  let candidates := (List.range middle).drop first
  let shown := (candidates.reverse.dropWhile little).reverse
  let before := last - 1
  (shown.drop 1) ++ if middle < before && !little before then [before] else []

def Layout.lead (layout : Layout) (column : Nat) (row : Row) : Row :=
  let left := layout.bracketColumn + 1
  (row.fill left .alert '_' (column - left)).put column .alert ['^']

/-- The rows of the first line of a bracket.  Where only white space stands before the span, the
bracket begins beside the line, otherwise with a row of its own. -/
def openingRows (layout : Layout) (line : SourceLine) (start : Place) : List Row :=
  let row := layout.sourceRow line
  if ((shownText line.line.chars).take start.column).all isBlank then [layout.mark '/' row]
  else
    [row, layout.lead (layout.columnOf line start.column) (layout.mark ' ' layout.rulerRow)]

def closingRows (layout : Layout) (line : SourceLine) (stop : Place) : List Row :=
  [layout.mark '|' (layout.sourceRow line),
    layout.lead (layout.columnOf line (stop.column - 1)) (layout.mark '|' layout.rulerRow)]

/-- The rows between two lines that are drawn: a single line between them is drawn too, more are
left out. -/
def gapRows (layout : Layout) (source : List SourceLine) (inside : Bool) (before after : Nat) :
    List Row :=
  if after - before = 2 then
    match source[before + 1]? with
    | some line => [layout.upright inside (layout.sourceRow line)]
    | none => []
  else if after - before > 2 then [layout.upright inside Layout.ellipsis]
  else []

def innerRows (layout : Layout) (source : List SourceLine) (closing : List Row) (last : Nat)
    (before : Nat) : List Nat → List Row
  | [] => gapRows layout source true before last ++ closing
  | index :: rest =>
    gapRows layout source true before index
      ++ (match source[index]? with
        | some line => [layout.mark '|' (layout.sourceRow line)]
        | none => [])
      ++ innerRows layout source closing last index rest

/-- The rows of a span that ends on another line.  If that is an earlier line, the end comes first
and nothing joins it to the start. -/
def bracketRows (layout : Layout) (source : List SourceLine) (first last : SourceLine)
    (start stop : Place) : List Row :=
  let opening := openingRows layout first start
  let closing := closingRows layout last stop
  if last.index < first.index then
    closing ++ gapRows layout source false last.index first.index ++ opening
  else
    opening
      ++ innerRows layout source closing last.index first.index
        (drawnBetween source first.index last.index)

/-! ### The whole drawing -/

/-- The lines that belong to a span; lines that are drawn only because they fill a gap do not. -/
def spanLines (source : List SourceLine) (first last : SourceLine) : List SourceLine :=
  first :: last :: (drawnBetween source first.index last.index).filterMap fun index => source[index]?

def digitCount (n : Nat) : Nat := (toString n).length

def titleRows (message : String) : List Row :=
  match (String.ofList (shownText message.toList)).splitOn "\n" with
  | [] => []
  | first :: rest =>
    ((Row.empty.append .alert "error").append .strong (": " ++ first))
      :: rest.map (Row.indented "error: ".length .strong)

/-- The place that is named beside the file: where the span starts, or the last character before its
end if that is drawn first. -/
def namedPlace (start stop : Place) : Place :=
  if stop.line < start.line then { stop with char := stop.char - 1 } else start

def originRow (layout : Layout) (path : String) (place : Place) : Row :=
  let arrow := Row.empty.put layout.numbers .frame "--> ".toList
  arrow.append .plain s!"{path}:{place.line + 1}:{place.char + 1}"

def hintRows (layout : Layout) (hint : String) : List Row :=
  let label := "help: "
  match hint.splitOn "\n" with
  | [] => []
  | first :: rest =>
    let ruled := Row.empty.put layout.ruler .frame "= ".toList
    ((ruled.append .strong "help").append .plain (": " ++ first))
      :: rest.map (Row.indented (layout.ruler + 2 + label.length) .plain)

/-- Why a span has no drawing in a source. -/
inductive SpanFault where
  | cutsCharacter -- it starts or ends inside a character
  | backward      -- it ends in the line it starts in, before its start
deriving DecidableEq, Repr

def snippetRows (source : String) (path : Option String) (diagnostic : Diagnostic) :
    Except SpanFault (List Row) := do
  let chars := source.toList
  let span := diagnostic.span.clamp (byteLength chars)
  unless isBoundary span.start chars && isBoundary span.stop chars do
    throw .cutsCharacter
  let all := sourceLines chars
  match places all span, lineAt? span.start all, lineAt? span.stop all with
  | some (start, stop), some first, some last =>
    if start.line = stop.line ∧ stop.column < start.column then
      throw .backward
    let layout : Layout :=
      { numbers := digitCount (max 1 (lines (charsBefore span.stop chars)).length)
        bracket := start.line ≠ stop.line
        cut := cutIndentation (sharedIndentation (spanLines all first last)) }
    return titleRows diagnostic.message
      ++ (match path with
        | some path => [originRow layout path (namedPlace start stop)]
        | none => [])
      ++ [layout.rulerRow]
      ++ (if layout.bracket then bracketRows layout all first last start stop
        else lineRows layout first start stop)
      ++ (if diagnostic.hints.isEmpty then [] else [layout.rulerRow])
      ++ diagnostic.hints.flatMap (hintRows layout)
  | _, _, _ => return titleRows diagnostic.message

def snippet (source : String) (path : Option String) (colored : Bool) (diagnostic : Diagnostic) :
    Except SpanFault String := do
  let rows ← snippetRows source path diagnostic
  return "\n".intercalate (rows.map (Row.text colored))

/-- Diagnostics drawn in their source one below the other; in an empty source there is nothing to
draw, so they are given a line each. -/
def report (source : Option String) (path : Option String) (colored : Bool)
    (diagnostics : List Diagnostic) : Except SpanFault String :=
  match source with
  | some source =>
    if source.isEmpty then .ok (plainReport diagnostics)
    else return "\n".intercalate (← diagnostics.mapM (snippet source path colored))
  | none => .ok (plainReport diagnostics)

end PatternAutomata
