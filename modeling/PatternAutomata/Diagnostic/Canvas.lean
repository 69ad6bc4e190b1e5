/-!
# Rows of inked characters

A drawing consists of rows.  A row is written column by column, each character in an ink; what is
written later covers what was there before.  A row ends with the last character written, even if
that is a blank.
-/

namespace PatternAutomata

/-- What a character is drawn with. -/
inductive Ink where
  | plain
  | frame  -- line numbers and rulers
  | alert  -- the problem and its place
  | strong -- the message
deriving DecidableEq, Repr

/-- The sequence that starts an ink; plain text needs none. -/
def Ink.start : Ink → String
  | plain => ""
  | frame => "\x1b[1m\x1b[94m"
  | alert => "\x1b[1m\x1b[91m"
  | strong => "\x1b[1m"

def Ink.reset : String := "\x1b[0m"

/-- A character of a row. -/
structure Cell where
  char : Char
  ink : Ink
deriving DecidableEq, Repr

abbrev Row := List Cell

namespace Row

def empty : Row := []

def blank : Cell := ⟨' ', .plain⟩

/-- Writes characters from a column on.  Blanks fill the columns before the first character;
without a character the row stays as it is. -/
def put (row : Row) (column : Nat) (ink : Ink) (text : List Char) : Row :=
  if text.isEmpty then row
  else
    row.take column ++ List.replicate (column - row.length) blank
      ++ text.map (fun c => ⟨c, ink⟩)
      ++ row.drop (column + text.length)

def fill (row : Row) (column : Nat) (ink : Ink) (c : Char) (count : Nat) : Row :=
  row.put column ink (List.replicate count c)

def append (row : Row) (ink : Ink) (text : String) : Row :=
  row.put row.length ink text.toList

def indented (columns : Nat) (ink : Ink) (text : String) : Row :=
  append (List.replicate columns blank) ink text

/-- Puts a character of an ink before what is drawn already, in its first piece if that has the same
ink. -/
def joinPiece (cell : Cell) : List (Ink × List Char) → List (Ink × List Char)
  | [] => [(cell.ink, [cell.char])]
  | (ink, chars) :: pieces =>
    if ink = cell.ink then (ink, cell.char :: chars) :: pieces
    else (cell.ink, [cell.char]) :: (ink, chars) :: pieces

def pieces (row : Row) : List (Ink × List Char) :=
  row.foldr joinPiece []

def pieceText (piece : Ink × List Char) : String :=
  match piece.1 with
  | .plain => String.ofList piece.2
  | ink => ink.start ++ String.ofList piece.2 ++ Ink.reset

def text (colored : Bool) (row : Row) : String :=
  if colored then String.join (row.pieces.map pieceText)
  else String.ofList (row.map fun cell => cell.char)

end Row

end PatternAutomata
