/-!
# Lines of a text

A line ends at a line feed, or at a carriage return followed by a line feed; the last line of a
text may have no end.  A carriage return elsewhere belongs to its line.
-/

namespace PatternAutomata.Text

/-- How a line ends. -/
inductive LineEnd where
  | absent     -- the text ends here
  | feed       -- a line feed
  | returnFeed -- a carriage return and a line feed
deriving DecidableEq, Repr

def LineEnd.size : LineEnd → Nat
  | .absent => 0
  | .feed => 1
  | .returnFeed => 2

/-- A line: its characters without its end, and its end. -/
structure Line where
  chars : List Char
  ending : LineEnd
deriving DecidableEq, Repr

/-- The number of bytes of characters in UTF-8. -/
def byteLength : List Char → Nat
  | [] => 0
  | c :: rest => c.utf8Size + byteLength rest

theorem byteLength_append (left right : List Char) :
    byteLength (left ++ right) = byteLength left + byteLength right := by
  induction left with
  | nil => exact (Nat.zero_add _).symm
  | cons c left ih => rw [List.cons_append, byteLength, byteLength, ih, Nat.add_assoc]

theorem byteLength_pos {text : List Char} (h : text ≠ []) : 0 < byteLength text := by
  cases text with
  | nil => exact absurd rfl h
  | cons c rest => exact Nat.add_pos_left c.utf8Size_pos _

def Line.size (line : Line) : Nat :=
  byteLength line.chars + line.ending.size

/-- The lines of a text.  The empty text has none, and a text that ends in a line feed has no
line after it. -/
def lines : List Char → List Line
  | [] => []
  | '\n' :: rest => ⟨[], .feed⟩ :: lines rest
  | '\r' :: '\n' :: rest => ⟨[], .returnFeed⟩ :: lines rest
  | c :: rest =>
    match lines rest with
    | [] => [⟨[c], .absent⟩]
    | line :: more => ⟨c :: line.chars, line.ending⟩ :: more

/-- The text without one line end at its end; anything else stays. -/
def stripLineEnd : List Char → List Char
  | [] => []
  | ['\n'] => []
  | ['\r', '\n'] => []
  | c :: rest => c :: stripLineEnd rest

end PatternAutomata.Text
