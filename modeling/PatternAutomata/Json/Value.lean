/-!
# JSON values and their written form

The values that are written as JSON, and the two layouts they are written in: everything on one
line, or each member on a line of its own, two blanks deeper than what holds it.
-/

namespace PatternAutomata.Json

/-- A JSON value whose numbers are natural. -/
inductive Value where
  | null
  | bool (value : Bool)
  | number (value : Nat)
  | text (value : String)
  | list (items : List Value)
  | object (members : List (String × Value))

/-- Where a written value has line breaks and blanks. -/
structure Layout where
  /-- What stands before an item at a depth, and before the bracket that closes that depth. -/
  lineBreak : Nat → List Char
  /-- What stands between the name and the value of a member. -/
  colon : List Char

/-- Everything on one line, without blanks. -/
def Layout.compact : Layout where
  lineBreak _ := []
  colon := [':']

/-- Every item on its own line, two blanks deeper than the brackets around it. -/
def Layout.pretty : Layout where
  lineBreak depth := '\n' :: List.replicate (2 * depth) ' '
  colon := [':', ' ']

def Layout.ofChoice (pretty : Bool) : Layout :=
  if pretty then .pretty else .compact

/-- A hexadecimal digit, in lower case. -/
def hexDigit (n : Nat) : Char := Nat.digitChar (n % 16)

/-- A character inside a written string: the quotation mark, the backslash and the controls are
escaped, everything else stands for itself. -/
def escapeChar (c : Char) : List Char :=
  if c = '"' then ['\\', '"']
  else if c = '\\' then ['\\', '\\']
  else if c = '\n' then ['\\', 'n']
  else if c = '\r' then ['\\', 'r']
  else if c = '\t' then ['\\', 't']
  else if c = '\x08' then ['\\', 'b']
  else if c = '\x0c' then ['\\', 'f']
  else if c.toNat < 0x20 then ['\\', 'u', '0', '0', hexDigit (c.toNat / 16), hexDigit c.toNat]
  else [c]

def writeText (text : List Char) : List Char :=
  '"' :: text.flatMap escapeChar ++ ['"']

mutual

def write (layout : Layout) (depth : Nat) : Value → List Char
  | .null => ['n', 'u', 'l', 'l']
  | .bool true => ['t', 'r', 'u', 'e']
  | .bool false => ['f', 'a', 'l', 's', 'e']
  | .number value => Nat.toDigits 10 value
  | .text value => writeText value.toList
  | .list [] => ['[', ']']
  | .list (item :: items) =>
    '[' :: layout.lineBreak (depth + 1) ++ write layout (depth + 1) item
      ++ writeItems layout (depth + 1) items ++ layout.lineBreak depth ++ [']']
  | .object [] => ['\x7b', '\x7d']
  | .object ((name, value) :: members) =>
    '\x7b' :: layout.lineBreak (depth + 1) ++ writeText name.toList ++ layout.colon
      ++ write layout (depth + 1) value
      ++ writeMembers layout (depth + 1) members ++ layout.lineBreak depth ++ ['\x7d']

def writeItems (layout : Layout) (depth : Nat) : List Value → List Char
  | [] => []
  | item :: items =>
    ',' :: layout.lineBreak depth ++ write layout depth item ++ writeItems layout depth items

def writeMembers (layout : Layout) (depth : Nat) : List (String × Value) → List Char
  | [] => []
  | (name, value) :: members =>
    ',' :: layout.lineBreak depth ++ writeText name.toList ++ layout.colon
      ++ write layout depth value ++ writeMembers layout depth members

end

def Value.render (value : Value) (layout : Layout) : String :=
  String.ofList (write layout 0 value)

end PatternAutomata.Json
