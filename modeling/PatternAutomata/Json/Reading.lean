import PatternAutomata.Json.Number
import PatternAutomata.Json.Strings
import PatternAutomata.Text.Quoted

/-!
# Reading JSON

A reader takes what is left of a text and gives a value with what is left after it.  Readers run
from left to right and stop at the first problem, whether the text is not JSON there or is JSON of
another shape than expected; what stands behind the problem is not looked at.
-/

namespace PatternAutomata.Json

abbrev Reader (α : Type) := List Char → Except ReadError (α × List Char)

def isSpace (c : Char) : Bool :=
  c = ' ' || c = '\n' || c = '\t' || c = '\r'

def skipSpace (text : List Char) : List Char :=
  text.dropWhile isSpace

/-! ### Any value -/

def readWord : List Char → List Char → Except ReadError (List Char)
  | [], rest => .ok rest
  | _ :: _, [] => refuseBefore .endInValue []
  | expected :: word, c :: rest =>
    if c = expected then readWord word rest else refuseBefore .expectedWord rest

def readColon (text : List Char) : Except ReadError (List Char) :=
  match skipSpace text with
  | ':' :: rest => .ok rest
  | [] => refuse .endInObject []
  | rest => refuse .expectedColon rest

/-- The brackets that hold other values. -/
inductive Bracket where
  | list
  | object
deriving DecidableEq, Repr

def Bracket.close : Bracket → Char
  | list => ']'
  | object => '\x7d'

def Bracket.endInside : Bracket → Malformed
  | list => .endInList
  | object => .endInObject

def Bracket.expectedEnd : Bracket → Malformed
  | list => .expectedListEnd
  | object => .expectedObjectEnd

def skipScalar (text : List Char) : Except ReadError (List Char) :=
  match text with
  | 'n' :: rest => readWord ['u', 'l', 'l'] rest
  | 't' :: rest => readWord ['r', 'u', 'e'] rest
  | 'f' :: rest => readWord ['a', 'l', 's', 'e'] rest
  | '"' :: rest => skipChars rest
  | c :: rest =>
    if c = '-' || c.isDigit then do
      let (_, rest) ← scanNumber text
      return rest
    else refuse .expectedValue (c :: rest)
  | [] => refuse .endInValue []

def skipName (text : List Char) : Except ReadError (List Char) :=
  match skipSpace text with
  | '"' :: rest => do
    let rest ← skipChars rest
    readColon rest
  | [] => refuse .endInObject []
  | rest => refuse .expectedName rest

/-- What comes next while a value is skipped. -/
inductive Skip where
  | value                    -- a value
  | first (bracket : Bracket) -- the first item of a bracket, or its end
  | next                     -- what follows an item
deriving DecidableEq, Repr

/-- Skips what is left of a value inside the given brackets, the innermost first.  The fuel counts
the parts. -/
def skipFrom : Nat → Skip → List Bracket → List Char → Except ReadError (List Char)
  | 0, _, _, text => refuse .expectedValue text
  | _ + 1, .next, [], text => .ok text
  | fuel + 1, .next, bracket :: outer, text =>
    match skipSpace text with
    | [] => refuse bracket.endInside []
    | c :: rest =>
      if c = ',' then
        match bracket with
        | .list => skipFrom fuel .value (bracket :: outer) rest
        | .object => do
          let rest ← skipName rest
          skipFrom fuel .value (bracket :: outer) rest
      else if c = bracket.close then skipFrom fuel .next outer rest
      else refuse bracket.expectedEnd (c :: rest)
  | fuel + 1, .first bracket, outer, text =>
    match skipSpace text with
    | [] => refuse bracket.endInside []
    | c :: rest =>
      if c = bracket.close then skipFrom fuel .next outer rest
      else
        match bracket with
        | .list => skipFrom fuel .value (bracket :: outer) (c :: rest)
        | .object => do
          let rest ← skipName (c :: rest)
          skipFrom fuel .value (bracket :: outer) rest
  | fuel + 1, .value, outer, text =>
    match skipSpace text with
    | '[' :: rest => skipFrom fuel (.first .list) outer rest
    | '\x7b' :: rest => skipFrom fuel (.first .object) outer rest
    | rest => do
      let rest ← skipScalar rest
      skipFrom fuel .next outer rest

/-- Skips a value of any shape.  Every two parts take a character at least. -/
def skipValue (text : List Char) : Except ReadError (List Char) :=
  skipFrom (2 * text.length + 2) .value [] text

/-! ### Values of a given shape -/

/-- Stops because of the value at the beginning of a text, which is not what was expected.  Scalar
values are read first, for the message shows them. -/
def unexpected {α : Type} (expected : String) (text : List Char) : Except ReadError α :=
  let shown (found : String) (rest : List Char) : Except ReadError α :=
    mismatch (.invalidType found expected) rest
  match text with
  | [] => refuse .endInValue []
  | 'n' :: rest => do shown "null" (← readWord ['u', 'l', 'l'] rest)
  | 't' :: rest => do shown "boolean `true`" (← readWord ['r', 'u', 'e'] rest)
  | 'f' :: rest => do shown "boolean `false`" (← readWord ['a', 'l', 's', 'e'] rest)
  | '"' :: rest => do
    let (chars, rest) ← readChars rest
    shown ("string " ++ Text.quoted (String.ofList chars)) rest
  | '[' :: _ => shown "sequence" text
  | '\x7b' :: _ => shown "map" text
  | c :: _ =>
    if c = '-' || c.isDigit then do
      let (number, rest) ← readNumber text
      shown number.shown rest
    else refuse .expectedValue text

def readText : Reader String := fun text =>
  match skipSpace text with
  | '"' :: rest => do
    let (chars, rest) ← readChars rest
    return (String.ofList chars, rest)
  | rest => unexpected "a string" rest

/-- Reads a natural number of 32 bits. -/
def readWord32 : Reader Nat := fun text =>
  let start := skipSpace text
  match start with
  | [] => refuse .endInValue []
  | c :: _ =>
    if c = '-' || c.isDigit then do
      let (number, rest) ← readNumber start
      match number with
      | .natural value =>
        if value < UInt32.size then return (value, rest)
        else mismatch (.invalidValue number.shown "u32") rest
      | .negative _ => mismatch (.invalidValue number.shown "u32") rest
      | .real .. => mismatch (.invalidType number.shown "u32") rest
    else unexpected "u32" start

/-- Reads `null`, or a value. -/
def readOptional {α : Type} (reader : Reader α) : Reader (Option α) := fun text =>
  match skipSpace text with
  | 'n' :: rest => do
    let rest ← readWord ['u', 'l', 'l'] rest
    return (none, rest)
  | rest => do
    let (value, rest) ← reader rest
    return (some value, rest)

/-- Reads `null`, which carries nothing. -/
def readNothing : Reader Unit := fun text =>
  match skipSpace text with
  | 'n' :: rest => do
    let rest ← readWord ['u', 'l', 'l'] rest
    return ((), rest)
  | rest => unexpected "unit" rest

/-- A value with one of two names. -/
structure Choice (α : Type) where
  first : String × α
  second : String × α

def readChoiceName {α : Type} (choice : Choice α) : Reader α := fun text => do
  let (chars, rest) ← readChars text
  let name := String.ofList chars
  if name = choice.first.1 then return (choice.first.2, rest)
  else if name = choice.second.1 then return (choice.second.2, rest)
  else mismatch (.unknownVariant name choice.first.1 choice.second.1) rest

/-- Reads a choice: its name, or an object whose only member has this name and the value `null`. -/
def readChoice {α : Type} (choice : Choice α) : Reader α := fun text =>
  match skipSpace text with
  | [] => refuse .endInValue []
  | '"' :: rest => readChoiceName choice rest
  | '\x7b' :: rest =>
    match skipSpace rest with
    | [] => refuse .endInValue []
    | '"' :: rest => do
      let (value, rest) ← readChoiceName choice rest
      let rest ← readColon rest
      let (_, rest) ← readNothing rest
      match skipSpace rest with
      | '\x7d' :: rest => return (value, rest)
      | [] => refuseBefore .endInObject []
      | rest => refuseBefore .expectedValue rest
    | rest => refuse .expectedName rest
  | rest => refuse .expectedValue rest

/-! ### Items and members -/

/-- Whether the closing bracket of a list comes next (and the text from it on), or an item (and the
text from it on). -/
def nextItem (first : Bool) (text : List Char) : Except ReadError (Bool × List Char) :=
  match skipSpace text with
  | [] => refuse .endInList []
  | ']' :: rest => .ok (false, ']' :: rest)
  | c :: rest =>
    if first then .ok (true, c :: rest)
    else if c = ',' then
      match skipSpace rest with
      | [] => refuse .endInValue []
      | ']' :: rest => refuse .trailingComma (']' :: rest)
      | rest => .ok (true, rest)
    else refuse .expectedListEnd (c :: rest)

/-- Whether the closing bracket of an object comes next (and the text from it on), or a member (and
the text from after the opening mark of its name on). -/
def nextMember (first : Bool) (text : List Char) : Except ReadError (Bool × List Char) :=
  match skipSpace text with
  | [] => refuse .endInObject []
  | '\x7d' :: rest => .ok (false, '\x7d' :: rest)
  | c :: rest =>
    if first then
      if c = '"' then .ok (true, rest) else refuse .expectedName (c :: rest)
    else if c = ',' then
      match skipSpace rest with
      | [] => refuse .endInValue []
      | '"' :: rest => .ok (true, rest)
      | '\x7d' :: rest => refuse .trailingComma ('\x7d' :: rest)
      | rest => refuse .expectedName rest
    else refuse .expectedObjectEnd (c :: rest)

def endList (text : List Char) : Except ReadError (List Char) :=
  match skipSpace text with
  | ']' :: rest => .ok rest
  | [] => refuse .endInList []
  | ',' :: rest =>
    match skipSpace rest with
    | ']' :: rest => refuse .trailingComma (']' :: rest)
    | rest => refuse .trailingCharacters rest
  | rest => refuse .trailingCharacters rest

def leaveList (text : List Char) : List Char :=
  match skipSpace text with
  | ']' :: rest => rest
  | ',' :: rest => skipSpace rest
  | rest => rest

def leaveObject (text : List Char) : List Char :=
  match skipSpace text with
  | '\x7d' :: rest => rest
  | rest => rest

/-- Reads the items of a list from after its opening bracket.  The fuel counts the items. -/
def readItems {α : Type} (reader : Reader α) : Nat → Bool → Reader (List α)
  | 0, _, text => refuse .endInList text
  | fuel + 1, first, text => do
    let (more, rest) ← nextItem first text
    if more then
      let (item, rest) ← reader rest
      let (items, rest) ← readItems reader fuel false rest
      return (item :: items, rest)
    else
      return ([], rest.drop 1)

/-- Reads a list.  Every item takes a character at least. -/
def readList {α : Type} (reader : Reader α) : Reader (List α) := fun text =>
  match skipSpace text with
  | '[' :: rest => readItems reader (rest.length + 1) true rest
  | rest => unexpected "a sequence" rest

/-- Reads the members of an object from after its opening bracket up to its closing bracket: each is
handed to `member` with its name, which reads its colon and its value and adds it to what was read
before.  The fuel counts the members. -/
def readMembers {σ : Type} (member : σ → String → Reader σ) : Nat → Bool → σ → Reader σ
  | 0, _, _, text => refuse .endInObject text
  | fuel + 1, first, state, text => do
    let (more, rest) ← nextMember first text
    if more then
      let (name, rest) ← readChars rest
      let (state, rest) ← member state (String.ofList name) rest
      readMembers member fuel false state rest
    else
      return (state, rest)

def readMember {α : Type} (reader : Reader α) : Reader α := fun text => do
  let rest ← readColon text
  reader rest

def readOnce {α : Type} (name : String) (before : Option α) (reader : Reader α) : Reader α :=
  fun text =>
    if before.isSome then mismatch (.duplicateField name) (leaveObject text)
    else readMember reader text

def skipMember {σ : Type} (state : σ) : Reader σ := fun text => do
  let rest ← readColon text
  let rest ← skipValue rest
  return (state, rest)

/-- Reads the next field of a list of fields, if there is one. -/
def readField? {α : Type} (first : Bool) (reader : Reader α) : Reader (Option α) := fun text => do
  let (more, rest) ← nextItem first text
  if more then
    let (value, rest) ← reader rest
    return (some value, rest)
  else
    return (none, rest)

def readWhole {α : Type} (reader : Reader α) (text : List Char) : Except ReadError α := do
  let (value, rest) ← reader text
  match skipSpace rest with
  | [] => return value
  | rest => refuse .trailingCharacters rest

end PatternAutomata.Json
