import PatternAutomata.Text.Lines

/-!
# Reading errors

A text may fail to be JSON, or it may be JSON of another shape than the one expected.  An error
carries how many bytes of the text were left when it showed, from which its place is computed.
-/

namespace PatternAutomata.Json

/-- Why a text is not JSON. -/
inductive Malformed where
  | endInValue
  | endInList
  | endInObject
  | endInText
  | expectedColon
  | expectedListEnd
  | expectedObjectEnd
  | expectedWord
  | expectedValue
  | invalidEscape
  | invalidNumber
  | numberOutOfRange
  | controlCharacter
  | expectedName
  | loneSurrogate
  | unfinishedEscape
  | trailingComma
  | trailingCharacters
deriving DecidableEq, Repr

def Malformed.message : Malformed → String
  | endInValue => "EOF while parsing a value"
  | endInList => "EOF while parsing a list"
  | endInObject => "EOF while parsing an object"
  | endInText => "EOF while parsing a string"
  | expectedColon => "expected `:`"
  | expectedListEnd => "expected `,` or `]`"
  | expectedObjectEnd => "expected `,` or `\x7d`"
  | expectedWord => "expected ident"
  | expectedValue => "expected value"
  | invalidEscape => "invalid escape"
  | invalidNumber => "invalid number"
  | numberOutOfRange => "number out of range"
  | controlCharacter => "control character (\\u0000-\\u001F) found while parsing a string"
  | expectedName => "key must be a string"
  | loneSurrogate => "lone leading surrogate in hex escape"
  | unfinishedEscape => "unexpected end of hex escape"
  | trailingComma => "trailing comma"
  | trailingCharacters => "trailing characters"

/-- How JSON differs from the shape expected. -/
inductive Mismatch where
  | missingField (name : String)
  | duplicateField (name : String)
  | invalidType (found expected : String)
  | invalidValue (found expected : String)
  | unknownVariant (found first second : String)
  | invalidLabel (text : String)
  | invalidLength (length : Nat) (shape : String) (fields : Nat)
deriving DecidableEq, Repr

def Mismatch.message : Mismatch → String
  | missingField name => s!"missing field `{name}`"
  | duplicateField name => s!"duplicate field `{name}`"
  | invalidType found expected => s!"invalid type: {found}, expected {expected}"
  | invalidValue found expected => s!"invalid value: {found}, expected {expected}"
  | unknownVariant found first second =>
    s!"unknown variant `{found}`, expected `{first}` or `{second}`"
  | invalidLabel text => s!"invalid edge label '{text}'"
  | invalidLength length shape fields =>
    s!"invalid length {length}, expected struct {shape} with {fields} elements"

/-- Why a text cannot be read, and how many bytes of it were left. -/
inductive ReadError where
  | malformed (cause : Malformed) (unread : Nat)
  | mismatch (cause : Mismatch) (unread : Nat)
deriving DecidableEq, Repr

/-- Stops at the first character of `rest`, which is not JSON here. -/
def refuse {α : Type} (cause : Malformed) (rest : List Char) : Except ReadError α :=
  .error (.malformed cause (Text.byteLength rest - 1))

/-- Stops before `rest`, because what was read is not JSON. -/
def refuseBefore {α : Type} (cause : Malformed) (rest : List Char) : Except ReadError α :=
  .error (.malformed cause (Text.byteLength rest))

/-- Stops before `rest`, because what was read has another shape than expected. -/
def mismatch {α : Type} (cause : Mismatch) (rest : List Char) : Except ReadError α :=
  .error (.mismatch cause (Text.byteLength rest))

/-- What is said about an error, without its place. -/
def ReadError.message : ReadError → String
  | malformed cause _ => cause.message
  | mismatch cause _ => cause.message

def ReadError.unread : ReadError → Nat
  | malformed _ unread => unread
  | mismatch _ unread => unread

/-- The line and the column of a byte: lines count from one, columns are the bytes since the line
began.  `line` is the line at `position`, and `start` is where it began. -/
def placeOf (index line start position : Nat) : List Char → Nat × Nat
  | [] => (line, index - start)
  | c :: rest =>
    if index ≤ position then (line, index - start)
    else if c = '\n' then placeOf index (line + 1) (position + 1) (position + 1) rest
    else placeOf index line start (position + c.utf8Size) rest

/-- What is said about an error in a text, with its place. -/
def ReadError.messageIn (error : ReadError) (text : List Char) : String :=
  let (line, column) := placeOf (Text.byteLength text - error.unread) 1 0 0 text
  s!"{error.message} at line {line} column {column}"

end PatternAutomata.Json
