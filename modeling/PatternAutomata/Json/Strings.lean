import PatternAutomata.Json.ReadError

/-!
# Reading JSON strings

A string is read to its closing quotation mark.  An escape stands for one character; two escapes
that form a surrogate pair stand for one character together.  In a string that is skipped only the
form of the escapes matters.
-/

namespace PatternAutomata.Json

def hexValue? (c : Char) : Option Nat :=
  if '0' ≤ c ∧ c ≤ '9' then some (c.toNat - '0'.toNat)
  else if 'a' ≤ c ∧ c ≤ 'f' then some (c.toNat - 'a'.toNat + 10)
  else if 'A' ≤ c ∧ c ≤ 'F' then some (c.toNat - 'A'.toNat + 10)
  else none

def hexUnit? (a b c d : Char) : Option Nat := do
  return ((← hexValue? a) * 4096 + (← hexValue? b) * 256 + (← hexValue? c) * 16 + (← hexValue? d))

def shortEscape? (c : Char) : Option Char :=
  if c = '"' || c = '\\' || c = '/' then some c
  else if c = 'b' then some '\x08'
  else if c = 'f' then some '\x0c'
  else if c = 'n' then some '\n'
  else if c = 'r' then some '\r'
  else if c = 't' then some '\t'
  else none

/-- Whether a 16-bit unit begins a surrogate pair. -/
def isHighSurrogate (unit : Nat) : Bool := decide (0xd800 ≤ unit ∧ unit < 0xdc00)

/-- Whether a 16-bit unit ends a surrogate pair. -/
def isLowSurrogate (unit : Nat) : Bool := decide (0xdc00 ≤ unit ∧ unit < 0xe000)

def pairChar (high low : Nat) : Char :=
  Char.ofNat (0x10000 + (high - 0xd800) * 0x400 + (low - 0xdc00))

def prepend (c : Char) (read : Except ReadError (List Char × List Char)) :
    Except ReadError (List Char × List Char) :=
  read.map fun (chars, rest) => (c :: chars, rest)

/-- Reads a string from after its opening mark: its characters, and what follows its closing
mark. -/
def readChars : List Char → Except ReadError (List Char × List Char)
  | [] => refuseBefore .endInText []
  | '"' :: rest => .ok ([], rest)
  | '\\' :: 'u' :: a :: b :: c :: d :: rest =>
    match hexUnit? a b c d with
    | none => refuseBefore .invalidEscape rest
    | some unit =>
      if isLowSurrogate unit then refuseBefore .loneSurrogate rest
      else if isHighSurrogate unit then
        match rest with
        | '\\' :: 'u' :: a :: b :: c :: d :: rest =>
          match hexUnit? a b c d with
          | none => refuseBefore .invalidEscape rest
          | some low =>
            if isLowSurrogate low then prepend (pairChar unit low) (readChars rest)
            else refuseBefore .loneSurrogate rest
        | '\\' :: 'u' :: _ => refuseBefore .endInText []
        | ['\\'] => refuseBefore .endInText []
        | '\\' :: _ :: rest => refuseBefore .unfinishedEscape rest
        | _ :: rest => refuseBefore .unfinishedEscape rest
        | [] => refuseBefore .endInText []
      else prepend (Char.ofNat unit) (readChars rest)
  | '\\' :: 'u' :: _ => refuseBefore .endInText []
  | '\\' :: c :: rest =>
    match shortEscape? c with
    | some escaped => prepend escaped (readChars rest)
    | none => refuseBefore .invalidEscape rest
  | ['\\'] => refuseBefore .endInText []
  | c :: rest =>
    if c.toNat < 0x20 then refuseBefore .controlCharacter rest
    else prepend c (readChars rest)

def skipChars : List Char → Except ReadError (List Char)
  | [] => refuseBefore .endInText []
  | '"' :: rest => .ok rest
  | '\\' :: 'u' :: a :: b :: c :: d :: rest =>
    if (hexUnit? a b c d).isSome then skipChars rest else refuseBefore .invalidEscape rest
  | '\\' :: 'u' :: _ => refuseBefore .endInText []
  | '\\' :: c :: rest =>
    if (shortEscape? c).isSome then skipChars rest else refuseBefore .invalidEscape rest
  | ['\\'] => refuseBefore .endInText []
  | c :: rest =>
    if c.toNat < 0x20 then refuseBefore .controlCharacter rest else skipChars rest

end PatternAutomata.Json
