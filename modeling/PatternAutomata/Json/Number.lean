import PatternAutomata.Decimal.Shortest
import PatternAutomata.Json.ReadError

/-!
# Reading JSON numbers

A number is written with an optional sign, digits, and possibly a fraction and a power of ten.
Without these two it is an integer if 64 bits hold it.  Any other number is one of binary64: as many
digits as 64 bits hold are taken, further ones only count by their place, and the result is scaled
by a rounded power of ten.
-/

namespace PatternAutomata.Json

/-- The parts of a written number. -/
structure NumberText where
  negative : Bool
  whole : List Char
  /-- The digits after the point, if there is one. -/
  fraction : Option (List Char)
  /-- Whether the power of ten is negative, and its digits, if there is one. -/
  power : Option (Bool × List Char)
deriving DecidableEq, Repr

/-- A number. -/
inductive Number where
  | natural (value : Nat)
  | negative (value : Nat) -- the positive `value` below zero
  | real (negative : Bool) (value : Binary64)
deriving DecidableEq, Repr

/-! ### Form -/

def digitsOf (text : List Char) : List Char × List Char :=
  (text.takeWhile Char.isDigit, text.dropWhile Char.isDigit)

/-- Splits a text after its leading digits, of which there must be one at least. -/
def someDigits (text : List Char) : Except ReadError (List Char × List Char) :=
  match digitsOf text with
  | ([], []) => refuse .endInValue []
  | ([], rest) => refuse .invalidNumber rest
  | digits => .ok digits

/-- Reads the sign of a power of ten: whether it is negative. -/
def powerSign : List Char → Bool × List Char
  | '-' :: rest => (true, rest)
  | '+' :: rest => (false, rest)
  | rest => (false, rest)

/-- Reads the digits before the point; only a single zero may lead. -/
def scanWhole (text : List Char) : Except ReadError (List Char × List Char) := do
  let (whole, rest) ← someDigits text
  match whole with
  | '0' :: _ :: _ => refuse .invalidNumber (text.drop 1)
  | _ => return (whole, rest)

/-- Reads the digits after a point, if there is one. -/
def scanFraction : List Char → Except ReadError (Option (List Char) × List Char)
  | '.' :: rest => do
    let (digits, rest) ← someDigits rest
    return (some digits, rest)
  | rest => .ok (none, rest)

/-- Reads a power of ten, if there is one. -/
def scanPower : List Char → Except ReadError (Option (Bool × List Char) × List Char)
  | [] => .ok (none, [])
  | c :: rest =>
    if c = 'e' || c = 'E' then do
      let (negative, rest) := powerSign rest
      let (digits, rest) ← someDigits rest
      return (some (negative, digits), rest)
    else .ok (none, c :: rest)

def scanUnsigned (negative : Bool) (text : List Char) :
    Except ReadError (NumberText × List Char) := do
  let (whole, rest) ← scanWhole text
  let (fraction, rest) ← scanFraction rest
  let (power, rest) ← scanPower rest
  return (⟨negative, whole, fraction, power⟩, rest)

def scanNumber : List Char → Except ReadError (NumberText × List Char)
  | '-' :: rest => scanUnsigned true rest
  | text => scanUnsigned false text

/-! ### Value -/

/-- The greatest number of 64 bits. -/
def greatestWord : Nat := UInt64.size - 1

def digitValue (c : Char) : Nat := c.toNat - '0'.toNat

/-- Appends digits to `taken` while 64 bits hold the result; with the number of digits left over. -/
def takeWhole (taken : Nat) : List Char → Nat × Nat
  | [] => (taken, 0)
  | c :: rest =>
    let more := taken * 10 + digitValue c
    if more ≤ greatestWord then takeWhole more rest else (taken, rest.length + 1)

/-- Appends digits to `taken` while 64 bits hold the result; with the number of digits taken. -/
def takeFraction (taken : Nat) : List Char → Nat × Nat
  | [] => (taken, 0)
  | c :: rest =>
    let more := taken * 10 + digitValue c
    if more ≤ greatestWord then
      let (value, count) := takeFraction more rest
      (value, count + 1)
    else (taken, 0)

def digitsValue (digits : List Char) : Nat :=
  digits.foldl (fun value c => value * 10 + digitValue c) 0

/-- The number of binary64 nearest to a power of ten. -/
def powerOfTen? (exponent : Nat) : Option Binary64 :=
  Binary64.ofRatio? ⟨Nat.pow 10 exponent, 1⟩

def greatestPower : Nat := 308

def divideTimes? (divisor : Binary64) : Nat → Binary64 → Option Binary64
  | 0, x => some x
  | times + 1, x =>
    if x.significand = 0 then some x
    else do divideTimes? divisor times (← x.div? divisor)

/-- A number divided by a power of ten, in steps that are not greater than the greatest. -/
def divideByPower? (x : Binary64) (exponent : Nat) : Option Binary64 := do
  let times := (exponent - 1) / greatestPower
  let reduced ← divideTimes? (← powerOfTen? greatestPower) times x
  reduced.div? (← powerOfTen? (exponent - times * greatestPower))

/-- A number multiplied by a power of ten; none if that is out of range. -/
def multiplyByPower? (x : Binary64) (exponent : Nat) : Option Binary64 :=
  if exponent ≤ greatestPower then do x.mul? (← powerOfTen? exponent)
  else if x.significand = 0 then some x
  else none

/-- A decimal as a number of binary64; none if it is out of range. -/
def realOf? (significand : Nat) (exponent : Int) : Option Binary64 := do
  let x ← Binary64.ofRatio? ⟨significand, 1⟩
  if 0 ≤ exponent then multiplyByPower? x exponent.toNat
  else divideByPower? x (-exponent).toNat

/-- The number that is written; none if it is out of range. -/
def NumberText.value? (text : NumberText) : Option Number :=
  let (whole, left) := takeWhole 0 text.whole
  let real (significand : Nat) (exponent : Int) : Option Number :=
    (realOf? significand exponent).map (.real text.negative)
  match text.fraction, text.power with
  | none, none =>
    if left ≠ 0 then real whole left
    else if !text.negative then some (.natural whole)
    else if whole = 0 || UInt64.size / 2 < whole then real whole 0
    else some (.negative whole)
  | fraction, power =>
    let (significand, places) := takeFraction whole (fraction.getD [])
    let scale : Int :=
      match power with
      | none => 0
      | some (true, digits) => -digitsValue digits
      | some (false, digits) => digitsValue digits
    real significand (left - places + scale)

def readNumber (text : List Char) : Except ReadError (Number × List Char) := do
  let (parts, rest) ← scanNumber text
  match parts.value? with
  | some number => return (number, rest)
  | none => refuseBefore .numberOutOfRange rest

/-- Decimals with a leading digit from 10⁻⁵ to 10¹⁵ are shown with all their digits. -/
def realStyle : Decimal.Style := ⟨-5, 15⟩

def Number.shown : Number → String
  | natural value => s!"integer `{value}`"
  | negative value => s!"integer `-{value}`"
  | real below value =>
    let sign := if below then "-" else ""
    let digits := (Decimal.shortest value).text realStyle
    s!"floating point `{sign}{digits}`"

end PatternAutomata.Json
