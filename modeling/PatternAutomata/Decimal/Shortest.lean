import PatternAutomata.Decimal.Binary64

/-!
# Shortest decimals

The written form of a number of binary64 has as few digits as are needed to read the number back,
and of those with that many digits it is the nearest.  The digits are found by trying the decimal
grids from the coarsest on: a grid holds a decimal that reads back only if one of the number's two
neighbours on the grid does.
-/

namespace PatternAutomata

/-- The decimal `digits` · 10 ^ `exponent`. -/
structure Decimal where
  digits : Nat
  exponent : Int
deriving DecidableEq, Repr

namespace Decimal

def toRatio (d : Decimal) : Binary64.Ratio :=
  ⟨d.digits * Nat.pow 10 d.exponent.toNat, Nat.pow 10 (-d.exponent).toNat⟩

def readsAs (d : Decimal) (x : Binary64) : Bool :=
  Binary64.ofRatio? d.toRatio = some x

/-- The exponent of the greatest power of ten that is at most a positive quotient, from a guess that
is not too high. -/
def log10From (r : Binary64.Ratio) : Nat → Int → Int
  | 0, guess => guess
  | fuel + 1, guess =>
    let above := toRatio ⟨1, guess + 1⟩
    if above.num * r.den ≤ r.num * above.den then log10From r fuel (guess + 1) else guess

def log10 (r : Binary64.Ratio) : Int :=
  log10From r 2000 ((r.log2 * 30103).fdiv 100000 - 2)

/-- The decimal of the grid of 10 ^ `exponent` that reads back as the number, the nearer one if its
two neighbours both do. -/
def onGrid? (x : Binary64) (exponent : Int) : Option Decimal :=
  let r := x.toRatio
  let unit := toRatio ⟨1, exponent⟩
  let num := r.num * unit.den
  let den := r.den * unit.num
  let below : Decimal := ⟨num / den, exponent⟩
  let above : Decimal := ⟨num / den + 1, exponent⟩
  let nearer := 2 * (num % den)
  match below.readsAs x, above.readsAs x with
  | true, true =>
    if nearer < den || (nearer = den && below.digits % 2 = 0) then some below else some above
  | true, false => some below
  | false, true => some above
  | false, false => none

/-- The shortest decimal of a positive number, from the grid with `tried` digits on. -/
def shortestFrom (x : Binary64) (leading : Int) : Nat → Nat → Decimal
  | 0, tried => ⟨0, leading - tried⟩
  | fuel + 1, tried =>
    match onGrid? x (leading - tried) with
    | some d => d
    | none => shortestFrom x leading fuel (tried + 1)

def trimZeros : Nat → Decimal → Decimal
  | 0, d => d
  | fuel + 1, d =>
    if d.digits ≠ 0 && d.digits % 10 = 0 then trimZeros fuel ⟨d.digits / 10, d.exponent + 1⟩ else d

/-- The shortest decimal of a number; seventeen digits always suffice. -/
def shortest (x : Binary64) : Decimal :=
  if x.significand = 0 then ⟨0, 0⟩
  else trimZeros 20 (shortestFrom x (log10 x.toRatio) 20 0)

/-! ### Written form -/

/-- Which decimals are written with all their digits; the others take a power of ten. -/
structure Style where
  /-- The least exponent of the leading digit that is written with leading zeros. -/
  least : Int
  /-- The greatest exponent of the leading digit that is written with all digits. -/
  greatest : Int

def zeros (n : Nat) : String := String.ofList (List.replicate n '0')

def withPoint (digits : String) (whole : Nat) : String :=
  let chars := digits.toList
  String.ofList (chars.take whole ++ '.' :: chars.drop whole)

/-- The decimal with a point and all its digits, at least one on either side of the point. -/
def positional (d : Decimal) : String :=
  let digits := toString d.digits
  if 0 ≤ d.exponent then digits ++ zeros d.exponent.toNat ++ ".0"
  else
    let places := (-d.exponent).toNat
    if places < digits.length then withPoint digits (digits.length - places)
    else "0." ++ zeros (places - digits.length) ++ digits

/-- The decimal with one digit before the point and the power of ten after it, whose sign is always
written; a single digit has no point. -/
def scientific (d : Decimal) (leading : Int) : String :=
  let digits := toString d.digits
  let mantissa := if digits.length = 1 then digits else withPoint digits 1
  let sign := if leading < 0 then "-" else "+"
  mantissa ++ "e" ++ sign ++ toString leading.natAbs

def text (style : Style) (d : Decimal) : String :=
  let leading := d.exponent + (toString d.digits).length - 1
  if d.digits = 0 || (style.least ≤ leading && leading ≤ style.greatest) then positional d
  else scientific d leading

end Decimal

end PatternAutomata
