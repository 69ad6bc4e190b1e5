/-!
# Numbers of binary64

The non-negative finite numbers of the 64-bit binary floating-point format, in exact arithmetic: a
significand of 53 bits at most times a power of two.  A quotient of natural numbers is rounded to
the nearest of them, and halfway to the one with the even significand.
-/

namespace PatternAutomata

/-- The number `significand` · 2 ^ `exponent`. -/
structure Binary64 where
  significand : Nat
  exponent : Int
deriving DecidableEq, Repr

namespace Binary64

/-- The exponent of the least positive number. -/
def leastExponent : Int := -1074

def greatestExponent : Int := 971

/-- The least significand of 53 bits. -/
def leadingBit : Nat := Nat.pow 2 52

def zero : Binary64 := ⟨0, leastExponent⟩

/-- A quotient of natural numbers; the denominator is positive. -/
structure Ratio where
  num : Nat
  den : Nat
deriving DecidableEq, Repr

def Ratio.scale (r : Ratio) (exponent : Int) : Ratio :=
  ⟨r.num * Nat.pow 2 exponent.toNat, r.den * Nat.pow 2 (-exponent).toNat⟩

/-- The natural number nearest to a quotient, halfway the even one. -/
def Ratio.round (r : Ratio) : Nat :=
  let whole := r.num / r.den
  let twice := 2 * (r.num % r.den)
  if twice < r.den || (twice = r.den && whole % 2 = 0) then whole else whole + 1

/-- The greatest power of two that is at most a positive quotient, by its exponent. -/
def Ratio.log2 (r : Ratio) : Int :=
  let guess : Int := r.num.log2 - r.den.log2
  let scaled := r.scale (-guess)
  if scaled.den ≤ scaled.num then guess else guess - 1

def toRatio (x : Binary64) : Ratio :=
  Ratio.scale ⟨x.significand, 1⟩ x.exponent

/-- The number nearest to a quotient; none if that is beyond the greatest number. -/
def ofRatio? (r : Ratio) : Option Binary64 :=
  if r.num = 0 then some zero
  else
    let exponent := max (r.log2 - 52) leastExponent
    let significand := (r.scale (-exponent)).round
    let rounded : Binary64 :=
      if significand = 2 * leadingBit then ⟨leadingBit, exponent + 1⟩ else ⟨significand, exponent⟩
    if rounded.exponent ≤ greatestExponent then some rounded else none

def mul? (x y : Binary64) : Option Binary64 :=
  let a := x.toRatio
  let b := y.toRatio
  ofRatio? ⟨a.num * b.num, a.den * b.den⟩

def div? (x y : Binary64) : Option Binary64 :=
  let a := x.toRatio
  let b := y.toRatio
  ofRatio? ⟨a.num * b.den, a.den * b.num⟩

end Binary64

end PatternAutomata
