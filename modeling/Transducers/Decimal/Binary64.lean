/-!
# Binary floating point with 53 bits

A magnitude is `significand * 2 ^ exponent`.  Its operations are exact division of
natural numbers followed by one rounding to the nearest magnitude, a half going
to the even significand.

* `roundHalfEven`: the natural number nearest to a fraction;
* `Magnitude.nearest`: the magnitude nearest to a fraction;
* `Magnitude.scale`: a magnitude times a power of ten, rounded once a step.
-/

namespace Transducers

/-- The natural number nearest to `num / den`, a half going to the even one. -/
def roundHalfEven (num den : Nat) : Nat :=
  let q := num / den
  let r := num % den
  if den < 2 * r ∨ (2 * r = den ∧ q % 2 = 1) then q + 1 else q

/-- A number that is not negative, `significand * 2 ^ exponent`. -/
structure Magnitude where
  significand : Nat
  exponent : Int
  deriving DecidableEq, Repr

namespace Magnitude

/-- The least exponent: numbers below its reach lose digits. -/
def minExponent : Int := -1074

/-- The greatest exponent: numbers above its reach are infinite. -/
def maxExponent : Int := 971

def zero : Magnitude := ⟨0, minExponent⟩

/-- The fraction `num / den / 2 ^ e` as numerator and denominator. -/
def shifted (num den : Nat) (e : Int) : Nat × Nat :=
  (num * Nat.pow 2 (-e).toNat, den * Nat.pow 2 e.toNat)

/-- The exponent of the greatest power of two up to `num / den`. -/
def log2 (num den : Nat) : Int :=
  let guess : Int := num.log2 - den.log2
  let (n, d) := shifted num den guess
  if d ≤ n then guess else guess - 1

/-- The magnitude nearest to `num / den`; its exponent may be too great. -/
def nearest (num den : Nat) : Magnitude :=
  if num = 0 then zero
  else
    let e := max minExponent (log2 num den - 52)
    let (n, d) := shifted num den e
    let s := roundHalfEven n d
    if s = Nat.pow 2 53 then ⟨Nat.pow 2 52, e + 1⟩ else ⟨s, e⟩

def ofNat (n : Nat) : Magnitude := nearest n 1

def isInfinite (m : Magnitude) : Bool := maxExponent < m.exponent

def mul (x y : Magnitude) : Magnitude :=
  let (d, n) := shifted 1 (x.significand * y.significand) (x.exponent + y.exponent)
  nearest n d

def div (x y : Magnitude) : Magnitude :=
  let (d, n) := shifted y.significand x.significand (x.exponent - y.exponent)
  nearest n d

/-- The magnitude nearest to a power of ten. -/
def powerOfTen (n : Nat) : Magnitude := ofNat (Nat.pow 10 n)

/-- The greatest power of ten that is no infinity. -/
def maxPowerOfTen : Nat := 308

/-- A magnitude divided by `10 ^ n`, by one division for each `10 ^ 308` that fits. -/
def shrink (x : Magnitude) (n : Nat) : Magnitude :=
  if n ≤ maxPowerOfTen then x.div (powerOfTen n)
  else if x.significand = 0 then x
  else shrink (x.div (powerOfTen maxPowerOfTen)) (n - maxPowerOfTen)
termination_by n
decreasing_by simp [maxPowerOfTen] at *; omega

/-- A magnitude times `10 ^ e`, or nothing if that is infinite. -/
def scale (x : Magnitude) (e : Int) : Option Magnitude :=
  if e < 0 then some (x.shrink (-e).toNat)
  else if e.toNat ≤ maxPowerOfTen then
    let y := x.mul (powerOfTen e.toNat)
    if y.isInfinite then none else some y
  else if x.significand = 0 then some x
  else none

end Magnitude

/-- A finite number with a sign; zero has two. -/
structure Binary64 where
  negative : Bool
  magnitude : Magnitude
  deriving DecidableEq, Repr

end Transducers
