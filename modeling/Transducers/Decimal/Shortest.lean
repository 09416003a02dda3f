import Transducers.Decimal.Binary64

/-!
# The shortest decimal text of a number

Of all decimals that are nearer to the number than to any other binary one, the
text shows one with the fewest digits, and of those the nearest.

* `Magnitude.onGrid?`: the nearest such decimal that is a multiple of a given
  power of ten;
* `Magnitude.shortest`: the one on the coarsest grid that has any;
* `Binary64.text`: positional from `0.00001` up to sixteen digits before the
  point, with an exponent and its sign otherwise.
-/

namespace Transducers

/-- A decimal `digits * 10 ^ exponent`. -/
structure Decimal where
  digits : Nat
  exponent : Int
  deriving DecidableEq, Repr

namespace Magnitude

/-- The nearest multiple of `10 ^ k` that reads back as the magnitude, if there is
one.  The interval of numbers that read back ends half way to the neighbours; its
ends belong to it if the significand is even. -/
def onGrid? (m : Magnitude) (k : Int) : Option Decimal :=
  -- In units of a quarter of the last binary place.
  let value := 4 * m.significand
  let low := if m.significand = Nat.pow 2 52 ∧ minExponent < m.exponent then value - 1 else value - 2
  let high := value + 2
  let q := m.exponent - 2
  -- A number of such units times `num / den` is that number in units of `10 ^ k`.
  let num := Nat.pow 2 q.toNat * Nat.pow 10 (-k).toNat
  let den := Nat.pow 2 (-q).toNat * Nat.pow 10 k.toNat
  let inside (c : Nat) : Bool :=
    if m.significand % 2 = 0 then low * num ≤ c * den && c * den ≤ high * num
    else low * num < c * den && c * den < high * num
  let down := value * num / den
  let near := roundHalfEven (value * num) den
  let far := if near = down then down + 1 else down
  if inside near then some ⟨near, k⟩
  else if inside far then some ⟨far, k⟩
  else none

/-- The powers of ten from the greatest to the least that a grid can need. -/
def grids : List Int := (List.range 634).map fun i : Nat => 309 - (i : Int)

/-- The decimal with the fewest digits that reads back as the magnitude. -/
def shortest (m : Magnitude) : Decimal :=
  if m.significand = 0 then ⟨0, 0⟩ else (grids.findSome? m.onGrid?).getD ⟨0, 0⟩

end Magnitude

/-- Digits with a point after the first `n` of them. -/
def pointAfter (n : Nat) (digits : List Char) : List Char :=
  digits.take n ++ '.' :: digits.drop n

/-- An exponent with its sign, also where it is positive. -/
def signedText (n : Int) : List Char :=
  (if n < 0 then '-' else '+') :: (toString n.natAbs).toList

/-- The text of a decimal, always with a point or an exponent. -/
def Decimal.text (x : Decimal) : String :=
  let digits := (toString x.digits).toList
  -- The number of digits before the point.
  let places : Int := digits.length + x.exponent
  .ofList <|
    if 0 ≤ x.exponent ∧ places ≤ 16 then
      digits ++ List.replicate x.exponent.toNat '0' ++ ['.', '0']
    else if 0 < places ∧ places ≤ 16 then
      pointAfter places.toNat digits
    else if -5 < places ∧ places ≤ 0 then
      '0' :: '.' :: List.replicate (-places).toNat '0' ++ digits
    else
      (if digits.length = 1 then digits else pointAfter 1 digits) ++
        'e' :: signedText (places - 1)

def Binary64.text (x : Binary64) : String :=
  (if x.negative then "-" else "") ++ x.magnitude.shortest.text

end Transducers
