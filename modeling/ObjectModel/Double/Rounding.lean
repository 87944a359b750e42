import ObjectModel.Double.Basic
/-!
# Rounding to double precision

The double nearest to an exact fraction, the even neighbour if two are equally near. Integers and
decimal numerals are rounded once, from their exact value.
-/

namespace ObjectModel

/-- The integer nearest to `num / den`, the even one if two are equally near. -/
def roundHalfEven (num den : Nat) : Nat :=
  let q := num / den
  let r := num % den
  if den < 2 * r || (2 * r == den && q % 2 == 1) then q + 1 else q

/-- The fraction `(num / den) / base ^ k` as a numerator and a denominator. -/
def scaleDown (base num den : Nat) (k : Int) : Nat × Nat :=
  if 0 ≤ k then (num, den * base.pow k.toNat) else (num * base.pow (-k).toNat, den)

/-- The exponent `e` with `2 ^ e ≤ num / den < 2 ^ (e + 1)`, for positive `num` and `den`. -/
def binaryExponent (num den : Nat) : Int :=
  -- the difference of the logarithms is either the exponent or one more
  let e : Int := (num.log2 : Int) - den.log2
  let (n, d) := scaleDown 2 num den e
  if d ≤ n then e else e - 1

namespace Double

/-- The double nearest to `± num / den`, for positive `den`. Beyond the greatest finite double by
half a unit or more, the result is infinite. -/
def ofRatio (negative : Bool) (num den : Nat) : Double :=
  if num = 0 then zero negative
  else
    let k := max (binaryExponent num den - 52) minExponent
    let (n, d) := scaleDown 2 num den k
    -- a coefficient that rounds up to the next power of two carries into the exponent field
    let magnitude := (k - minExponent).toNat * hiddenBit + roundHalfEven n d
    ofMagnitude negative (min magnitude infinityMagnitude)

def ofInt (i : Int) : Double := ofRatio (i < 0) i.natAbs 1

/-- The double nearest to `± digits · 10 ^ exponent`. -/
def ofDecimal (negative : Bool) (digits : Nat) (exponent : Int) : Double :=
  if digits = 0 then zero negative
  -- exponents far outside the range of the doubles are settled without computing the power
  else if 400 < exponent then infinity negative
  else if exponent + (digits.log2 / 3 + 1 : Nat) < -400 then zero negative
  else if 0 ≤ exponent then ofRatio negative (digits * Nat.pow 10 exponent.toNat) 1
  else ofRatio negative digits (Nat.pow 10 (-exponent).toNat)

def neg (d : Double) : Double := ofMagnitude (!d.isNegative) d.magnitude

/-- The double nearest to the product of two finite doubles. -/
def mul (a b : Double) : Double :=
  let (num, den) := scaleDown 2 (a.significand * b.significand) 1 (-(a.exponent + b.exponent))
  ofRatio (a.isNegative != b.isNegative) num den

def div (a b : Double) : Double :=
  let (num, den) := scaleDown 2 a.significand b.significand (b.exponent - a.exponent)
  ofRatio (a.isNegative != b.isNegative) num den

example : ofInt 1 = ⟨0x3FF0000000000000⟩ := by decide

example : ofDecimal false 1 (-1) = ⟨0x3FB999999999999A⟩ := by decide

example : ofInt 0x20000000000001 = ofInt 0x20000000000000 := by decide

end Double

end ObjectModel
