import ObjectModel.Json.Basic
import ObjectModel.Numeral
/-!
# JSON numbers

A number is an integer if it has neither point nor exponent, fits a signed or unsigned machine word,
and is not zero with a minus sign. Every other number becomes a double, quickly rather than exactly:
its digits are collected in an unsigned machine word as far as they fit, and the rounded word is
multiplied with a rounded power of ten or divided by it. So the result may miss the nearest double
by some units in the last place, and a number close to the greatest double may count as beyond it.
-/

namespace ObjectModel.Json

/-- The digits added to a number as long as it fits an unsigned machine word, and how many digits
are left over. -/
def appendDigits (n : Nat) : Bytes → Nat × Nat
  | [] => (n, 0)
  | d :: ds =>
    let n' := 10 * n + (d.toNat - 0x30)
    if n' < 0x10000000000000000 then appendDigits n' ds else (n, ds.length + 1)

/-- The greatest exponent of a power of ten that is a double. -/
def maxPower : Nat := 308

/-- The double next to a power of ten. -/
def powerOfTen (n : Nat) : Double := .ofDecimal false 1 n

/-- A double times a power of ten, unless it is infinite. -/
def scaleByTens (d : Double) (e : Int) : Option Double :=
  if e < -maxPower then
    -- the divisor is no double, so the quotient is taken in steps, which soon arrive at zero
    if d.magnitude = 0 then some d else scaleByTens (d.div (powerOfTen maxPower)) (e + maxPower)
  else if e < 0 then some (d.div (powerOfTen e.natAbs))
  else if e ≤ maxPower then some (d.mul (powerOfTen e.natAbs)) |>.filter Double.isFinite
  else if d.magnitude = 0 then some d
  else none
termination_by (-e).toNat
decreasing_by simp only [maxPower] at *; omega

/-- The double that a number becomes, unless it lies beyond the doubles. -/
def double? (negative : Bool) (whole fraction : Bytes) (exponent : Int) : Option Double :=
  let (n, wholeLeft) := appendDigits 0 whole
  let (n, fractionLeft) := appendDigits n fraction
  let e := exponent + wholeLeft - (fraction.length - fractionLeft : Nat)
  (scaleByTens (.ofInt n) e).map fun d => if negative then d.neg else d

/-- The value of a number, unless it lies beyond the doubles. -/
def numberValue? (negative : Bool) (whole : Bytes) (fraction? : Option Bytes)
    (exponent? : Option Int) : Option Json :=
  let n := Numeral.digitsValue whole
  let i := Numeral.signed negative n
  if fraction?.isNone && exponent?.isNone && !(negative && n == 0) &&
      decide (-0x8000000000000000 ≤ i ∧ i < 0x10000000000000000) then
    some (.int i)
  else (double? negative whole (fraction?.getD []) (exponent?.getD 0)).map .float

/-- The value of the number that a word is: a minus sign or none, digits without needless zeros, a
point with digits or none, an exponent or none. There is no value beyond the doubles. -/
def number? (word : Bytes) : Option (Option Json) :=
  let (negative, s) := match word with
    | 0x2D :: s => (true, s)
    | s => (false, s)
  let whole := s.takeWhile Bytes.isDigit
  let (fraction?, s) := Numeral.splitFraction whole (s.dropWhile Bytes.isDigit)
  let (exponent?, s) := Numeral.splitExponent s
  let wellFormed := !whole.isEmpty && (whole == [0x30] || whole.head? != some 0x30) &&
    fraction? != some [] && s.isEmpty
  if wellFormed then some (numberValue? negative whole fraction? exponent?) else none

end ObjectModel.Json
