import ObjectModel.Double.Rounding
/-!
# Decimal digits of a double

Two ways to choose the significant digits of a finite double: a given number of them, rounded from
the exact value, and the fewest that still lie nearer to this double than to any other. Both work on
the exact value `significand · 2 ^ exponent`.
-/

namespace ObjectModel

/-- The decimal fraction `0.d₁d₂…dₙ · 10 ^ point`. -/
structure Decimal where
  /-- The significant digits, without zeros at the end. -/
  digits : List Char
  /-- The position of the decimal point, counted from before the first digit. -/
  point : Int
deriving DecidableEq, Repr

namespace Decimal

/-- Zero is written with one digit before the point. -/
def zero : Decimal := ⟨['0'], 1⟩

/-- The decimal `n · 10 ^ k`, for positive `n`. -/
def ofScaled (n : Nat) (k : Int) : Decimal :=
  let ds := Nat.toDigits 10 n
  ⟨(ds.reverse.dropWhile (· == '0')).reverse, ds.length + k⟩

end Decimal

namespace Double

/-- The numerator and denominator of `n · 2 ^ k`. -/
def ratio (n : Nat) (k : Int) : Nat × Nat := scaleDown 2 n 1 (-k)

/-- The exponent `e` with `10 ^ (e - 1) ≤ num / den < 10 ^ e`, for positive `num` and `den`. -/
def decimalPoint (num den : Nat) : Int :=
  -- the binary exponent times the logarithm of two is too small by at most one
  let e := binaryExponent num den * 30103 / 100000
  let below (k : Int) : Bool := let (n, d) := scaleDown 10 num den k; n < d
  if below e then e else if below (e + 1) then e + 1 else e + 2

/-- The value to `n` significant digits, or to all of them if it has fewer; the even digit where two
are equally near. -/
def significantDigits (d : Double) (n : Nat) : Decimal :=
  if d.significand = 0 then .zero
  else
    let (num, den) := ratio d.significand d.exponent
    -- the value is a whole number, or a multiple of the power of ten with its negative exponent
    let k := max (decimalPoint num den - n) (min d.exponent 0)
    let (num, den) := scaleDown 10 num den k
    .ofScaled (roundHalfEven num den) k

/-- The multiple of `10 ^ k` that represents the double: it must lie among the numbers that round to
the double, and of two such neighbours of the value the nearer is taken, the greater if both are
equally near. -/
def nearestOnGrid? (d : Double) (k : Int) : Option Nat :=
  let m := d.significand
  -- below a power of two the doubles lie twice as close
  let down := if m = hiddenBit && minExponent < d.exponent then 1 else 2
  -- in quarters of the unit in the last place, divided by the grid's step
  let (unit, den) := ratio 1 (d.exponent - 2)
  let (unit, den) := scaleDown 10 unit den k
  let value := 4 * m * unit
  let inside (c : Nat) : Bool :=
    let least := (4 * m - down) * unit
    let greatest := (4 * m + 2) * unit
    if m % 2 = 0 then least ≤ c * den && c * den ≤ greatest
    else least < c * den && c * den < greatest
  let c := value / den
  if inside c && (!inside (c + 1) || 2 * (value % den) < den) then some c
  else if inside (c + 1) then some (c + 1)
  else none

/-- The first of the grids with `n`, `n + 1`, … significant digits that represents the double; at
most `fuel` grids are tried before the value is rounded. -/
def shortestFrom (d : Double) (point : Int) (n : Nat) : (fuel : Nat) → Decimal
  | 0 => d.significantDigits n
  | fuel + 1 =>
    match d.nearestOnGrid? (point - n) with
    | some c => .ofScaled c (point - n)
    | none => shortestFrom d point (n + 1) fuel

/-- The fewest digits that read back as the double, and of those the nearest to its value. Seventeen
digits always suffice. -/
def shortestDigits (d : Double) : Decimal :=
  if d.significand = 0 then .zero
  else
    let (num, den) := ratio d.significand d.exponent
    shortestFrom d (decimalPoint num den) 1 17

example : (ofDecimal false 1 (-1)).shortestDigits = ⟨['1'], 0⟩ := by decide +kernel

example : (⟨1⟩ : Double).shortestDigits = ⟨['5'], -323⟩ := by decide +kernel

example : (ofDecimal false 25 (-1)).significantDigits 1 = ⟨['2'], 1⟩ := by decide +kernel

end Double

end ObjectModel
