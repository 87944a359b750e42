import ObjectModel.Double.Digits
import ObjectModel.Numeral
/-!
# The written form of a double

The digits are chosen first (`ObjectModel.Double.Digits`). They arrive in scientific notation, off
which digits and decimal point are read, and here they are laid out. A number is written in
positional notation while its decimal point stands within three zeros before the first digit and a
threshold after it, and with an exponent otherwise: one digit, a point, at least one more digit, a
mark, and the exponent with its sign. Infinite doubles and NaN have names.
-/

namespace ObjectModel

namespace Decimal

/-- The first digit, a point and the others if there are any, and the exponent behind `e`. The
digits are filled up with zeros to at least `n`. -/
def rendering (x : Decimal) (n : Nat) : List Char :=
  let digits := x.digits ++ List.replicate (n - x.digits.length) '0'
  let fraction := if digits.length ≤ 1 then [] else '.' :: digits.drop 1
  digits.take 1 ++ fraction ++ 'e' :: decimalText (x.point - 1)

/-- Drops the zeros at the end of a sequence of digits, but never its first digit. -/
def dropZeros : List Char → List Char
  | [] => []
  | d :: ds => d :: (ds.reverse.dropWhile (· == '0')).reverse

/-- Reads digits and decimal point off scientific notation. -/
def ofRendering (text : List Char) : Decimal :=
  let digits := dropZeros ((text.takeWhile (· != 'e')).filter Char.isDigit)
  let exponent := (text.dropWhile (· != 'e')).drop 1
  if digits = ['0'] then zero
  else ⟨digits, (Numeral.readInteger? (Bytes.ofString (String.ofList exponent))).getD 0 + 1⟩

/-- Digits with the point where it belongs; zeros fill the gap between point and digits. -/
def positional (x : Decimal) : List Char :=
  if x.point ≤ 0 then '0' :: '.' :: List.replicate (-x.point).toNat '0' ++ x.digits
  else
    let whole := x.point.toNat
    if x.digits.length ≤ whole then x.digits ++ List.replicate (whole - x.digits.length) '0'
    else x.digits.take whole ++ '.' :: x.digits.drop whole

/-- Digits with the point after the first and the exponent behind `mark`. -/
def scientific (mark : Char) (x : Decimal) : List Char :=
  let exponent := x.point - 1
  x.digits.take 1 ++ '.' :: (if x.digits.length ≤ 1 then ['0'] else x.digits.drop 1) ++
    mark :: (if exponent < 0 then '-' else '+') :: Nat.toDigits 10 exponent.natAbs

/-- Positional notation for points from `-3` to `threshold`, and an exponent for others. -/
def layout (threshold : Int) (mark : Char) (x : Decimal) : List Char :=
  if x.point < -3 || threshold < x.point then x.scientific mark else x.positional

end Decimal

namespace Double

def withSign (d : Double) (text : List Char) : List Char :=
  if d.isNegative then '-' :: text else text

def specialName (d : Double) (nan inf : String) : List Char :=
  if d.isNaN then nan.toList else d.withSign inf.toList

/-- The value in scientific notation: rounded to a number of significant digits, or with the fewest
digits that read back as the double. -/
def rendering (d : Double) : (precision? : Option Nat) → List Char
  | some n => (d.significantDigits n).rendering n
  | none => d.shortestDigits.rendering 1

/-- The text of a double, in positional notation up to as many digits as are asked for, or seventeen
if the fewest are. At least one digit is always asked for. -/
def written (d : Double) (precision? : Option Nat) (mark : Char) : List Char :=
  if d.isFinite then
    let precision? := precision?.map (max · 1)
    d.withSign ((Decimal.ofRendering (d.rendering precision?)).layout (precision?.getD 17) mark)
  else d.specialName "NAN" "INF"

/-- At most `precision` significant digits; the exponent mark is `E`. -/
def format (d : Double) (precision : Nat) : List Char := d.written (some precision) 'E'

/-- The fewest digits that read back as the double, positional up to seventeen digits. -/
def formatShortest (d : Double) (mark : Char) : List Char := d.written none mark

/-- The fewest digits that read back as the double, never with an exponent. -/
def formatPositional (d : Double) : List Char :=
  if d.isFinite then d.withSign d.shortestDigits.positional else d.specialName "NaN" "inf"

example : (ofDecimal false 1 25).format 14 = "1.0E+25".toList := by decide +kernel

example : (ofDecimal true 15 (-1)).formatShortest 'e' = "-1.5".toList := by decide +kernel

end Double

end ObjectModel
