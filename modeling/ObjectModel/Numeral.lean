import ObjectModel.Bytes.Basic
import ObjectModel.Double.Rounding
/-!
# Numerals at the start of a byte string

Three readers. `scan?` takes the longest prefix that is a number: blanks, a sign, digits with at
most one point among or beside them, and an exponent if its digits are there. It cuts the number out
and has it read as a whole, by `readNumeric?`, which may refuse other texts. `intPrefix` stops at
the first byte that is no digit. `canonicalInt?` accepts a string only if it is the decimal text of
a machine integer, which is what makes it an integer key of an array.
-/

namespace ObjectModel

/-- A number as a numeral denotes it. -/
inductive Numeric where
  | int (i : Int64)
  | float (d : Double)
deriving DecidableEq, Repr

def Numeric.toDouble : Numeric → Double
  | int i => .ofInt i.toInt
  | float d => d

/-- Numeric equality: exact between integers, after rounding to doubles otherwise. -/
def Numeric.numEq : Numeric → Numeric → Bool
  | int i, int j => i == j
  | a, b => a.toDouble.numEq b.toDouble

/-- The numeric order, with the same rounding as `Numeric.numEq`. -/
def Numeric.compare? : Numeric → Numeric → Option Ordering
  | int i, int j => some (compare i.toInt j.toInt)
  | a, b => a.toDouble.compare? b.toDouble

/-- The machine integer with a given value, if it is in range. -/
def int64? (i : Int) : Option Int64 :=
  if -0x8000000000000000 ≤ i ∧ i < 0x8000000000000000 then some (.ofInt i) else none

def decimalText (i : Int) : List Char :=
  if i < 0 then '-' :: Nat.toDigits 10 i.natAbs else Nat.toDigits 10 i.natAbs

namespace Numeral

open Bytes (isDigit isBlank)

def digitsValue (ds : Bytes) : Nat := ds.foldl (fun n b => 10 * n + (b.toNat - 0x30)) 0

/-- Splits a sign off; `true` stands for minus. -/
def splitSign : Bytes → Bool × Bytes
  | 0x2B :: s => (false, s)
  | 0x2D :: s => (true, s)
  | s => (false, s)

/-- The integer with a given sign and absolute value. -/
def signed (negative : Bool) (n : Nat) : Int := if negative then -n else n

/-- The digits after a point, if the string starts with a point and a digit stands on either side
of it, and the rest. -/
def splitFraction (whole : Bytes) : Bytes → Option Bytes × Bytes
  | 0x2E :: s =>
    let fraction := s.takeWhile isDigit
    if whole.isEmpty && fraction.isEmpty then (none, 0x2E :: s)
    else (some fraction, s.dropWhile isDigit)
  | s => (none, s)

/-- The exponent, if the string starts with a mark, an optional sign and a digit, and the rest. -/
def splitExponent : Bytes → Option Int × Bytes
  | [] => (none, [])
  | b :: s =>
    let (negative, t) := splitSign s
    let digits := t.takeWhile isDigit
    if (b == 0x45 || b == 0x65) && !digits.isEmpty then
      (some (signed negative (digitsValue digits)), t.dropWhile isDigit)
    else (none, b :: s)

/-- A numeral found at the start of a string. -/
structure Scan where
  /-- The number it denotes. -/
  value : Numeric
  /-- Whether only blanks follow. -/
  whole : Bool
deriving DecidableEq, Repr

def readInteger? (text : Bytes) : Option Int :=
  let (negative, digits) := splitSign text
  if digits.isEmpty || !digits.all isDigit then none
  else some (signed negative (digitsValue digits))

def readInt64? (text : Bytes) : Option Int64 := (readInteger? text).bind int64?

/-- The double that a word stands for, in capital or small letters. -/
def namedDouble? (negative : Bool) (word : Bytes) : Option Double :=
  if word.eqIgnoreCase (Bytes.ofString "inf") || word.eqIgnoreCase (Bytes.ofString "infinity") then
    some (.infinity negative)
  else if word.eqIgnoreCase (Bytes.ofString "nan") then
    some (.ofMagnitude negative Double.nan.magnitude)
  else none

/-- The double nearest to the number that a text denotes, or the one that it names. -/
def readDouble? (text : Bytes) : Option Double :=
  let (negative, word) := splitSign text
  let whole := word.takeWhile isDigit
  let (fraction?, s) := splitFraction whole (word.dropWhile isDigit)
  let (exponent?, s) := splitExponent s
  if (whole.isEmpty && fraction?.isNone) || !s.isEmpty then namedDouble? negative word
  else
    let fraction := fraction?.getD []
    some (.ofDecimal negative (digitsValue (whole ++ fraction))
      (exponent?.getD 0 - fraction.length))

/-- The number that the text of a numeral denotes: a double if it has a point or an exponent, and
otherwise an integer, or a double where the integer exceeds the machine word. -/
def readNumeric? (hasPointOrExponent : Bool) (text : Bytes) : Option Numeric :=
  if hasPointOrExponent then (readDouble? text).map .float
  else
    match readInt64? text with
    | some i => some (.int i)
    | none => (readDouble? text).map .float

/-- The longest numeral at the start of a string, after blanks. -/
def scan? (s : Bytes) : Option Scan :=
  let start := s.dropWhile isBlank
  let (_, s) := splitSign start
  let whole := s.takeWhile isDigit
  let (fraction?, s) := splitFraction whole (s.dropWhile isDigit)
  if whole.isEmpty && fraction?.isNone then none
  else
    let (exponent?, s) := splitExponent s
    let text := start.take (start.length - s.length)
    (readNumeric? (fraction?.isSome || exponent?.isSome) text).map fun value =>
      ⟨value, s.all isBlank⟩

def isNumeric (s : Bytes) : Bool := (scan? s).any (·.whole)

/-- The numeral that makes up a whole string. -/
def scanWhole? (s : Bytes) : Option Numeric := ((scan? s).filter (·.whole)).map (·.value)

/-- The integer with one more digit. A product or a sum beyond the machine word stops at its end. -/
def appendDigit (negative : Bool) (i : Int64) (b : UInt8) : Int64 :=
  let tens := Int64.ofIntClamp (i.toInt * 10)
  let digit : Nat := b.toNat - 0x30
  .ofIntClamp (if negative then tens.toInt - digit else tens.toInt + digit)

/-- The integer at the start of a string, after blanks and a sign, as far as its digits go; zero if
there is no digit. -/
def intPrefix (s : Bytes) : Int64 :=
  let (negative, s) := splitSign (s.dropWhile isBlank)
  (s.takeWhile isDigit).foldl (appendDigit negative) 0

def doublePrefix (s : Bytes) : Double := ((scan? s).map (·.value.toDouble)).getD (.zero false)

def isCanonical (negative : Bool) : Bytes → Bool
  | [] => false
  | [0x30] => !negative
  | d :: ds => d != 0x30 && (d :: ds).all isDigit

/-- The most bytes that the decimal text of a machine integer has. -/
def maxIntLength : Nat := 20

/-- The machine integer whose decimal text a string is. -/
def canonicalInt? (s : Bytes) : Option Int64 :=
  let (negative, digits) := match s with
    | 0x2D :: s => (true, s)
    | s => (false, s)
  if s.length ≤ maxIntLength && isCanonical negative digits then readInt64? s else none

example : (scan? (Bytes.ofString " 12abc")).map (·.value) = some (.int 12) := by decide

example : canonicalInt? (Bytes.ofString "-0") = none := by decide

end Numeral

end ObjectModel
