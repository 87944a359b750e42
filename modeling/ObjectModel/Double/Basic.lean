/-!
# Double-precision numbers

A `Double` is the 64-bit word of a binary floating-point number. Its meaning is read off the word by
exact integer arithmetic: a finite double is `± significand · 2 ^ exponent`, and the order of the
numbers is the order of their words read as sign and magnitude, which `rank` makes an integer. So
comparison needs no arithmetic, both zeros have rank `0`, and a NaN is comparable to nothing.
-/

namespace ObjectModel

/-- A double-precision number, given by its word. -/
structure Double where
  /-- Sign bit, eleven bits of biased exponent, fifty-two bits of fraction. -/
  bits : UInt64
deriving DecidableEq, Repr, Inhabited

namespace Double

/-- The magnitude of the infinities; every greater magnitude is a NaN. -/
def infinityMagnitude : Nat := 0x7FF0000000000000

/-- The word without its sign. -/
def magnitude (d : Double) : Nat := d.bits.toNat % 0x8000000000000000

def isNegative (d : Double) : Bool := 0x8000000000000000 ≤ d.bits.toNat

def ofMagnitude (negative : Bool) (magnitude : Nat) : Double :=
  ⟨UInt64.ofNat (if negative then 0x8000000000000000 + magnitude else magnitude)⟩

def zero (negative : Bool) : Double := ofMagnitude negative 0

def infinity (negative : Bool) : Double := ofMagnitude negative infinityMagnitude

def nan : Double := ofMagnitude false (infinityMagnitude + 0x8000000000000)

def isNaN (d : Double) : Bool := infinityMagnitude < d.magnitude

def isFinite (d : Double) : Bool := d.magnitude < infinityMagnitude

/-- The leading bit of the coefficient of a normal number, which its word leaves out. -/
def hiddenBit : Nat := 0x10000000000000

/-- The integer coefficient of a finite double. -/
def significand (d : Double) : Nat :=
  if d.magnitude < hiddenBit then d.magnitude else hiddenBit + d.magnitude % hiddenBit

/-- The least exponent, shared by all numbers below the normal range. -/
def minExponent : Int := -1074

/-- The power of two that the coefficient of a finite double is multiplied with. -/
def exponent (d : Double) : Int := max (d.magnitude / hiddenBit : Nat) 1 - 1 + minExponent

/-- The integer part of a finite double, rounded toward zero. -/
def trunc (d : Double) : Int :=
  let magnitude : Nat :=
    if 0 ≤ d.exponent then d.significand <<< d.exponent.toNat
    else d.significand >>> (-d.exponent).toNat
  if d.isNegative then -magnitude else magnitude

/-- The position of a number in the order of the doubles; zero, of either sign, stands at `0`. -/
def rank (d : Double) : Int := if d.isNegative then -d.magnitude else d.magnitude

/-- The order of two numbers, or `none` if one of them is a NaN. -/
def compare? (a b : Double) : Option Ordering :=
  if a.isNaN || b.isNaN then none else some (compare a.rank b.rank)

/-- Numeric equality: the zeros are equal, a NaN equals nothing. -/
def numEq (a b : Double) : Bool := a.compare? b == some .eq

/-- Whether the double is a number other than zero. -/
def isTruthy (d : Double) : Bool := !d.isNaN && d.magnitude != 0

/-- The integer part as a machine word, modulo `2 ^ 64`; zero if the double is not finite. -/
def toInt64 (d : Double) : Int64 := if d.isFinite then Int64.ofInt d.trunc else 0

theorem numEq_iff {a b : Double} :
    a.numEq b = true ↔ a.isNaN = false ∧ b.isNaN = false ∧ a.rank = b.rank := by
  cases ha : a.isNaN <;> cases hb : b.isNaN <;> simp [numEq, compare?, ha, hb]

theorem numEq_comm (a b : Double) : a.numEq b = b.numEq a := by
  rw [Bool.eq_iff_iff, numEq_iff, numEq_iff]
  exact ⟨fun ⟨h₁, h₂, h₃⟩ => ⟨h₂, h₁, h₃.symm⟩, fun ⟨h₁, h₂, h₃⟩ => ⟨h₂, h₁, h₃.symm⟩⟩

example : (ofMagnitude true 0).numEq (ofMagnitude false 0) = true := by decide

example : nan.numEq nan = false := by decide

end Double

end ObjectModel
