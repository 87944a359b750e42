import ObjectModel.Proofs.Numeral.Scanning
/-!
# The order of numbers

Two doubles are ordered by their ranks unless one of them is a NaN. So turning a comparison around
turns its outcome around, and numbers are numerically equal just if the outcome is that they are.
A NaN comes from arithmetic only: rounding never yields one, hence none is read off a string.
-/

namespace ObjectModel

namespace Double

theorem compare?_swap (a b : Double) : b.compare? a = (a.compare? b).map Ordering.swap := by
  rw [compare?, compare?, Bool.or_comm]
  split
  · rfl
  · rw [Option.map_some, Int.compare_swap]

theorem numEq_iff_compare? {a b : Double} : a.numEq b = true ↔ a.compare? b = some .eq := by
  rw [numEq, beq_iff_eq]

theorem numEq_self_iff {a : Double} : a.numEq a = true ↔ a.isNaN = false := by
  rw [numEq_iff]
  exact ⟨And.left, fun h => ⟨h, h, rfl⟩⟩

theorem magnitude_ofMagnitude (negative : Bool) {m : Nat} (hm : m < 0x8000000000000000) :
    (ofMagnitude negative m).magnitude = m := by
  rw [magnitude, ofMagnitude]
  cases negative <;>
    simp only [Bool.false_eq_true, if_false, if_true, UInt64.toNat_ofNat'] <;> omega

theorem isNaN_ofMagnitude (negative : Bool) {m : Nat} (hm : m ≤ infinityMagnitude) :
    (ofMagnitude negative m).isNaN = false := by
  have hlt : m < 0x8000000000000000 := Nat.lt_of_le_of_lt hm (by decide)
  rw [isNaN, magnitude_ofMagnitude negative hlt]
  exact decide_eq_false (Nat.not_lt.2 hm)

theorem isNaN_ofRatio (negative : Bool) (num den : Nat) :
    (ofRatio negative num den).isNaN = false := by
  rw [ofRatio]
  split
  · exact isNaN_ofMagnitude negative (Nat.zero_le _)
  · exact isNaN_ofMagnitude negative (Nat.min_le_right _ _)

theorem isNaN_ofInt (i : Int) : (ofInt i).isNaN = false := isNaN_ofRatio _ _ _

theorem isNaN_ofDecimal (negative : Bool) (digits : Nat) (exponent : Int) :
    (ofDecimal negative digits exponent).isNaN = false := by
  have hzero : (zero negative).isNaN = false := isNaN_ofMagnitude negative (Nat.zero_le _)
  rw [ofDecimal]
  split
  · exact hzero
  split
  · exact isNaN_ofMagnitude negative (Nat.le_refl _)
  split
  · exact hzero
  split <;> exact isNaN_ofRatio _ _ _

end Double

namespace Numeric

theorem compare?_swap (a b : Numeric) : b.compare? a = (a.compare? b).map Ordering.swap := by
  cases a with
  | int i =>
    cases b with
    | int j =>
      change some (compare j.toInt i.toInt) = some (compare i.toInt j.toInt).swap
      rw [Int.compare_swap]
    | float d => exact Double.compare?_swap _ _
  | float c => cases b <;> exact Double.compare?_swap _ _

theorem numEq_iff_compare? {a b : Numeric} : a.numEq b = true ↔ a.compare? b = some .eq := by
  cases a with
  | int i =>
    cases b with
    | int j =>
      change (i == j) = true ↔ some (compare i.toInt j.toInt) = some .eq
      rw [beq_iff_eq, Option.some_inj, Std.compare_eq_iff_eq, Int64.toInt_inj]
    | float d => exact Double.numEq_iff_compare?
  | float c => cases b <;> exact Double.numEq_iff_compare?

theorem numEq_comm (a b : Numeric) : a.numEq b = b.numEq a := by
  rw [Bool.eq_iff_iff, numEq_iff_compare?, numEq_iff_compare?, compare?_swap b a]
  cases b.compare? a with
  | none => exact Iff.rfl
  | some o => cases o <;> simp [Ordering.swap]

end Numeric

/-- The number that a string is read as is not a NaN. -/
theorem Numeral.isNaN_of_scan? {s : Bytes} {r : Scan} (hr : scan? s = some r) :
    r.value.toDouble.isNaN = false := by
  cases hdigits : hasDigits s with
  | false =>
    rw [scan?_of_hasDigits_eq_false hdigits] at hr
    cases hr
  | true =>
    obtain ⟨f, -, hscan⟩ := exists_form_of_hasDigits hdigits
    rw [hscan] at hr
    cases hr
    change f.number.toDouble.isNaN = false
    rw [Form.number]
    split
    · exact Double.isNaN_ofDecimal _ _ _
    · cases int64? f.integer with
      | some i => exact Double.isNaN_ofInt _
      | none => exact Double.isNaN_ofDecimal _ _ _

end ObjectModel
