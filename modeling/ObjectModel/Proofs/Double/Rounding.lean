import Mathlib.Algebra.Order.Field.Power
import Mathlib.Algebra.Order.Ring.Rat
import Mathlib.Tactic.Linarith
import Mathlib.Tactic.Positivity
import Mathlib.Tactic.Ring
import ObjectModel.Proofs.Double.Order
/-!
# Rounding to the nearest double

A fraction is divided by a power of two that leaves as many binary digits as a coefficient has, or
fewer below the normal range, and the quotient is rounded to an integer. No multiple of that power is
nearer to the fraction, and the doubles with smaller exponents all lie below its multiples in the
normal range. So no double is nearer than the result, as long as it is finite, and it is finite just
if the fraction stays below the greatest finite double by less than half a unit of its last digit.
A decimal numeral is rounded as the fraction that it is, exponents outside the range included.
-/

namespace ObjectModel

section Fractions

variable {base num den : Nat} {k : Int}

theorem scaleDown_pos (hbase : 0 < base) (hden : 0 < den) : 0 < (scaleDown base num den k).2 := by
  rw [scaleDown]
  split
  · exact Nat.mul_pos hden (Nat.pow_pos hbase)
  · exact hden

theorem scaleDown_fst_pos (hbase : 0 < base) (hnum : 0 < num) :
    0 < (scaleDown base num den k).1 := by
  rw [scaleDown]
  split
  · exact hnum
  · exact Nat.mul_pos hnum (Nat.pow_pos hbase)

/-- Scaling divides the fraction by a power of the base. -/
theorem scaleDown_div (hbase : 0 < base) (num den : Nat) (k : Int) :
    ((scaleDown base num den k).1 / (scaleDown base num den k).2 : ℚ) =
      num / den / (base : ℚ) ^ k := by
  have hbase' : (base : ℚ) ≠ 0 := by exact_mod_cast hbase.ne'
  have hpow (n : Nat) : ((base.pow n : Nat) : ℚ) = (base : ℚ) ^ n := Nat.cast_pow base n
  rw [scaleDown]
  split
  next hk =>
    lift k to Nat using hk
    rw [Int.toNat_natCast, Nat.cast_mul, hpow, zpow_natCast, div_div]
  next hk =>
    obtain ⟨n, rfl⟩ : ∃ n : Nat, k = -n := ⟨(-k).toNat, by omega⟩
    rw [Int.neg_neg, Int.toNat_natCast, Nat.cast_mul, hpow, zpow_neg, zpow_natCast, div_inv_eq_mul,
      mul_div_right_comm]

/-- Scaling down by a negative power multiplies. -/
theorem scaleDown_neg_div (hbase : 0 < base) (n : Nat) (k : Int) :
    ((scaleDown base n 1 (-k)).1 / (scaleDown base n 1 (-k)).2 : ℚ) = n * (base : ℚ) ^ k := by
  rw [scaleDown_div hbase, zpow_neg, div_inv_eq_mul, Nat.cast_one, div_one]

/-- The scaled fraction is at least one if the power is at most the fraction. -/
theorem scaleDown_snd_le_fst (hbase : 0 < base) (hden : 0 < den) :
    (scaleDown base num den k).2 ≤ (scaleDown base num den k).1 ↔
      (base : ℚ) ^ k ≤ num / den := by
  have hpow : (0 : ℚ) < (base : ℚ) ^ k := zpow_pos (by exact_mod_cast hbase) k
  have hden' : (0 : ℚ) < (scaleDown base num den k).2 := by
    exact_mod_cast scaleDown_pos hbase hden
  rw [← one_le_div₀ hpow, ← scaleDown_div hbase, one_le_div₀ hden', Nat.cast_le]

/-- A comparison of powers of two bases, from a comparison of two of these powers. -/
theorem zpow_le_zpow_of_pow_le {x y a b : Nat} {e k : Int} (hx : 0 < x) (hy : 0 < y) (hb : 0 < b)
    (h : k * b ≤ a * e) (hpow : 0 ≤ e ∧ x ^ a ≤ y ^ b ∨ e ≤ 0 ∧ y ^ b ≤ x ^ a) :
    (x : ℚ) ^ k ≤ y ^ e := by
  have hx' : (1 : ℚ) ≤ x := by exact_mod_cast hx
  have hy' : (0 : ℚ) < y := by exact_mod_cast hy
  have hbase : ((x : ℚ) ^ a) ^ e ≤ (y ^ b) ^ e := by
    obtain ⟨he, hpow⟩ | ⟨he, hpow⟩ := hpow
    · exact zpow_le_zpow_left₀ he (by positivity) (by exact_mod_cast hpow)
    · rw [← neg_neg e, zpow_neg, zpow_neg _ (-e)]
      have hpow' : (y : ℚ) ^ b ≤ x ^ a := by exact_mod_cast hpow
      exact inv_anti₀ (by positivity) (zpow_le_zpow_left₀ (by omega) (by positivity) hpow')
  refine (pow_le_pow_iff_left₀ (by positivity) (by positivity) hb.ne').1 ?_
  calc ((x : ℚ) ^ k) ^ b
      = x ^ (k * b) := by rw [zpow_mul, zpow_natCast]
    _ ≤ x ^ (a * e) := zpow_le_zpow_right₀ hx' h
    _ = (x ^ a) ^ e := by rw [zpow_mul, zpow_natCast]
    _ ≤ (y ^ b) ^ e := hbase
    _ = (y ^ e) ^ b := by rw [← zpow_natCast, ← zpow_natCast, ← zpow_mul, ← zpow_mul, mul_comm]

theorem two_pow_binaryExponent_le (hnum : 0 < num) (hden : 0 < den) :
    (2 : ℚ) ^ binaryExponent num den ≤ num / den := by
  rw [binaryExponent]
  dsimp only
  split
  next h => exact (scaleDown_snd_le_fst (by decide) hden).1 h
  next h =>
    have hlow : (2 : ℚ) ^ num.log2 ≤ num := by exact_mod_cast Nat.log2_self_le hnum.ne'
    have hhigh : (den : ℚ) ≤ 2 ^ (den.log2 + 1) := by exact_mod_cast Nat.lt_log2_self.le
    have hden' : (0 : ℚ) < den := by exact_mod_cast hden
    calc (2 : ℚ) ^ ((num.log2 : Int) - den.log2 - 1)
        = 2 ^ num.log2 / 2 ^ (den.log2 + 1) := by
          rw [sub_sub, zpow_sub₀ (by norm_num)]
          rfl
      _ ≤ num / den := div_le_div₀ (by positivity) hlow hden' hhigh

theorem lt_two_pow_binaryExponent (hden : 0 < den) :
    (num / den : ℚ) < 2 ^ (binaryExponent num den + 1) := by
  rw [binaryExponent]
  dsimp only
  split
  next h =>
    have hhigh : (num : ℚ) < 2 ^ (num.log2 + 1) := by exact_mod_cast Nat.lt_log2_self
    have hlow : (2 : ℚ) ^ den.log2 ≤ den := by exact_mod_cast Nat.log2_self_le hden.ne'
    calc (num / den : ℚ)
        < 2 ^ (num.log2 + 1) / 2 ^ den.log2 :=
          div_lt_div₀ hhigh hlow (by positivity) (by positivity)
      _ = 2 ^ ((num.log2 : Int) - den.log2 + 1) := by
        rw [sub_add_eq_add_sub, zpow_sub₀ (by norm_num)]
        rfl
  next h =>
    rw [sub_add_cancel]
    exact not_le.1 fun hle => h ((scaleDown_snd_le_fst (by decide) hden).2 hle)

end Fractions

section Integers

variable {num den : Nat}

/-- Rounding to an integer does not fall short of the integer part. -/
theorem div_le_roundHalfEven (num den : Nat) : num / den ≤ roundHalfEven num den := by
  rw [roundHalfEven]
  split
  · exact Nat.le_succ _
  · exact Nat.le_refl _

/-- The distance from a fraction in units of twice the denominator. -/
theorem two_mul_abs_sub_div (hden : 0 < den) (i : Int) :
    2 * den * |(i - num / den : ℚ)| = (2 * |i * den - num| : Int) := by
  have hden' : (0 : ℚ) < den := by exact_mod_cast hden
  have he : (i - num / den : ℚ) = (i * den - num) / den := by
    rw [sub_div, mul_div_cancel_right₀ _ hden'.ne']
  rw [he, abs_div, abs_of_pos hden', mul_assoc, mul_div_cancel₀ _ hden'.ne']
  push_cast
  rfl

theorem abs_sub_div_le_half_iff (hden : 0 < den) (i : Int) :
    |(i - num / den : ℚ)| ≤ 1 / 2 ↔ 2 * |i * den - num| ≤ (den : Int) := by
  have hden' : (0 : ℚ) < den := by exact_mod_cast hden
  rw [← Int.cast_le (R := ℚ), ← two_mul_abs_sub_div hden]
  push_cast
  constructor <;> intro h <;> nlinarith

theorem abs_sub_div_eq_half_iff (hden : 0 < den) (i : Int) :
    |(i - num / den : ℚ)| = 1 / 2 ↔ 2 * |i * den - num| = (den : Int) := by
  have hden' : (0 : ℚ) < den := by exact_mod_cast hden
  rw [← Int.cast_inj (α := ℚ), ← two_mul_abs_sub_div hden]
  push_cast
  constructor <;> intro h <;> nlinarith

/-- The rounded integer is at most one half away, and even if it is just one half away. -/
theorem abs_roundHalfEven_sub_le (num : Nat) (hden : 0 < den) :
    |((roundHalfEven num den : Int) - num / den : ℚ)| ≤ 1 / 2 ∧
      (|((roundHalfEven num den : Int) - num / den : ℚ)| = 1 / 2 →
        roundHalfEven num den % 2 = 0) := by
  rw [abs_sub_div_le_half_iff hden, abs_sub_div_eq_half_iff hden]
  have hlt := Nat.mod_lt num hden
  have hmod : (den : Int) * (num / den : Nat) + (num % den : Nat) = num := by
    exact_mod_cast Nat.div_add_mod num den
  have hup : ((num / den + 1 : Nat) : Int) * den - num = den - (num % den : Nat) := by
    rw [Nat.cast_succ]
    linarith
  have hdown : ((num / den : Nat) : Int) * den - num = -(num % den : Nat) := by
    linarith
  rw [roundHalfEven]
  split
  next h =>
    rw [Bool.or_eq_true, Bool.and_eq_true, decide_eq_true_eq, beq_iff_eq, beq_iff_eq] at h
    rw [hup, abs_of_nonneg (by omega)]
    omega
  next h =>
    rw [Bool.or_eq_true, Bool.and_eq_true, decide_eq_true_eq, beq_iff_eq, beq_iff_eq] at h
    rw [hdown, abs_neg, abs_of_nonneg (by omega)]
    omega

/-- Distinct integers cannot both lie within one half of a number, except when both do just so. -/
theorem eq_of_abs_sub_le_half {i j : Int} {x : ℚ} (hi : |i - x| ≤ 1 / 2) (hj : |j - x| ≤ 1 / 2)
    (hne : i ≠ j) : |i - x| = 1 / 2 ∧ |j - x| = 1 / 2 ∧ |i - j| = 1 := by
  have htri : |(i - j : ℚ)| ≤ |i - x| + |j - x| := by
    have := abs_sub_le (i : ℚ) x j
    rwa [abs_sub_comm x] at this
  have hone : 1 ≤ |i - j| := Int.one_le_abs (sub_ne_zero.2 hne)
  have hone' : (1 : ℚ) ≤ |(i - j : ℚ)| := by exact_mod_cast hone
  have hle : |(i - j : ℚ)| ≤ 1 := by linarith
  have hle' : |i - j| ≤ 1 := by exact_mod_cast hle
  exact ⟨by linarith, by linarith, by omega⟩

/-- The rounded integer is the one within one half, or the even one if there are two. -/
theorem roundHalfEven_eq {c : Nat} (hden : 0 < den) (hle : |((c : Int) - num / den : ℚ)| ≤ 1 / 2)
    (heven : |((c : Int) - num / den : ℚ)| = 1 / 2 → c % 2 = 0) : roundHalfEven num den = c := by
  obtain ⟨hr, hreven⟩ := abs_roundHalfEven_sub_le num hden
  by_contra hne
  obtain ⟨h, h', hone⟩ := eq_of_abs_sub_le_half hr hle (by exact_mod_cast hne)
  have := hreven h
  have := heven h'
  obtain hone | hone := (abs_eq zero_le_one).1 hone <;> omega

/-- No integer is nearer to a fraction than the rounded one. -/
theorem abs_roundHalfEven_sub_le_abs_sub (num : Nat) (hden : 0 < den) (i : Int) :
    |((roundHalfEven num den : Int) - num / den : ℚ)| ≤ |(i - num / den : ℚ)| := by
  have hr := (abs_roundHalfEven_sub_le num hden).1
  by_contra hlt
  have hi := (not_le.1 hlt).le.trans hr
  have hne : (roundHalfEven num den : Int) ≠ i := by
    rintro rfl
    exact hlt le_rfl
  obtain ⟨h, h', -⟩ := eq_of_abs_sub_le_half hr hi hne
  exact hlt (h.trans h'.symm).le

/-- No multiple of a power is nearer to a fraction than the one that it is rounded to. -/
theorem abs_roundHalfEven_scaleDown_sub_le {base : Nat} (hbase : 0 < base) (hden : 0 < den)
    (k i : Int) :
    |(roundHalfEven (scaleDown base num den k).1 (scaleDown base num den k).2 * (base : ℚ) ^ k -
      num / den : ℚ)| ≤ |(i * (base : ℚ) ^ k - num / den : ℚ)| := by
  have hpow : (0 : ℚ) < (base : ℚ) ^ k := zpow_pos (by exact_mod_cast hbase) k
  have hunits (x : ℚ) : |x * (base : ℚ) ^ k - num / den| =
      |x - num / den / (base : ℚ) ^ k| * (base : ℚ) ^ k := by
    rw [← abs_of_pos hpow, ← abs_mul, sub_mul, abs_of_pos hpow, div_mul_cancel₀ _ hpow.ne']
  have hden' : 0 < (scaleDown base num den k).2 := scaleDown_pos hbase hden
  have hnearest := abs_roundHalfEven_sub_le_abs_sub (scaleDown base num den k).1 hden' i
  rw [scaleDown_div hbase, Int.cast_natCast] at hnearest
  rw [hunits, hunits]
  exact mul_le_mul_of_nonneg_right hnearest hpow.le

end Integers

namespace Double

variable {d : Double} {num den : Nat}

/-- The number that a finite double is, without its sign. -/
def absValue (d : Double) : ℚ := d.significand * 2 ^ d.exponent

/-- A magnitude that is put together from an exponent and a coefficient is taken apart again, unless
the coefficient carries into the exponent. -/
theorem of_magnitude_eq {j q : Nat} (hd : d.magnitude = j * hiddenBit + q)
    (hq : q ≤ 2 * hiddenBit) (hj : j = 0 ∨ hiddenBit ≤ q) :
    d.significand = q ∧ d.exponent = j + minExponent ∨
      q = 2 * hiddenBit ∧ d.significand = hiddenBit ∧ d.exponent = j + 1 + minExponent := by
  rw [significand, exponent, hd]
  rw [hiddenBit] at *
  split <;> omega

theorem absValue_of_magnitude_eq {j q : Nat} (hd : d.magnitude = j * hiddenBit + q)
    (hq : q ≤ 2 * hiddenBit) (hj : j = 0 ∨ hiddenBit ≤ q) :
    d.absValue = q * 2 ^ (j + minExponent) := by
  rw [absValue]
  obtain ⟨hs, he⟩ | ⟨rfl, hs, he⟩ := of_magnitude_eq hd hq hj
  · rw [hs, he]
  · rw [hs, he, add_right_comm, zpow_add_one₀ two_ne_zero]
    push_cast
    ring

/-- The exponent of the last digit that is kept of a fraction. -/
def lastExponent (num den : Nat) : Int := max (binaryExponent num den - 52) minExponent

/-- A fraction in units of the last digit that is kept of it. -/
def scaled (num den : Nat) : ℚ := num / den / 2 ^ lastExponent num den

/-- The coefficient that a fraction is rounded to. -/
def coefficient (num den : Nat) : Nat :=
  roundHalfEven (scaleDown 2 num den (lastExponent num den)).1
    (scaleDown 2 num den (lastExponent num den)).2

theorem ofRatio_eq (negative : Bool) (hnum : 0 < num) :
    ofRatio negative num den = ofMagnitude negative
      (min ((lastExponent num den - minExponent).toNat * hiddenBit + coefficient num den)
        infinityMagnitude) := by
  rw [ofRatio, if_neg hnum.ne']
  rfl

theorem scaleDown_div_eq_scaled (num den : Nat) :
    ((scaleDown 2 num den (lastExponent num den)).1 /
      (scaleDown 2 num den (lastExponent num den)).2 : ℚ) = scaled num den :=
  scaleDown_div (by decide) num den _

theorem abs_coefficient_sub_le (num : Nat) (hden : 0 < den) :
    |((coefficient num den : Int) - scaled num den : ℚ)| ≤ 1 / 2 ∧
      (|((coefficient num den : Int) - scaled num den : ℚ)| = 1 / 2 →
        coefficient num den % 2 = 0) := by
  rw [← scaleDown_div_eq_scaled]
  exact abs_roundHalfEven_sub_le _ (scaleDown_pos (by decide) hden)

theorem minExponent_le_lastExponent (num den : Nat) : minExponent ≤ lastExponent num den :=
  le_max_right _ _

theorem hiddenBit_mul_two_zpow (k : Int) : (hiddenBit : ℚ) * 2 ^ k = 2 ^ (52 + k) := by
  rw [zpow_add₀ two_ne_zero, hiddenBit]
  norm_num

/-- The scaled fraction has the digits of a coefficient, or fewer if the exponent is the least. -/
theorem scaled_lt (num : Nat) (hden : 0 < den) : scaled num den < 2 * hiddenBit := by
  have hpow : (0 : ℚ) < 2 ^ lastExponent num den := by positivity
  rw [scaled, div_lt_iff₀ hpow]
  calc (num / den : ℚ)
      < 2 ^ (binaryExponent num den + 1) := lt_two_pow_binaryExponent hden
    _ ≤ 2 ^ (53 + lastExponent num den) :=
      zpow_le_zpow_right₀ one_le_two (by rw [lastExponent]; omega)
    _ = 2 * hiddenBit * 2 ^ lastExponent num den := by
      rw [mul_assoc, hiddenBit_mul_two_zpow, ← zpow_one_add₀ two_ne_zero, ← add_assoc]
      rfl

theorem hiddenBit_le_scaled (hnum : 0 < num) (hden : 0 < den)
    (hlast : lastExponent num den ≠ minExponent) : (hiddenBit : ℚ) ≤ scaled num den := by
  have hpow : (0 : ℚ) < 2 ^ lastExponent num den := by positivity
  rw [scaled, le_div_iff₀ hpow]
  calc hiddenBit * 2 ^ lastExponent num den
      = (2 : ℚ) ^ (52 + lastExponent num den) := hiddenBit_mul_two_zpow _
    _ ≤ 2 ^ binaryExponent num den :=
      zpow_le_zpow_right₀ one_le_two (by rw [lastExponent] at hlast ⊢; omega)
    _ ≤ num / den := two_pow_binaryExponent_le hnum hden

theorem coefficient_le (num : Nat) (hden : 0 < den) : coefficient num den ≤ 2 * hiddenBit := by
  have hle := (abs_le.1 (abs_coefficient_sub_le num hden).1).2
  have hlt := scaled_lt num hden
  rw [Int.cast_natCast] at hle
  by_contra h
  have hge : (2 * hiddenBit + 1 : ℚ) ≤ coefficient num den := by exact_mod_cast not_le.1 h
  linarith

theorem hiddenBit_le_coefficient (hnum : 0 < num) (hden : 0 < den)
    (hlast : lastExponent num den ≠ minExponent) : hiddenBit ≤ coefficient num den := by
  have hle := (abs_le.1 (abs_coefficient_sub_le num hden).1).1
  have hge := hiddenBit_le_scaled hnum hden hlast
  rw [Int.cast_natCast] at hle
  by_contra h
  have hlt : (coefficient num den + 1 : ℚ) ≤ hiddenBit := by exact_mod_cast not_le.1 h
  linarith

/-- A finite result has the coefficient and the exponent that the fraction is rounded to. -/
theorem magnitude_ofRatio {negative : Bool} (hnum : 0 < num)
    (hfinite : (ofRatio negative num den).isFinite = true) :
    (ofRatio negative num den).magnitude =
      (lastExponent num den - minExponent).toNat * hiddenBit + coefficient num den := by
  rw [ofRatio_eq negative hnum] at hfinite ⊢
  have hlt : min ((lastExponent num den - minExponent).toNat * hiddenBit + coefficient num den)
      infinityMagnitude < 0x8000000000000000 :=
    (Nat.min_le_right _ _).trans_lt (by decide)
  rw [isFinite, magnitude_ofMagnitude negative hlt, decide_eq_true_eq] at hfinite
  rw [magnitude_ofMagnitude negative hlt]
  omega

theorem absValue_ofRatio {negative : Bool} (hnum : 0 < num) (hden : 0 < den)
    (hfinite : (ofRatio negative num den).isFinite = true) :
    (ofRatio negative num den).absValue =
      coefficient num den * 2 ^ lastExponent num den := by
  have hlast := minExponent_le_lastExponent num den
  rw [absValue_of_magnitude_eq (magnitude_ofRatio hnum hfinite) (coefficient_le num hden)]
  · rw [Int.toNat_of_nonneg (by omega), sub_add_cancel]
  · by_cases h : lastExponent num den = minExponent
    · left
      omega
    · exact .inr (hiddenBit_le_coefficient hnum hden h)

theorem significand_lt (d : Double) : d.significand < 2 * hiddenBit := by
  rw [significand]
  have := Nat.mod_lt d.magnitude (show 0 < hiddenBit by decide)
  split <;> omega

theorem minExponent_le_exponent (d : Double) : minExponent ≤ d.exponent := by
  rw [exponent]
  omega

/-- No double is nearer to a fraction than the one that it is rounded to. -/
theorem abs_absValue_ofRatio_sub_le {negative : Bool} (hnum : 0 < num) (hden : 0 < den)
    (hfinite : (ofRatio negative num den).isFinite = true) (e : Double) :
    |(ofRatio negative num den).absValue - num / den| ≤ |e.absValue - num / den| := by
  have hpow : (0 : ℚ) < 2 ^ lastExponent num den := by positivity
  have hnearest (i : Int) : |(coefficient num den * 2 ^ lastExponent num den - num / den : ℚ)| ≤
      |(i * 2 ^ lastExponent num den - num / den : ℚ)| :=
    abs_roundHalfEven_scaleDown_sub_le (by decide) hden (lastExponent num den) i
  rw [absValue_ofRatio hnum hden hfinite]
  obtain hle | hlt := le_or_gt (lastExponent num den) e.exponent
  · obtain ⟨n, hn⟩ := Int.le.dest hle
    have he : e.absValue = ((e.significand * 2 ^ n : Nat) : Int) * 2 ^ lastExponent num den := by
      rw [absValue, ← hn, zpow_add₀ two_ne_zero, zpow_natCast]
      push_cast
      ring
    rw [he]
    exact hnearest _
  · -- a double with a smaller exponent lies below the least coefficient with this one
    have hlast : lastExponent num den ≠ minExponent :=
      ((minExponent_le_exponent e).trans_lt hlt).ne'
    have hbelow : e.absValue ≤ hiddenBit * 2 ^ lastExponent num den := by
      have hsig : (e.significand : ℚ) ≤ 2 * hiddenBit := by exact_mod_cast (significand_lt e).le
      calc e.absValue
          ≤ 2 * hiddenBit * 2 ^ (lastExponent num den - 1) :=
            mul_le_mul hsig (zpow_le_zpow_right₀ one_le_two (by omega)) (by positivity)
              (by positivity)
        _ = hiddenBit * 2 ^ lastExponent num den := by
          rw [zpow_sub_one₀ two_ne_zero]
          ring
    have hvalue : (hiddenBit : ℚ) * 2 ^ lastExponent num den ≤ num / den := by
      have hscaled := hiddenBit_le_scaled hnum hden hlast
      rwa [scaled, le_div_iff₀ hpow] at hscaled
    calc |(coefficient num den * 2 ^ lastExponent num den - num / den : ℚ)|
        ≤ |(hiddenBit * 2 ^ lastExponent num den - num / den : ℚ)| := hnearest hiddenBit
      _ = num / den - hiddenBit * 2 ^ lastExponent num den := by
        rw [abs_sub_comm, abs_of_nonneg (sub_nonneg.2 hvalue)]
      _ ≤ num / den - e.absValue := sub_le_sub_left hbelow _
      _ ≤ |e.absValue - num / den| := by
        rw [abs_sub_comm]
        exact le_abs_self _

theorem isFinite_ofRatio {negative : Bool} (hnum : 0 < num) :
    (ofRatio negative num den).isFinite = true ↔
      (lastExponent num den - minExponent).toNat * hiddenBit + coefficient num den <
        infinityMagnitude := by
  have hlt : min ((lastExponent num den - minExponent).toNat * hiddenBit + coefficient num den)
      infinityMagnitude < 0x8000000000000000 :=
    (Nat.min_le_right _ _).trans_lt (by decide)
  rw [ofRatio_eq negative hnum, isFinite, magnitude_ofMagnitude negative hlt, decide_eq_true_eq]
  omega

/-- The exponent of the greatest finite doubles. -/
def maxExponent : Int := 971

theorem lt_iff_scaled_lt (num den : Nat) (x : ℚ) :
    (num / den : ℚ) < x * 2 ^ lastExponent num den ↔ scaled num den < x := by
  have hpow : (0 : ℚ) < 2 ^ lastExponent num den := by positivity
  exact (div_lt_iff₀ hpow).symm

/-- The last coefficient is not reached as long as the fraction stays below it by more than half a
unit. -/
theorem coefficient_lt_iff (hden : 0 < den) :
    coefficient num den < 2 * hiddenBit ↔ scaled num den < 2 * hiddenBit - 1 / 2 := by
  obtain ⟨habs, heven⟩ := abs_coefficient_sub_le num hden
  have hhalf := abs_le.1 habs
  rw [Int.cast_natCast] at hhalf heven
  constructor
  · intro hlt
    have hle : (coefficient num den + 1 : ℚ) ≤ 2 * hiddenBit := by exact_mod_cast hlt
    by_contra hge
    -- the fraction would lie in the middle, and would not be rounded to an odd coefficient
    have hc : (coefficient num den + 1 : ℚ) = 2 * hiddenBit := by linarith
    have hs : scaled num den - coefficient num den = 1 / 2 := by linarith
    have hodd : coefficient num den + 1 = 2 * hiddenBit := by exact_mod_cast hc
    have := heven (by rw [abs_sub_comm, hs]; norm_num)
    omega
  · intro hlt
    have hc : (coefficient num den : ℚ) < 2 * hiddenBit := by linarith
    exact_mod_cast hc

theorem lt_of_lastExponent_lt (num : Nat) (hden : 0 < den) {k : Int}
    (h : lastExponent num den < k) : (num / den : ℚ) < hiddenBit * 2 ^ k :=
  calc (num / den : ℚ)
      < 2 * hiddenBit * 2 ^ lastExponent num den :=
        (lt_iff_scaled_lt num den _).2 (scaled_lt num hden)
    _ ≤ 2 * hiddenBit * 2 ^ (k - 1) := by
      refine mul_le_mul_of_nonneg_left ?_ (by positivity)
      exact zpow_le_zpow_right₀ one_le_two (by omega)
    _ = hiddenBit * 2 ^ k := by
      rw [zpow_sub_one₀ two_ne_zero]
      ring

theorem le_of_lt_lastExponent (hnum : 0 < num) (hden : 0 < den) {k : Int} (hk : minExponent ≤ k)
    (h : k < lastExponent num den) : 2 * hiddenBit * 2 ^ k ≤ (num / den : ℚ) :=
  calc (2 * hiddenBit * 2 ^ k : ℚ)
      = hiddenBit * 2 ^ (k + 1) := by
        rw [zpow_add_one₀ two_ne_zero]
        ring
    _ ≤ hiddenBit * 2 ^ lastExponent num den := by
      refine mul_le_mul_of_nonneg_left ?_ (by positivity)
      exact zpow_le_zpow_right₀ one_le_two h
    _ ≤ num / den := by
      rw [← not_lt, lt_iff_scaled_lt]
      exact not_lt.2 (hiddenBit_le_scaled hnum hden (hk.trans_lt h).ne')

/-- A fraction is rounded to a finite double as long as it stays below the greatest one by less than
half a unit of its last digit. -/
theorem isFinite_ofRatio_iff {negative : Bool} (hnum : 0 < num) (hden : 0 < den) :
    (ofRatio negative num den).isFinite = true ↔
      (num / den : ℚ) < (2 * hiddenBit - 1 / 2) * 2 ^ maxExponent := by
  have hmin := minExponent_le_lastExponent num den
  have hle := coefficient_le num hden
  have hbit : (1 : ℚ) ≤ hiddenBit := by norm_num [hiddenBit]
  have hpow : (0 : ℚ) < 2 ^ maxExponent := by positivity
  rw [isFinite_ofRatio hnum]
  obtain hlast | hlast | hlast := lt_trichotomy (lastExponent num den) maxExponent
  · refine iff_of_true ?_ ((lt_of_lastExponent_lt num hden hlast).trans_le ?_)
    · rw [maxExponent] at hlast
      rw [minExponent, hiddenBit, infinityMagnitude] at *
      omega
    · exact mul_le_mul_of_nonneg_right (by linarith) hpow.le
  · rw [← hlast, lt_iff_scaled_lt, ← coefficient_lt_iff hden, hlast]
    rw [maxExponent, minExponent, hiddenBit, infinityMagnitude]
    omega
  · have hmax : minExponent ≤ maxExponent := by decide
    have hc := hiddenBit_le_coefficient hnum hden (hmax.trans_lt hlast).ne'
    refine iff_of_false ?_ (not_lt.2 (le_trans ?_ (le_of_lt_lastExponent hnum hden hmax hlast)))
    · rw [maxExponent] at hlast
      rw [minExponent, hiddenBit, infinityMagnitude] at *
      omega
    · exact mul_le_mul_of_nonneg_right (by linarith) hpow.le

theorem ofRatio_of_not_isFinite {negative : Bool} (hnum : 0 < num)
    (h : ¬ (ofRatio negative num den).isFinite = true) :
    ofRatio negative num den = infinity negative := by
  rw [isFinite_ofRatio hnum, not_lt] at h
  rw [ofRatio_eq negative hnum, Nat.min_eq_right h]
  rfl

/-- A fraction of less than half the least positive double is rounded to zero. -/
theorem ofRatio_of_lt {negative : Bool} (hnum : 0 < num) (hden : 0 < den)
    (h : (num / den : ℚ) < 2 ^ (minExponent - 1)) : ofRatio negative num den = zero negative := by
  have hlast : lastExponent num den = minExponent := by
    have hle := (two_pow_binaryExponent_le hnum hden).trans h.le
    rw [zpow_le_zpow_iff_right₀ one_lt_two] at hle
    rw [lastExponent]
    omega
  have hscaled : scaled num den < 1 / 2 := by
    rw [← lt_iff_scaled_lt, hlast]
    rwa [zpow_sub_one₀ two_ne_zero, mul_comm, ← one_div] at h
  have hpos : 0 ≤ scaled num den := by
    rw [scaled]
    positivity
  have hcoefficient : coefficient num den = 0 := by
    apply roundHalfEven_eq (scaleDown_pos (by decide) hden)
    · rw [scaleDown_div_eq_scaled, Nat.cast_zero, Int.cast_zero, zero_sub, abs_neg,
        abs_of_nonneg hpos]
      exact hscaled.le
    · exact fun _ => rfl
  rw [ofRatio_eq negative hnum, hlast, hcoefficient]
  rfl

theorem isNegative_ofMagnitude (negative : Bool) {m : Nat} (hm : m < 0x8000000000000000) :
    (ofMagnitude negative m).isNegative = negative := by
  rw [isNegative, ofMagnitude]
  cases negative
  · rw [if_neg Bool.false_ne_true, UInt64.toNat_ofNat', decide_eq_false_iff_not]
    omega
  · rw [if_pos rfl, UInt64.toNat_ofNat', decide_eq_true_eq]
    omega

/-- A double is made up of its sign and its magnitude. -/
theorem ofMagnitude_magnitude (d : Double) : ofMagnitude d.isNegative d.magnitude = d := by
  have hlt := UInt64.toNat_lt d.bits
  rw [ofMagnitude, Double.mk.injEq, ← UInt64.toNat_inj, UInt64.toNat_ofNat', isNegative, magnitude]
  simp only [decide_eq_true_eq]
  split <;> omega

theorem isNegative_ofRatio (negative : Bool) (num den : Nat) :
    (ofRatio negative num den).isNegative = negative := by
  rw [ofRatio]
  split
  · exact isNegative_ofMagnitude negative (by decide)
  · exact isNegative_ofMagnitude negative ((Nat.min_le_right _ _).trans_lt (by decide))

theorem isNegative_ofDecimal (negative : Bool) (digits : Nat) (exponent : Int) :
    (ofDecimal negative digits exponent).isNegative = negative := by
  have hzero : (zero negative).isNegative = negative := isNegative_ofMagnitude negative (by decide)
  rw [ofDecimal]
  split
  · exact hzero
  split
  · exact isNegative_ofMagnitude negative (by decide)
  split
  · exact hzero
  split <;> exact isNegative_ofRatio negative _ _

theorem overflow_le {digits : Nat} (hdigits : 0 < digits) {exponent : Int} (h : 400 < exponent) :
    (2 * hiddenBit - 1 / 2) * 2 ^ maxExponent ≤ (digits * 10 ^ exponent : ℚ) := by
  have hone : (1 : ℚ) ≤ digits := by exact_mod_cast hdigits
  calc (2 * hiddenBit - 1 / 2) * (2 : ℚ) ^ maxExponent
      ≤ 2 ^ (53 : Int) * 2 ^ maxExponent :=
        mul_le_mul_of_nonneg_right (by norm_num [hiddenBit]) (by positivity)
    _ = (2 : Nat) ^ (1024 : Int) := by rw [← zpow_add₀ two_ne_zero]; rfl
    _ ≤ (10 : Nat) ^ exponent :=
        zpow_le_zpow_of_pow_le (a := 3) (b := 1) (by decide) (by decide) (by decide) (by omega)
          (.inl ⟨by omega, by decide⟩)
    _ ≤ digits * 10 ^ exponent := le_mul_of_one_le_left (by positivity) hone

theorem lt_underflow {digits : Nat} {exponent : Int}
    (h : exponent + (digits.log2 / 3 + 1 : Nat) < -400) :
    (digits * 10 ^ exponent : ℚ) < 2 ^ (minExponent - 1) := by
  have hlog : (digits : ℚ) < (2 : Nat) ^ ((digits.log2 + 1 : Nat) : Int) := by
    exact_mod_cast Nat.lt_log2_self
  calc (digits : ℚ) * 10 ^ exponent
      < (2 : Nat) ^ ((digits.log2 + 1 : Nat) : Int) * 10 ^ exponent :=
        mul_lt_mul_of_pos_right hlog (by positivity)
    _ ≤ (10 : Nat) ^ ((digits.log2 / 3 + 1 : Nat) : Int) * 10 ^ exponent := by
        refine mul_le_mul_of_nonneg_right ?_ (by positivity)
        exact zpow_le_zpow_of_pow_le (a := 3) (b := 1) (by decide) (by decide) (by decide)
          (by omega) (.inl ⟨by omega, by decide⟩)
    _ = (10 : Nat) ^ (exponent + (digits.log2 / 3 + 1 : Nat)) := by
        rw [Nat.cast_ofNat, ← zpow_add₀ (by norm_num), add_comm]
    _ ≤ (2 : Nat) ^ (minExponent - 1) :=
        zpow_le_zpow_of_pow_le (a := 1) (b := 3) (by decide) (by decide) (by decide)
          (by rw [minExponent]; omega) (.inr ⟨by decide, by decide⟩)

/-- Exponents far outside the range of the doubles make no difference. -/
theorem ofDecimal_eq_ofRatio (negative : Bool) {digits : Nat} (hdigits : 0 < digits)
    (exponent : Int) :
    ofDecimal negative digits exponent =
      ofRatio negative (scaleDown 10 digits 1 (-exponent)).1
        (scaleDown 10 digits 1 (-exponent)).2 := by
  have hnum : 0 < (scaleDown 10 digits 1 (-exponent)).1 := scaleDown_fst_pos (by decide) hdigits
  have hden : 0 < (scaleDown 10 digits 1 (-exponent)).2 := scaleDown_pos (by decide) (by decide)
  have hvalue := scaleDown_neg_div (show 0 < 10 by decide) digits exponent
  rw [ofDecimal, if_neg hdigits.ne']
  split
  next hlarge =>
    refine (ofRatio_of_not_isFinite hnum ?_).symm
    rw [isFinite_ofRatio_iff hnum hden, hvalue, not_lt]
    exact overflow_le hdigits hlarge
  split
  next hsmall =>
    refine (ofRatio_of_lt hnum hden ?_).symm
    rw [hvalue]
    exact lt_underflow hsmall
  split
  next hnonneg =>
    obtain rfl | hpos := hnonneg.eq_or_lt
    · rw [scaleDown, if_pos (by decide)]
      exact congrArg (ofRatio negative · 1) (Nat.mul_one digits)
    · rw [scaleDown, if_neg (by omega), Int.neg_neg]
  next => rw [scaleDown, if_pos (by omega), Nat.one_mul]

/-- A decimal numeral is read as a finite double just if it is not too great. -/
theorem isFinite_ofDecimal_iff {negative : Bool} {digits : Nat} (hdigits : 0 < digits)
    (exponent : Int) :
    (ofDecimal negative digits exponent).isFinite = true ↔
      (digits * 10 ^ exponent : ℚ) < (2 * hiddenBit - 1 / 2) * 2 ^ maxExponent := by
  rw [ofDecimal_eq_ofRatio negative hdigits, isFinite_ofRatio_iff
    (scaleDown_fst_pos (by decide) hdigits) (scaleDown_pos (by decide) (by decide)),
    scaleDown_neg_div (by decide), Nat.cast_ofNat]

/-- No double is nearer to a decimal numeral than the one that it is read as. -/
theorem abs_absValue_ofDecimal_sub_le {negative : Bool} {digits : Nat} (hdigits : 0 < digits)
    {exponent : Int} (hfinite : (ofDecimal negative digits exponent).isFinite = true) (e : Double) :
    |(ofDecimal negative digits exponent).absValue - digits * 10 ^ exponent| ≤
      |e.absValue - digits * 10 ^ exponent| := by
  rw [ofDecimal_eq_ofRatio negative hdigits] at hfinite ⊢
  have hnearest := abs_absValue_ofRatio_sub_le (scaleDown_fst_pos (by decide) hdigits)
    (scaleDown_pos (by decide) (by decide)) hfinite e
  rwa [scaleDown_neg_div (by decide), Nat.cast_ofNat] at hnearest

end Double

end ObjectModel
