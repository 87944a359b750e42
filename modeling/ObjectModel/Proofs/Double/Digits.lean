import Mathlib.Data.List.DropRight
import ObjectModel.Double.Digits
import ObjectModel.Proofs.Double.Rounding
/-!
# The significant digits of a double

A decimal is in normal form if its digits neither begin nor end with a zero, except for the number
zero itself. Both ways to choose the digits of a double yield decimals in normal form: they take the
digits of a positive number and drop the zeros at the end. That the number is positive is where the
estimate of the decimal point counts. It comes from the binary exponent by a fraction a little above
the logarithm of two, and may be too small but not too great, so that rounding to at least one digit
never yields zero.
-/

namespace ObjectModel

theorem ten_zpow_max_le {a b : Int} {v : ℚ} (ha : (10 : ℚ) ^ a ≤ v) (hb : (10 : ℚ) ^ b ≤ v) :
    (10 : ℚ) ^ max a b ≤ v := by
  obtain h | h := max_choice a b <;> rwa [h]

/-- The estimate of the decimal point from the binary exponent is not too great. -/
theorem ten_zpow_estimate_le {e : Int} (he : e ≤ 1024) :
    (10 : ℚ) ^ (e * 30103 / 100000 - 1) ≤ 2 ^ e := by
  obtain hneg | hpos := Int.lt_or_le e 0
  · refine zpow_le_zpow_of_pow_le (x := 10) (y := 2) (a := 4004) (b := 13301) (by decide)
      (by decide) (by decide) (by omega) (.inr ⟨hneg.le, ?_⟩)
    decide +kernel
  · exact zpow_le_zpow_of_pow_le (x := 10) (y := 2) (a := 59) (b := 196) (by decide) (by decide)
      (by decide) (by omega) (.inl ⟨hpos, by decide +kernel⟩)

/-- The decimal point stands at most one digit behind the first digit of the fraction. -/
theorem ten_zpow_decimalPoint_le {num den : Nat} (hnum : 0 < num) (hden : 0 < den)
    (he : binaryExponent num den ≤ 1024) :
    (10 : ℚ) ^ (Double.decimalPoint num den - 1) ≤ num / den := by
  have hbelow {k : Int} (h : ¬(scaleDown 10 num den k).1 < (scaleDown 10 num den k).2) :
      (10 : ℚ) ^ k ≤ num / den :=
    (scaleDown_snd_le_fst (by decide) hden).1 (Nat.not_lt.1 h)
  rw [Double.decimalPoint]
  simp only [decide_eq_true_eq]
  split
  · exact (ten_zpow_estimate_le he).trans (two_pow_binaryExponent_le hnum hden)
  next h =>
    split
    · rw [add_sub_cancel_right]
      exact hbelow h
    next h' =>
      rw [add_sub_assoc]
      exact hbelow h'

theorem two_zpow_le_ten_zpow_estimate {e : Int} (hlow : -1074 ≤ e) (he : e ≤ 1024) :
    (2 : ℚ) ^ (e + 1) ≤ 10 ^ (e * 30103 / 100000 + 2) := by
  obtain hneg | hpos := Int.lt_or_le (e * 30103 / 100000 + 2) 0
  · exact zpow_le_zpow_of_pow_le (x := 2) (y := 10) (a := 196) (b := 59) (by decide) (by decide)
      (by decide) (by omega) (.inr ⟨hneg.le, by decide +kernel⟩)
  · exact zpow_le_zpow_of_pow_le (x := 2) (y := 10) (a := 93) (b := 28) (by decide) (by decide)
      (by decide) (by omega) (.inl ⟨hpos, by decide +kernel⟩)

/-- The decimal point does not stand before the first digit of the fraction. -/
theorem lt_ten_zpow_decimalPoint {num den : Nat} (hden : 0 < den)
    (hlow : -1074 ≤ binaryExponent num den) (he : binaryExponent num den ≤ 1024) :
    (num / den : ℚ) < 10 ^ Double.decimalPoint num den := by
  have habove {k : Int} (h : (scaleDown 10 num den k).1 < (scaleDown 10 num den k).2) :
      (num / den : ℚ) < 10 ^ k :=
    not_le.1 fun hle => h.not_ge ((scaleDown_snd_le_fst (by decide) hden).2 hle)
  rw [Double.decimalPoint]
  simp only [decide_eq_true_eq]
  split
  next h => exact habove h
  next =>
    split
    next h => exact habove h
    next => exact (lt_two_pow_binaryExponent hden).trans_le (two_zpow_le_ten_zpow_estimate hlow he)

namespace Decimal

/-- Whether a decimal is zero, or its digits neither begin nor end with a zero. -/
structure IsNormal (x : Decimal) : Prop where
  ne_nil : x.digits ≠ []
  areDigits : ∀ c ∈ x.digits, c.isDigit = true
  eq_zero_or : x = zero ∨ x.digits.head? ≠ some '0' ∧ x.digits.getLast? ≠ some '0'

theorem isNormal_zero : zero.IsNormal :=
  ⟨List.cons_ne_nil _ _, List.forall_mem_singleton.2 rfl, .inl rfl⟩

/-- The digits of a positive number do not begin with a zero. -/
theorem head?_toDigits_ne {n : Nat} (hn : n ≠ 0) : (Nat.toDigits 10 n).head? ≠ some '0' := by
  obtain ⟨b, bs, he, hb⟩ := Numeral.digitBytes_eq_cons hn
  intro hc
  obtain ⟨cs, hcs⟩ := List.head?_eq_some_iff.1 hc
  rw [Numeral.digitBytes, hcs] at he
  exact hb (List.cons.inj he).1.symm

theorem isNormal_ofScaled {n : Nat} (hn : 0 < n) (k : Int) : (ofScaled n k).IsNormal := by
  have hdigits : (ofScaled n k).digits = (Nat.toDigits 10 n).rdropWhile (· == '0') := rfl
  have hhead := head?_toDigits_ne hn.ne'
  have hne : (ofScaled n k).digits ≠ [] := by
    rw [hdigits, ne_eq, List.rdropWhile_eq_nil_iff]
    intro hall
    obtain ⟨c, cs, hc⟩ := List.exists_cons_of_ne_nil (Nat.toDigits_ne_nil (b := 10) (n := n))
    have hzero := hall c (hc ▸ List.mem_cons_self)
    rw [beq_iff_eq] at hzero
    exact hhead (by rw [hc, hzero]; rfl)
  obtain ⟨zeros, hzeros⟩ : (ofScaled n k).digits <+: Nat.toDigits 10 n :=
    List.rdropWhile_prefix _ _
  refine ⟨hne, fun c hc => ?_, .inr ⟨?_, fun hlast => ?_⟩⟩
  · have hmem : c ∈ Nat.toDigits 10 n := hzeros ▸ List.mem_append_left zeros hc
    exact Nat.isDigit_of_mem_toDigits (by decide) (by decide) hmem
  · rwa [← hzeros, List.head?_append_of_ne_nil _ hne] at hhead
  · rw [List.getLast?_eq_getLast_of_ne_nil hne, Option.some_inj] at hlast
    exact List.rdropWhile_last_not (· == '0') _ hne (beq_iff_eq.2 hlast)

end Decimal

namespace Double

variable {d : Double}

theorem exponent_le (hd : d.isFinite = true) : d.exponent ≤ 971 := by
  rw [isFinite, decide_eq_true_iff, infinityMagnitude] at hd
  rw [exponent, minExponent, hiddenBit]
  omega

/-- The numerator and the denominator make up the fraction. -/
theorem ratio_div (n : Nat) (k : Int) : ((ratio n k).1 / (ratio n k).2 : ℚ) = n * 2 ^ k := by
  rw [ratio, scaleDown_neg_div (by decide), Nat.cast_ofNat]

theorem ratio_fst_pos {n : Nat} (hn : 0 < n) (k : Int) : 0 < (ratio n k).1 :=
  scaleDown_fst_pos (by decide) hn

theorem ratio_snd_pos (n : Nat) (k : Int) : 0 < (ratio n k).2 :=
  scaleDown_pos (by decide) (by decide)

theorem binaryExponent_ratio_le (hd : d.isFinite = true) (hm : 0 < d.significand) :
    binaryExponent (ratio d.significand d.exponent).1 (ratio d.significand d.exponent).2 ≤
      1024 := by
  refine (zpow_le_zpow_iff_right₀ (one_lt_two (α := ℚ))).1 ?_
  calc (2 : ℚ) ^ binaryExponent _ _
      ≤ d.significand * 2 ^ d.exponent := by
        rw [← ratio_div]
        exact two_pow_binaryExponent_le (ratio_fst_pos hm _) (ratio_snd_pos _ _)
    _ ≤ 2 ^ (53 : Int) * 2 ^ (971 : Int) := by
        refine mul_le_mul ?_ ?_ (by positivity) (by positivity)
        · exact_mod_cast (significand_lt d).le
        · exact zpow_le_zpow_right₀ one_le_two (exponent_le hd)
    _ = 2 ^ (1024 : Int) := by rw [← zpow_add₀ two_ne_zero]; rfl

theorem le_binaryExponent_ratio (hm : 0 < d.significand) :
    -1074 ≤ binaryExponent (ratio d.significand d.exponent).1
      (ratio d.significand d.exponent).2 := by
  have hone : (1 : ℚ) ≤ d.significand := by exact_mod_cast hm
  refine Int.le_of_lt_add_one ((zpow_lt_zpow_iff_right₀ (one_lt_two (α := ℚ))).1 ?_)
  calc (2 : ℚ) ^ minExponent
      ≤ d.significand * 2 ^ d.exponent :=
        (zpow_le_zpow_right₀ one_le_two (minExponent_le_exponent d)).trans
          (le_mul_of_one_le_left (by positivity) hone)
    _ < 2 ^ (binaryExponent _ _ + 1) := by
        rw [← ratio_div]
        exact lt_two_pow_binaryExponent (ratio_snd_pos _ _)

/-- A power of ten with the negative exponent of a double is at most its value. -/
theorem ten_zpow_min_exponent_le (hm : 0 < d.significand) :
    (10 : ℚ) ^ min d.exponent 0 ≤ d.significand * 2 ^ d.exponent := by
  have hone : (1 : ℚ) ≤ d.significand := by exact_mod_cast hm
  obtain he | he := Int.le_total d.exponent 0
  · rw [min_eq_left he]
    calc (10 : ℚ) ^ d.exponent
        ≤ 2 ^ d.exponent :=
          zpow_le_zpow_of_pow_le (x := 10) (y := 2) (a := 1) (b := 1) (by decide) (by decide)
            (by decide) (by omega) (.inr ⟨he, by decide⟩)
      _ ≤ d.significand * 2 ^ d.exponent := le_mul_of_one_le_left (by positivity) hone
  · rw [min_eq_right he, zpow_zero]
    exact one_le_mul_of_one_le_of_one_le hone (one_le_zpow₀ one_le_two he)

/-- At least one significant digit is left after rounding. -/
theorem isNormal_significantDigits (hd : d.isFinite = true) {n : Nat} (hn : 0 < n) :
    (d.significantDigits n).IsNormal := by
  rw [significantDigits]
  split
  · exact Decimal.isNormal_zero
  next hm =>
    have hm' : 0 < d.significand := Nat.pos_of_ne_zero hm
    have hnum := ratio_fst_pos hm' d.exponent
    have hden := ratio_snd_pos d.significand d.exponent
    -- neither bound of the last digit exceeds the value
    have hpoint := ten_zpow_decimalPoint_le hnum hden (binaryExponent_ratio_le hd hm')
    have hexponent := (ten_zpow_min_exponent_le hm').trans_eq (ratio_div _ _).symm
    generalize ratio d.significand d.exponent = r at hnum hden hpoint hexponent
    obtain ⟨num, den⟩ := r
    dsimp only at hpoint hexponent
    have hlast : (10 : ℚ) ^ (decimalPoint num den - n) ≤ num / den :=
      (zpow_le_zpow_right₀ (by norm_num) (by omega)).trans hpoint
    have hle := (scaleDown_snd_le_fst (by decide) hden).2 (ten_zpow_max_le hlast hexponent)
    exact Decimal.isNormal_ofScaled ((Nat.div_pos hle (scaleDown_pos (by decide) hden)).trans_le
      (div_le_roundHalfEven _ _)) _

/-- Zero does not lie among the numbers that round to a positive double. -/
theorem pos_of_mem_nearestOnGrid? {k : Int} {c : Nat} (hm : 0 < d.significand)
    (hc : d.nearestOnGrid? k = some c) : 0 < c := by
  have hunit : 0 < (scaleDown 10 (ratio 1 (d.exponent - 2)).1 (ratio 1 (d.exponent - 2)).2 k).1 :=
    scaleDown_fst_pos (by decide) (ratio_fst_pos Nat.one_pos _)
  rw [nearestOnGrid?] at hc
  generalize ratio 1 (d.exponent - 2) = r at hc hunit
  obtain ⟨unit, den⟩ := r
  dsimp -zeta only at hc hunit
  generalize scaleDown 10 unit den k = r at hc hunit
  obtain ⟨unit, den⟩ := r
  dsimp -zeta only at hc hunit
  extract_lets value least greatest inside c' at hc
  have hleast : 0 < least := Nat.mul_pos (by split <;> omega) hunit
  have hinside {c : Nat} (h : inside c = true) : 0 < c := by
    have hle : least ≤ c * den := by
      dsimp only [inside] at h
      split at h <;> rw [Bool.and_eq_true, decide_eq_true_iff] at h <;> omega
    exact Nat.pos_of_mul_pos_right (hleast.trans_le hle)
  split at hc
  next h =>
    rw [Bool.and_eq_true] at h
    exact Option.some_inj.1 hc ▸ hinside h.1
  next =>
    rw [Option.ite_none_right_eq_some, Option.some_inj] at hc
    exact hc.2 ▸ hinside hc.1

theorem isNormal_shortestFrom (hd : d.isFinite = true) (hm : 0 < d.significand) (point : Int)
    {n : Nat} (hn : 0 < n) (fuel : Nat) : (d.shortestFrom point n fuel).IsNormal := by
  induction fuel generalizing n with
  | zero => exact isNormal_significantDigits hd hn
  | succ fuel ih =>
    rw [shortestFrom]
    split
    next c hc => exact Decimal.isNormal_ofScaled (pos_of_mem_nearestOnGrid? hm hc) _
    next => exact ih n.succ_pos

theorem isNormal_shortestDigits (hd : d.isFinite = true) : d.shortestDigits.IsNormal := by
  rw [shortestDigits]
  split
  · exact Decimal.isNormal_zero
  next hm => exact isNormal_shortestFrom hd (Nat.pos_of_ne_zero hm) _ Nat.one_pos 17

end Double

end ObjectModel
