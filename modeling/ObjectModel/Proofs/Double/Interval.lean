import Mathlib.Algebra.Order.Group.Pointwise.Interval
import Mathlib.Tactic.FieldSimp
import ObjectModel.Proofs.Double.Rounding
/-!
# The numbers that round to a double

They form an interval around the double. It reaches half way to the neighbours on both sides, which
is half a unit of the last digit, except below a power of two, where the doubles lie twice as close
and it is a quarter. The ends belong to the interval if the coefficient is even. So a number between
a double and one that rounds to it rounds to it as well, which is all that the choice of decimal
digits relies on.
-/

namespace ObjectModel

namespace Double

variable {d : Double} {num den : Nat} {x : ℚ}

/-- How far below a double the numbers reach that round to it, in quarters of a unit of its last
digit: half as far below a power of two, where the doubles lie twice as close. -/
def quartersBelow (d : Double) : Nat :=
  if d.significand = hiddenBit && minExponent < d.exponent then 1 else 2

def reachBelow (d : Double) : ℚ := d.quartersBelow / 4

/-- Whether a positive number lies among those that round to a double. The middle between two
doubles belongs to the even one. -/
def Attracts (d : Double) (x : ℚ) : Prop :=
  if d.significand % 2 = 0 then
    d.significand - d.reachBelow ≤ x / 2 ^ d.exponent ∧
      x / 2 ^ d.exponent ≤ d.significand + 1 / 2
  else
    d.significand - d.reachBelow < x / 2 ^ d.exponent ∧
      x / 2 ^ d.exponent < d.significand + 1 / 2

theorem abs_sub_le_half_iff {c : Nat} {t : ℚ} :
    |((c : Int) - t : ℚ)| ≤ 1 / 2 ∧ (|((c : Int) - t : ℚ)| = 1 / 2 → c % 2 = 0) ↔
      if c % 2 = 0 then c - 1 / 2 ≤ t ∧ t ≤ c + 1 / 2 else c - 1 / 2 < t ∧ t < c + 1 / 2 := by
  rw [Int.cast_natCast, abs_le, abs_eq (by norm_num)]
  split
  next h =>
    refine ⟨fun ⟨⟨h₁, h₂⟩, _⟩ => ⟨by linarith, by linarith⟩, fun ⟨h₁, h₂⟩ => ?_⟩
    exact ⟨⟨by linarith, by linarith⟩, fun _ => h⟩
  next h =>
    constructor
    · rintro ⟨⟨h₁, h₂⟩, heven⟩
      refine ⟨lt_of_le_of_ne (by linarith) fun he => ?_, lt_of_le_of_ne (by linarith) fun he => ?_⟩
      · exact h (heven (.inl (by linarith)))
      · exact h (heven (.inr (by linarith)))
    · rintro ⟨h₁, h₂⟩
      refine ⟨⟨by linarith, by linarith⟩, ?_⟩
      rintro (he | he) <;> linarith

theorem quartersBelow_of (h : d.significand = hiddenBit ∧ minExponent < d.exponent) :
    d.quartersBelow = 1 := by
  refine if_pos ?_
  rwa [Bool.and_eq_true, decide_eq_true_eq, decide_eq_true_eq]

theorem quartersBelow_of_not (h : ¬(d.significand = hiddenBit ∧ minExponent < d.exponent)) :
    d.quartersBelow = 2 := by
  refine if_neg fun hboth => h ?_
  rwa [Bool.and_eq_true, decide_eq_true_eq, decide_eq_true_eq] at hboth

theorem reachBelow_of (h : d.significand = hiddenBit ∧ minExponent < d.exponent) :
    d.reachBelow = 1 / 4 := by
  rw [reachBelow, quartersBelow_of h, Nat.cast_one]

theorem reachBelow_of_not (h : ¬(d.significand = hiddenBit ∧ minExponent < d.exponent)) :
    d.reachBelow = 1 / 2 := by
  rw [reachBelow, quartersBelow_of_not h]
  norm_num

theorem quartersBelow_le (d : Double) : d.quartersBelow ≤ 2 := by
  rw [quartersBelow]
  split <;> decide

theorem reachBelow_le (d : Double) : d.reachBelow ≤ 1 / 2 := by
  have hle : (d.quartersBelow : ℚ) ≤ 2 := by exact_mod_cast d.quartersBelow_le
  rw [reachBelow]
  linarith

theorem reachBelow_pos (d : Double) : 0 < d.reachBelow := by
  have hpos : 0 < d.quartersBelow := by
    rw [quartersBelow]
    split <;> decide
  rw [reachBelow]
  positivity

theorem attracts_of_reachBelow (h : d.reachBelow = 1 / 2) : d.Attracts x ↔
    |((d.significand : Int) - x / 2 ^ d.exponent : ℚ)| ≤ 1 / 2 ∧
      (|((d.significand : Int) - x / 2 ^ d.exponent : ℚ)| = 1 / 2 → d.significand % 2 = 0) := by
  rw [abs_sub_le_half_iff, Attracts, h]

/-- The coefficient of a power of two is even, so the ends belong to the interval. -/
theorem attracts_of_eq_hiddenBit (h : d.significand = hiddenBit) : d.Attracts x ↔
    hiddenBit - d.reachBelow ≤ x / 2 ^ d.exponent ∧ x / 2 ^ d.exponent ≤ hiddenBit + 1 / 2 := by
  rw [Attracts, h, if_pos (by decide)]

theorem attracts_of_lt (hleast : d.significand - d.reachBelow < x / 2 ^ d.exponent)
    (hgreatest : x / 2 ^ d.exponent < d.significand + 1 / 2) : d.Attracts x := by
  rw [Attracts]
  split
  · exact ⟨hleast.le, hgreatest.le⟩
  · exact ⟨hleast, hgreatest⟩

theorem attracts_of_ofRatio_eq (hd : d.isFinite = true) (hnum : 0 < num) (hden : 0 < den)
    (h : ofRatio d.isNegative num den = d) : d.Attracts (num / den) := by
  have hfinite : (ofRatio d.isNegative num den).isFinite = true := h.symm ▸ hd
  have hmagnitude := magnitude_ofRatio hnum hfinite
  rw [h] at hmagnitude
  have hmin := minExponent_le_lastExponent num den
  have hc := abs_coefficient_sub_le num hden
  have hj : (lastExponent num den - minExponent).toNat = 0 ∨ hiddenBit ≤ coefficient num den := by
    by_cases hlast : lastExponent num den = minExponent
    · exact .inl (by omega)
    · exact .inr (hiddenBit_le_coefficient hnum hden hlast)
  obtain ⟨hs, he⟩ | ⟨hq, hs, he⟩ := of_magnitude_eq hmagnitude (coefficient_le num hden) hj
  · rw [Int.toNat_of_nonneg (by omega), sub_add_cancel] at he
    by_cases hpower : d.significand = hiddenBit ∧ minExponent < d.exponent
    · -- nothing below a power of two is rounded to its coefficient
      have hge := hiddenBit_le_scaled hnum hden (he ▸ hpower.2.ne')
      rw [attracts_of_eq_hiddenBit hpower.1, reachBelow_of hpower, he]
      rw [← hs, hpower.1, Int.cast_natCast, abs_le] at hc
      rw [scaled] at hge hc
      exact ⟨by linarith, by linarith [hc.1.1]⟩
    · rwa [attracts_of_reachBelow (reachBelow_of_not hpower), hs, he]
  · -- the coefficient was rounded up to the next power of two
    rw [add_right_comm, Int.toNat_of_nonneg (by omega), sub_add_cancel] at he
    rw [attracts_of_eq_hiddenBit hs, reachBelow_of ⟨hs, by omega⟩, he]
    rw [hq, Int.cast_natCast, abs_le, scaled] at hc
    obtain ⟨⟨h₁, h₂⟩, -⟩ := hc
    push_cast at h₁ h₂
    rw [zpow_add_one₀ two_ne_zero, ← div_div]
    exact ⟨by linarith, by linarith⟩

theorem magnitude_eq (d : Double) :
    d.magnitude = (d.exponent - minExponent).toNat * hiddenBit + d.significand := by
  rw [exponent, significand, add_sub_cancel_right]
  rw [hiddenBit]
  split <;> omega

theorem hiddenBit_le_significand (he : minExponent < d.exponent) : hiddenBit ≤ d.significand := by
  rw [exponent] at he
  rw [significand]
  rw [hiddenBit] at *
  split <;> omega

/-- The last digit that is kept of a fraction is the one that leaves as many digits as a coefficient
has. -/
theorem lastExponent_eq (hnum : 0 < num) (hden : 0 < den) {k : Int} (hk : minExponent ≤ k)
    (hlow : k = minExponent ∨ (hiddenBit : ℚ) * 2 ^ k ≤ num / den)
    (hhigh : (num / den : ℚ) < 2 * hiddenBit * 2 ^ k) : lastExponent num den = k := by
  rw [mul_assoc, hiddenBit_mul_two_zpow, mul_comm, ← zpow_add_one₀ two_ne_zero] at hhigh
  have h₁ := (two_pow_binaryExponent_le hnum hden).trans_lt hhigh
  rw [zpow_lt_zpow_iff_right₀ one_lt_two] at h₁
  rw [lastExponent]
  obtain rfl | hlow := hlow
  · omega
  · rw [hiddenBit_mul_two_zpow] at hlow
    have h₂ := hlow.trans_lt (lt_two_pow_binaryExponent hden)
    rw [zpow_lt_zpow_iff_right₀ one_lt_two] at h₂
    omega

theorem coefficient_eq (hden : 0 < den) {k : Int} (hlast : lastExponent num den = k) {c : Nat}
    (h : |((c : Int) - num / den / 2 ^ k : ℚ)| ≤ 1 / 2 ∧
      (|((c : Int) - num / den / 2 ^ k : ℚ)| = 1 / 2 → c % 2 = 0)) : coefficient num den = c := by
  rw [← hlast, ← scaled, ← scaleDown_div_eq_scaled] at h
  exact roundHalfEven_eq (scaleDown_pos (by decide) hden) h.1 h.2

theorem ofRatio_eq_of_coefficient_eq (hd : d.isFinite = true) (hnum : 0 < num)
    (h : (lastExponent num den - minExponent).toNat * hiddenBit + coefficient num den =
      d.magnitude) : ofRatio d.isNegative num den = d := by
  rw [isFinite, decide_eq_true_eq] at hd
  rw [ofRatio_eq _ hnum, h, Nat.min_eq_left hd.le, ofMagnitude_magnitude]

/-- Where the doubles on both sides are equally near, the fraction is rounded in units of the last
digit of the double. -/
theorem rounds_of_attracts_of_not (hnum : 0 < num) (hden : 0 < den)
    (hpower : ¬(d.significand = hiddenBit ∧ minExponent < d.exponent))
    (h : d.Attracts (num / den)) :
    lastExponent num den = d.exponent ∧ coefficient num den = d.significand := by
  have hpow : (0 : ℚ) < 2 ^ d.exponent := by positivity
  rw [attracts_of_reachBelow (reachBelow_of_not hpower)] at h
  obtain ⟨hleast, hgreatest⟩ := abs_le.1 h.1
  rw [Int.cast_natCast] at hleast hgreatest
  have hlast : lastExponent num den = d.exponent := by
    refine lastExponent_eq hnum hden (minExponent_le_exponent d) ?_ ?_
    · obtain he | he := (minExponent_le_exponent d).eq_or_lt
      · exact .inl he.symm
      · have hne : hiddenBit ≠ d.significand := fun h => hpower ⟨h.symm, he⟩
        have hgt : (hiddenBit + 1 : ℚ) ≤ d.significand := by
          exact_mod_cast (hiddenBit_le_significand he).lt_of_ne hne
        rw [← le_div_iff₀ hpow]
        exact .inr (by linarith)
    · have hlt : (d.significand + 1 : ℚ) ≤ 2 * hiddenBit := by exact_mod_cast significand_lt d
      rw [← div_lt_iff₀ hpow]
      linarith
  exact ⟨hlast, coefficient_eq hden hlast h⟩

/-- So it is above a power of two. -/
theorem rounds_of_attracts_of_le (hnum : 0 < num) (hden : 0 < den)
    (hpower : d.significand = hiddenBit ∧ minExponent < d.exponent) (h : d.Attracts (num / den))
    (hlow : (hiddenBit : ℚ) ≤ num / den / 2 ^ d.exponent) :
    lastExponent num den = d.exponent ∧ coefficient num den = d.significand := by
  have hpow : (0 : ℚ) < 2 ^ d.exponent := by positivity
  have hbit : (1 : ℚ) ≤ hiddenBit := by norm_num [hiddenBit]
  rw [attracts_of_eq_hiddenBit hpower.1] at h
  have hlast : lastExponent num den = d.exponent := by
    refine lastExponent_eq hnum hden hpower.2.le (.inr ((le_div_iff₀ hpow).1 hlow)) ?_
    rw [← div_lt_iff₀ hpow]
    linarith [h.2]
  refine ⟨hlast, hpower.1 ▸ coefficient_eq hden hlast (abs_sub_le_half_iff.2 ?_)⟩
  rw [if_pos (by decide)]
  exact ⟨by linarith, h.2⟩

/-- Below a power of two it is rounded in units half as great, and the coefficient carries. -/
theorem rounds_of_attracts_of_lt (hnum : 0 < num) (hden : 0 < den)
    (hpower : d.significand = hiddenBit ∧ minExponent < d.exponent) (h : d.Attracts (num / den))
    (hlow : num / den / 2 ^ d.exponent < (hiddenBit : ℚ)) :
    lastExponent num den = d.exponent - 1 ∧ coefficient num den = 2 * hiddenBit := by
  have hpow : (0 : ℚ) < 2 ^ (d.exponent - 1) := by positivity
  have hbit : (1 : ℚ) ≤ hiddenBit := by norm_num [hiddenBit]
  have htwice : (num / den / 2 ^ (d.exponent - 1) : ℚ) = 2 * (num / den / 2 ^ d.exponent) := by
    rw [zpow_sub_one₀ two_ne_zero]
    field_simp
  rw [attracts_of_eq_hiddenBit hpower.1, reachBelow_of hpower] at h
  have hlast : lastExponent num den = d.exponent - 1 := by
    refine lastExponent_eq hnum hden (Int.le_sub_one_of_lt hpower.2) (.inr ?_) ?_
    · rw [← le_div_iff₀ hpow, htwice]
      linarith [h.1]
    · rw [← div_lt_iff₀ hpow, htwice]
      linarith
  refine ⟨hlast, coefficient_eq hden hlast (abs_sub_le_half_iff.2 ?_)⟩
  rw [if_pos (by decide), htwice]
  push_cast
  exact ⟨by linarith [h.1], by linarith⟩

theorem ofRatio_eq_of_attracts (hd : d.isFinite = true) (hnum : 0 < num) (hden : 0 < den)
    (h : d.Attracts (num / den)) : ofRatio d.isNegative num den = d := by
  refine ofRatio_eq_of_coefficient_eq hd hnum ?_
  rw [magnitude_eq]
  by_cases hpower : d.significand = hiddenBit ∧ minExponent < d.exponent
  · obtain hlow | hlow := le_or_gt (hiddenBit : ℚ) (num / den / 2 ^ d.exponent)
    · obtain ⟨hlast, hc⟩ := rounds_of_attracts_of_le hnum hden hpower h hlow
      rw [hlast, hc]
    · obtain ⟨hlast, hc⟩ := rounds_of_attracts_of_lt hnum hden hpower h hlow
      rw [hlast, hc, hpower.1]
      rw [hiddenBit]
      omega
  · obtain ⟨hlast, hc⟩ := rounds_of_attracts_of_not hnum hden hpower h
    rw [hlast, hc]

/-- The numbers that round to a double. -/
theorem ofRatio_eq_iff (hd : d.isFinite = true) (hnum : 0 < num) (hden : 0 < den) :
    ofRatio d.isNegative num den = d ↔ d.Attracts (num / den) :=
  ⟨attracts_of_ofRatio_eq hd hnum hden, ofRatio_eq_of_attracts hd hnum hden⟩

theorem absValue_div (d : Double) : d.absValue / 2 ^ d.exponent = d.significand :=
  mul_div_cancel_right₀ _ (by positivity)

/-- Whatever lies between a double and a number that rounds to it rounds to it as well. -/
theorem Attracts.of_mem_uIcc {y : ℚ} (hx : d.Attracts x) (hy : y ∈ Set.uIcc x d.absValue) :
    d.Attracts y := by
  have hpow : (0 : ℚ) < 2 ^ d.exponent := by positivity
  have hbelow := d.reachBelow_pos
  have hy' : y / 2 ^ d.exponent ∈ Set.uIcc (x / 2 ^ d.exponent) d.significand := by
    rw [Set.mem_uIcc] at hy ⊢
    rw [← absValue_div, div_le_div_iff_of_pos_right hpow, div_le_div_iff_of_pos_right hpow,
      div_le_div_iff_of_pos_right hpow, div_le_div_iff_of_pos_right hpow]
    exact hy
  rw [Set.mem_uIcc] at hy'
  by_cases heven : d.significand % 2 = 0
  · rw [Attracts, if_pos heven] at hx ⊢
    obtain ⟨h₁, h₂⟩ | ⟨h₁, h₂⟩ := hy' <;> exact ⟨by linarith, by linarith⟩
  · rw [Attracts, if_neg heven] at hx ⊢
    obtain ⟨h₁, h₂⟩ | ⟨h₁, h₂⟩ := hy' <;> exact ⟨by linarith, by linarith⟩

theorem not_attracts_zero (hm : 0 < d.significand) : ¬d.Attracts 0 := by
  have hone : (1 : ℚ) ≤ d.significand := by exact_mod_cast hm
  have hbelow := d.reachBelow_le
  rw [Attracts, zero_div]
  split <;> rintro ⟨h, -⟩ <;> linarith

theorem significand_eq_zero_iff (d : Double) : d.significand = 0 ↔ d = zero d.isNegative := by
  have hmagnitude : d.significand = 0 ↔ d.magnitude = 0 := by
    rw [significand]
    rw [hiddenBit]
    split <;> omega
  rw [hmagnitude]
  constructor
  · intro h
    rw [zero, ← h, ofMagnitude_magnitude]
  · intro h
    rw [h]
    exact magnitude_ofMagnitude _ (by decide)

/-- The decimal numerals that are read as a double other than zero. -/
theorem ofDecimal_eq_iff (hd : d.isFinite = true) (hm : 0 < d.significand) (digits : Nat)
    (exponent : Int) :
    ofDecimal d.isNegative digits exponent = d ↔ d.Attracts (digits * 10 ^ exponent) := by
  obtain rfl | hdigits := Nat.eq_zero_or_pos digits
  · rw [Nat.cast_zero, zero_mul]
    refine iff_of_false (fun h => ?_) (not_attracts_zero hm)
    exact hm.ne' ((significand_eq_zero_iff d).2 h.symm)
  · rw [ofDecimal_eq_ofRatio _ hdigits, ofRatio_eq_iff hd (scaleDown_fst_pos (by decide) hdigits)
      (scaleDown_pos (by decide) (by decide)), scaleDown_neg_div (by decide), Nat.cast_ofNat]

end Double

end ObjectModel
