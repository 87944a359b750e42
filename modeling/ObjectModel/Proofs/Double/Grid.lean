import Mathlib.Algebra.Order.Floor.Semifield
import Mathlib.Data.Rat.Floor
import Mathlib.Tactic.LinearCombination
import ObjectModel.Proofs.Double.Digits
import ObjectModel.Proofs.Double.Interval
/-!
# Decimal grids around a double

The numbers with `n` digits next to a double are multiples of a power of ten, except those in the
decade below, and the least multiple in the decade of the double is between these and the double. So
it is enough to look at one grid for each number of digits, and on a grid at the two multiples next
to the value. With seventeen digits the step of the grid is less than a unit of the last digit, and
less than half a unit at a power of two.
-/

namespace ObjectModel

namespace Double

variable {d : Double} {x : ℚ}

/-- Whether a multiple of a power of ten rounds to a double is told by integer arithmetic, in
quarters of the last digit divided by the step of the grid. -/
theorem attracts_grid_iff (hm : 0 < d.significand) {unit den c : Nat} {k : Int} (hden : 0 < den)
    (hunit : (unit / den : ℚ) = 2 ^ (d.exponent - 2) / 10 ^ k) :
    d.Attracts (c * 10 ^ k) ↔
      if d.significand % 2 = 0 then
        (4 * d.significand - d.quartersBelow) * unit ≤ c * den ∧
          c * den ≤ (4 * d.significand + 2) * unit
      else
        (4 * d.significand - d.quartersBelow) * unit < c * den ∧
          c * den < (4 * d.significand + 2) * unit := by
  have hden' : (0 : ℚ) < den := by exact_mod_cast hden
  have hunit' : (0 : ℚ) < unit := by
    have hpos : (0 : ℚ) < unit / den := hunit ▸ by positivity
    exact (div_pos_iff_of_pos_right hden').1 hpos
  have hfour : (0 : ℚ) < 4 * unit := by positivity
  have ht : (c * 10 ^ k / 2 ^ d.exponent : ℚ) = (c * den : Nat) / (4 * unit) := by
    rw [div_eq_div_iff hden'.ne' (by positivity), zpow_sub₀ two_ne_zero] at hunit
    rw [div_eq_div_iff (by positivity) hfour.ne', Nat.cast_mul]
    field_simp at hunit
    linear_combination c * hunit
  have hleast : ((d.significand - d.reachBelow) * (4 * unit) : ℚ) =
      ((4 * d.significand - d.quartersBelow) * unit : Nat) := by
    have hle := d.quartersBelow_le
    rw [reachBelow, Nat.cast_mul, Nat.cast_sub (by omega)]
    push_cast
    ring
  have hgreatest : ((d.significand + 1 / 2) * (4 * unit) : ℚ) =
      ((4 * d.significand + 2) * unit : Nat) := by
    push_cast
    ring
  rw [Attracts, ht, le_div_iff₀ hfour, div_le_iff₀ hfour, lt_div_iff₀ hfour, div_lt_iff₀ hfour,
    hleast, hgreatest, Nat.cast_le, Nat.cast_le, Nat.cast_lt, Nat.cast_lt]

/-- A multiple of a number lies beyond one of the two multiples next to another number, or is one of
them. -/
theorem mem_uIcc_or_mem_uIcc {step v : ℚ} (hstep : 0 ≤ step) {low : Nat} (hlow : low * step ≤ v)
    (hhigh : v ≤ (low + 1 : Nat) * step) (c : Nat) :
    (low * step ∈ Set.uIcc (c * step) v) ∨ ((low + 1 : Nat) * step ∈ Set.uIcc (c * step) v) := by
  obtain hc | hc := Nat.lt_or_ge low c
  · refine .inr (Set.mem_uIcc.2 (.inr ⟨hhigh, mul_le_mul_of_nonneg_right ?_ hstep⟩))
    exact_mod_cast hc
  · refine .inl (Set.mem_uIcc.2 (.inl ⟨mul_le_mul_of_nonneg_right ?_ hstep, hlow⟩))
    exact_mod_cast hc

/-- Whether a multiple of a power of ten rounds to a double, and none that does is nearer to it. -/
structure IsBestOnGrid (d : Double) (k : Int) (c : Nat) : Prop where
  attracts : d.Attracts (c * 10 ^ k)
  abs_sub_le : ∀ c' : Nat, d.Attracts (c' * 10 ^ k) →
    |(c * 10 ^ k - d.absValue : ℚ)| ≤ |c' * 10 ^ k - d.absValue|

theorem abs_sub_le_of_mem_uIcc {x y v : ℚ} (hy : y ∈ Set.uIcc x v) : |y - v| ≤ |x - v| := by
  rw [abs_sub_comm y, abs_sub_comm x]
  exact Set.abs_sub_right_of_mem_uIcc hy

/-- Of the two multiples next to the value it is enough to compare one with the other. -/
theorem isBestOnGrid_of_forall_or {k : Int} {c other : Nat} (hc : d.Attracts (c * 10 ^ k))
    (hother : d.Attracts (other * 10 ^ k) →
      |(c * 10 ^ k - d.absValue : ℚ)| ≤ |other * 10 ^ k - d.absValue|)
    (hor : ∀ c' : Nat, (c * 10 ^ k : ℚ) ∈ Set.uIcc (c' * 10 ^ k : ℚ) d.absValue ∨
      (other * 10 ^ k : ℚ) ∈ Set.uIcc (c' * 10 ^ k : ℚ) d.absValue) : d.IsBestOnGrid k c := by
  refine ⟨hc, fun c' hc' => ?_⟩
  obtain h | h := hor c'
  · exact abs_sub_le_of_mem_uIcc h
  · exact (hother (hc'.of_mem_uIcc h)).trans (abs_sub_le_of_mem_uIcc h)

/-- The two multiples next to the value, and which of them is nearer. -/
theorem grid_neighbours {unit den : Nat} {k : Int} (hden : 0 < den)
    (hunit : (unit / den : ℚ) = 2 ^ (d.exponent - 2) / 10 ^ k) :
    let value := 4 * d.significand * unit
    let low := value / den
    low * 10 ^ k ≤ d.absValue ∧ d.absValue ≤ (low + 1 : Nat) * 10 ^ k ∧
      (2 * (value % den) < den ↔
        |(low * 10 ^ k - d.absValue : ℚ)| < |(low + 1 : Nat) * 10 ^ k - d.absValue|) := by
  intro value low
  have hstep : (0 : ℚ) < 10 ^ k := by positivity
  have hden' : (0 : ℚ) < den := by exact_mod_cast hden
  have hvalue : d.absValue * den = value * 10 ^ k := by
    rw [div_eq_div_iff hden'.ne' hstep.ne', zpow_sub₀ two_ne_zero] at hunit
    have hcast : (value : ℚ) = 4 * d.significand * unit := by
      dsimp only [value]
      push_cast
      rfl
    rw [absValue, hcast]
    linear_combination -4 * d.significand * hunit
  have hmod : (den * low + (value % den : Nat) : ℚ) = value := by
    rw [← Nat.cast_mul, ← Nat.cast_add]
    exact congrArg Nat.cast (Nat.div_add_mod value den)
  have hrest : (d.absValue - low * 10 ^ k) * den = (value % den : Nat) * 10 ^ k := by
    linear_combination hvalue - 10 ^ k * hmod
  have hlow : low * 10 ^ k ≤ d.absValue := by
    have h : 0 ≤ (d.absValue - low * 10 ^ k) * den := hrest ▸ by positivity
    exact sub_nonneg.1 (nonneg_of_mul_nonneg_left h hden')
  have hhigh : d.absValue ≤ (low + 1 : Nat) * 10 ^ k := by
    have hlt : ((value % den : Nat) : ℚ) ≤ den := by exact_mod_cast (Nat.mod_lt value hden).le
    have h := hrest.trans_le (mul_le_mul_of_nonneg_right hlt hstep.le)
    rw [mul_comm (den : ℚ), mul_le_mul_iff_left₀ hden'] at h
    push_cast
    linarith
  refine ⟨hlow, hhigh, ?_⟩
  have h : (2 * (d.absValue - low * 10 ^ k)) * den = (2 * (value % den) : Nat) * 10 ^ k := by
    push_cast
    linear_combination 2 * hrest
  rw [abs_sub_comm, abs_of_nonneg (sub_nonneg.2 hlow), abs_of_nonneg (sub_nonneg.2 hhigh),
    ← Nat.cast_lt (α := ℚ), ← mul_lt_mul_iff_left₀ hstep, ← h, mul_comm (den : ℚ),
    mul_lt_mul_iff_left₀ hden']
  push_cast
  constructor <;> intro h <;> linarith

/-- What the search on a grid tests and what it answers. -/
theorem exists_nearestOnGrid?_eq (hm : 0 < d.significand) (k : Int) :
    ∃ (low : Nat) (inside : Nat → Bool) (isNearer : Bool),
      d.nearestOnGrid? k =
        (if inside low && (!inside (low + 1) || isNearer) then some low
        else if inside (low + 1) then some (low + 1) else none) ∧
      (∀ c, inside c = true ↔ d.Attracts (c * 10 ^ k)) ∧
      (isNearer = true ↔
        |(low * 10 ^ k - d.absValue : ℚ)| < |(low + 1 : Nat) * 10 ^ k - d.absValue|) ∧
      low * 10 ^ k ≤ d.absValue ∧ d.absValue ≤ (low + 1 : Nat) * 10 ^ k := by
  have hden : 0 < (scaleDown 10 (ratio 1 (d.exponent - 2)).1 (ratio 1 (d.exponent - 2)).2 k).2 :=
    scaleDown_pos (by decide) (ratio_snd_pos 1 (d.exponent - 2))
  have hunit := scaleDown_div (show 0 < 10 by decide) (ratio 1 (d.exponent - 2)).1
    (ratio 1 (d.exponent - 2)).2 k
  rw [ratio_div, Nat.cast_one, one_mul, Nat.cast_ofNat] at hunit
  rw [nearestOnGrid?]
  generalize ratio 1 (d.exponent - 2) = r at hden hunit
  obtain ⟨unit, den⟩ := r
  dsimp -zeta only at hden hunit ⊢
  generalize scaleDown 10 unit den k = r at hden hunit
  obtain ⟨unit, den⟩ := r
  dsimp -zeta only at hden hunit ⊢
  extract_lets value least greatest inside low
  obtain ⟨hlow, hhigh, hnearer⟩ := grid_neighbours hden hunit
  refine ⟨low, inside, decide (2 * (value % den) < den), rfl, fun c => ?_,
    decide_eq_true_iff.trans hnearer, hlow, hhigh⟩
  rw [attracts_grid_iff hm hden hunit]
  dsimp only [inside]
  split <;> rw [Bool.and_eq_true, decide_eq_true_eq, decide_eq_true_eq] <;> rfl

/-- The search on a grid finds the best number there is, and finds one if there is any. -/
theorem nearestOnGrid?_spec (hm : 0 < d.significand) (k : Int) :
    (∀ c ∈ d.nearestOnGrid? k, d.IsBestOnGrid k c) ∧
      (d.nearestOnGrid? k = none → ∀ c : Nat, ¬d.Attracts (c * 10 ^ k)) := by
  obtain ⟨low, inside, isNearer, he, hinside, hnearer, hlow, hhigh⟩ :=
    exists_nearestOnGrid?_eq hm k
  have hor := mem_uIcc_or_mem_uIcc (zpow_pos (by norm_num) k).le hlow hhigh
  have hfirst : (inside low && (!inside (low + 1) || isNearer)) = true ↔
      d.Attracts (low * 10 ^ k) ∧ (¬d.Attracts ((low + 1 : Nat) * 10 ^ k) ∨
        |(low * 10 ^ k - d.absValue : ℚ)| < |(low + 1 : Nat) * 10 ^ k - d.absValue|) := by
    rw [Bool.and_eq_true, Bool.or_eq_true, Bool.not_eq_true', ← Bool.not_eq_true, hinside, hinside,
      hnearer]
  rw [he]
  split
  next h =>
    rw [hfirst] at h
    refine ⟨fun c hc => Option.some_inj.1 hc ▸ isBestOnGrid_of_forall_or h.1 (fun hother => ?_) hor,
      nofun⟩
    obtain hnot | hlt := h.2
    · exact absurd hother hnot
    · exact hlt.le
  next h =>
    rw [hfirst, not_and, not_or, not_not, not_lt] at h
    split
    next h' =>
      refine ⟨fun c hc => Option.some_inj.1 hc ▸ ?_, nofun⟩
      exact isBestOnGrid_of_forall_or ((hinside _).1 h') (fun hother => (h hother).2)
        fun c' => (hor c').symm
    next h' =>
      rw [hinside] at h'
      refine ⟨nofun, fun _ c hc => ?_⟩
      obtain hmem | hmem := hor c
      · exact h' (h (hc.of_mem_uIcc hmem)).1
      · exact h' (hc.of_mem_uIcc hmem)

theorem ten_pow_mul_ten_zpow (n : Nat) (point : Int) :
    ((10 ^ n : Nat) : ℚ) * 10 ^ (point - n) = 10 ^ point := by
  rw [Nat.cast_pow, ← zpow_natCast, Nat.cast_ofNat, ← zpow_add₀ (by norm_num), add_sub_cancel]

/-- A number with at most `n` digits can be replaced by one on the grid of the value with `n` digits
that is not farther from the value. -/
theorem exists_mem_uIcc {v : ℚ} {point k : Int} {n q : Nat} (hn : 0 < n) (hq : q < 10 ^ n)
    (hv : (10 : ℚ) ^ (point - 1) ≤ v) :
    ∃ c : Nat, (c * 10 ^ (point - n) : ℚ) ∈ Set.uIcc (q * 10 ^ k : ℚ) v := by
  obtain hk | hk := le_or_gt (point - n) k
  · obtain ⟨i, hi⟩ := Int.le.dest hk
    refine ⟨q * 10 ^ i, ?_⟩
    have he : (q * 10 ^ i : Nat) * (10 : ℚ) ^ (point - n) = q * 10 ^ k := by
      rw [← hi, zpow_add₀ (by norm_num), zpow_natCast]
      push_cast
      ring
    rw [he]
    exact Set.left_mem_uIcc
  · -- the number stands below the first digit of the value
    have hfirst : ((10 ^ (n - 1) : Nat) : ℚ) * 10 ^ (point - n) = 10 ^ (point - 1) := by
      have h := ten_pow_mul_ten_zpow (n - 1) (point - 1)
      rwa [show point - 1 - ((n - 1 : Nat) : Int) = point - n by omega] at h
    have hq' : (q : ℚ) ≤ (10 ^ n : Nat) := by exact_mod_cast hq.le
    refine ⟨10 ^ (n - 1), hfirst.symm ▸ Set.mem_uIcc.2 (.inl ⟨?_, hv⟩)⟩
    calc (q * 10 ^ k : ℚ)
        ≤ (10 ^ n : Nat) * 10 ^ (point - 1 - n) :=
          mul_le_mul hq' (zpow_le_zpow_right₀ (by norm_num) (by omega)) (by positivity)
            (by positivity)
      _ = 10 ^ (point - 1) := ten_pow_mul_ten_zpow n _

/-- A multiple beyond another one that is beyond the value is farther from the value. -/
theorem le_of_abs_sub_le {v step : ℚ} (hstep : 0 < step) {c b : Nat} (hv : v ≤ b * step)
    (hle : |c * step - v| ≤ |b * step - v|) : c ≤ b := by
  by_contra hlt
  have hgt : b * step < c * step := mul_lt_mul_of_pos_right (by exact_mod_cast not_le.1 hlt) hstep
  rw [abs_of_nonneg (sub_nonneg.2 hv), abs_of_nonneg (sub_nonneg.2 (hv.trans hgt.le))] at hle
  linarith

/-- The best number on a grid does not have more digits than the grid. -/
theorem IsBestOnGrid.le_ten_pow {point : Int} {n c : Nat} (hc : d.IsBestOnGrid (point - n) c)
    (hv : d.absValue < 10 ^ point) : c ≤ 10 ^ n := by
  have hstep : (0 : ℚ) < 10 ^ (point - n) := by positivity
  rw [← ten_pow_mul_ten_zpow n] at hv
  by_contra hlt
  have hgt : ((10 ^ n : Nat) : ℚ) * 10 ^ (point - n) ≤ c * 10 ^ (point - n) :=
    mul_le_mul_of_nonneg_right (by exact_mod_cast (not_le.1 hlt).le) hstep.le
  have hattracts := hc.attracts.of_mem_uIcc (Set.mem_uIcc.2 (.inr ⟨hv.le, hgt⟩))
  exact hlt (le_of_abs_sub_le hstep hv.le (hc.abs_sub_le _ hattracts))

/-- The position of the decimal point in the value of a double. -/
def pointOf (d : Double) : Int :=
  decimalPoint (ratio d.significand d.exponent).1 (ratio d.significand d.exponent).2

theorem ten_zpow_pointOf_le (hd : d.isFinite = true) (hm : 0 < d.significand) :
    (10 : ℚ) ^ (d.pointOf - 1) ≤ d.absValue :=
  (ten_zpow_decimalPoint_le (ratio_fst_pos hm _) (ratio_snd_pos _ _)
    (binaryExponent_ratio_le hd hm)).trans_eq (ratio_div _ _)

theorem lt_ten_zpow_pointOf (hd : d.isFinite = true) (hm : 0 < d.significand) :
    d.absValue < (10 : ℚ) ^ d.pointOf :=
  (ratio_div _ _).symm.trans_lt (lt_ten_zpow_decimalPoint (ratio_snd_pos _ _)
    (le_binaryExponent_ratio hm) (binaryExponent_ratio_le hd hm))

/-- A grid whose step is less than the interval of a double is long has a number in it. -/
theorem exists_attracts_of_lt {step : ℚ} (hpos : 0 < step) (hstep : step < 2 * d.reachBelow) :
    ∃ c : Nat, d.Attracts (c * (step * 2 ^ d.exponent)) := by
  have hbelow := d.reachBelow_pos
  have hle := d.reachBelow_le
  have hunits (c : Nat) : (c * (step * 2 ^ d.exponent) / 2 ^ d.exponent : ℚ) = c * step := by
    rw [← mul_assoc]
    exact mul_div_cancel_right₀ _ (by positivity)
  obtain ⟨low, hlow, hhigh⟩ : ∃ low : Nat, low * step ≤ d.significand ∧
      d.significand < (low + 1 : Nat) * step := by
    refine ⟨⌊d.significand / step⌋₊, ?_, ?_⟩
    · exact (le_div_iff₀ hpos).1 (Nat.floor_le (by positivity))
    · rw [Nat.cast_add_one]
      exact (div_lt_iff₀ hpos).1 (Nat.lt_floor_add_one _)
  by_cases hnear : d.significand - d.reachBelow < low * step
  · refine ⟨low, attracts_of_lt ?_ ?_⟩ <;> rw [hunits] <;> linarith
  · refine ⟨low + 1, attracts_of_lt ?_ ?_⟩
    · rw [hunits]
      linarith
    · rw [hunits]
      push_cast
      linarith

/-- The grid with seventeen digits is finer than the doubles. -/
theorem exists_attracts_seventeen (hd : d.isFinite = true) (hm : 0 < d.significand) :
    ∃ c : Nat, d.Attracts (c * 10 ^ (d.pointOf - 17)) := by
  have hpow : (0 : ℚ) < 2 ^ d.exponent := by positivity
  have hsmall : (10 ^ (d.pointOf - 17) / 2 ^ d.exponent : ℚ) ≤ d.significand / 10 ^ 16 := by
    have h := ten_zpow_pointOf_le hd hm
    rw [show d.pointOf - 1 = d.pointOf - 17 + (16 : Nat) by omega, zpow_add₀ (by norm_num),
      zpow_natCast, ← le_div_iff₀ (by positivity)] at h
    calc (10 ^ (d.pointOf - 17) / 2 ^ d.exponent : ℚ)
        ≤ d.absValue / 10 ^ 16 / 2 ^ d.exponent := div_le_div_of_nonneg_right h hpow.le
      _ = d.significand / 10 ^ 16 := by rw [div_right_comm, absValue_div]
  have hreach : (d.significand / 10 ^ 16 : ℚ) < 2 * d.reachBelow := by
    by_cases hpower : d.significand = hiddenBit ∧ minExponent < d.exponent
    · rw [reachBelow_of hpower, hpower.1]
      norm_num [hiddenBit]
    · have hlt : (d.significand : ℚ) < 2 * hiddenBit := by exact_mod_cast significand_lt d
      have hlt' : (2 * hiddenBit : ℚ) < 10 ^ 16 := by norm_num [hiddenBit]
      rw [reachBelow_of_not hpower, div_lt_iff₀ (by norm_num)]
      linarith
  obtain ⟨c, hc⟩ := exists_attracts_of_lt (by positivity) (hsmall.trans_lt hreach)
  rw [div_mul_cancel₀ _ hpow.ne'] at hc
  exact ⟨c, hc⟩

end Double

end ObjectModel
