import ObjectModel.Proofs.Double.Grid
import ObjectModel.Proofs.Double.Layout
/-!
# The choice of the digits of a double

The shortest digits read back as the double, no fewer digits do, and among those with as many digits
none are nearer to it. A given number of significant digits is kept to, and no number with as many
digits is nearer. The text of a double with the shortest digits is therefore read as that double.
-/

namespace ObjectModel

open Bytes.Utf8 (encode)
open Numeral (Form Sign)

namespace Decimal

/-- The digits as an integer. -/
def coefficient (x : Decimal) : Nat := Nat.ofDigitChars 10 x.digits 0

/-- The power of ten that the integer is multiplied with. -/
def exponent (x : Decimal) : Int := x.point - x.digits.length

theorem coefficient_mul (x : Decimal) : (x.coefficient * 10 ^ x.exponent : ℚ) = x.value := by
  have hrow : x.digits = List.replicate 0 '0' ++ x.digits ++ List.replicate 0 '0' :=
    (List.append_nil _).symm
  exact x.ofDigitChars_mul_eq_value hrow (sub_zero _).symm

theorem value_zero : zero.value = 0 := by
  rw [← coefficient_mul]
  exact zero_mul _

variable {n : Nat} {k : Int}

/-- The digits of a number are those of the decimal and the zeros that it drops. -/
theorem exists_toDigits_eq (n : Nat) (k : Int) :
    ∃ zeros, Nat.toDigits 10 n = (ofScaled n k).digits ++ List.replicate zeros '0' := by
  refine ⟨((Nat.toDigits 10 n).reverse.takeWhile (· == '0')).length, ?_⟩
  have hzeros : (Nat.toDigits 10 n).reverse.takeWhile (· == '0') =
      List.replicate ((Nat.toDigits 10 n).reverse.takeWhile (· == '0')).length '0' :=
    List.eq_replicate_length.2 fun c hc =>
      beq_iff_eq.1 (List.mem_takeWhile_imp (p := (· == '0')) hc)
  rw [← List.reverse_replicate, ← hzeros, ofScaled, ← List.reverse_append,
    List.takeWhile_append_dropWhile, List.reverse_reverse]

theorem value_ofScaled (n : Nat) (k : Int) : (ofScaled n k).value = n * 10 ^ k := by
  obtain ⟨zeros, hzeros⟩ := exists_toDigits_eq n k
  have hscale : k = (ofScaled n k).point - (ofScaled n k).digits.length - zeros := by
    have hlength := congrArg List.length hzeros
    rw [List.length_append, List.length_replicate] at hlength
    have hpoint : (ofScaled n k).point = (Nat.toDigits 10 n).length + k := rfl
    omega
  have hrow : Nat.toDigits 10 n =
      List.replicate 0 '0' ++ (ofScaled n k).digits ++ List.replicate zeros '0' := hzeros
  rw [← ofDigitChars_mul_eq_value (ofScaled n k) hrow hscale,
    Nat.ofDigitChars_toDigits (by decide) (by decide)]

theorem coefficient_ofScaled_lt (n : Nat) (k : Int) :
    (ofScaled n k).coefficient < 10 ^ (ofScaled n k).digits.length := by
  obtain ⟨zeros, hzeros⟩ := exists_toDigits_eq n k
  have hn : (ofScaled n k).coefficient * 10 ^ zeros = n := by
    have h := congrArg (Nat.ofDigitChars 10 · 0) hzeros
    rw [Nat.ofDigitChars_toDigits (by decide) (by decide), Nat.ofDigitChars_append,
      Nat.ofDigitChars_replicate_zero] at h
    rw [coefficient, mul_comm]
    exact h.symm
  have hlt : n < 10 ^ ((ofScaled n k).digits.length + zeros) := by
    have hlength : (Nat.toDigits 10 n).length = (ofScaled n k).digits.length + zeros := by
      rw [hzeros, List.length_append, List.length_replicate]
    rw [← Nat.length_toDigits_le_iff (by decide) (hlength ▸ Nat.length_toDigits_pos)]
    exact hlength.le
  have hmul := hn.trans_lt hlt
  rw [pow_add] at hmul
  exact Nat.lt_of_mul_lt_mul_right hmul

/-- A zero at the end counts for the power of ten only. -/
theorem digits_ofScaled_mul_ten (hn : 0 < n) (k : Int) :
    (ofScaled (10 * n) k).digits = (ofScaled n k).digits := by
  have h : Nat.toDigits 10 (10 * n) = Nat.toDigits 10 n ++ ['0'] :=
    (Nat.toDigits_append_toDigits (d := 0) (by decide) hn (by decide)).symm
  rw [ofScaled, ofScaled, h, List.reverse_append]
  rfl

theorem length_ofScaled_le {N : Nat} (hN : 0 < N) (h : n ≤ 10 ^ N) (k : Int) :
    (ofScaled n k).digits.length ≤ N := by
  have hof_lt {n : Nat} (h : n < 10 ^ N) : (ofScaled n k).digits.length ≤ N := by
    obtain ⟨zeros, hzeros⟩ := exists_toDigits_eq n k
    have hlength := (Nat.length_toDigits_le_iff (by decide) hN).2 h
    rw [hzeros, List.length_append] at hlength
    omega
  obtain rfl | hlt := h.eq_or_lt
  · -- all but the first digit are zeros at the end
    obtain ⟨N, rfl⟩ := Nat.exists_eq_succ_of_ne_zero hN.ne'
    rw [pow_succ', digits_ofScaled_mul_ten (by positivity)]
    exact hof_lt (Nat.pow_lt_pow_right (by decide) N.lt_succ_self)
  · exact hof_lt hlt

end Decimal

namespace Double

variable {d : Double}

/-- The grids are tried one after another, up to the first that represents the double. -/
theorem exists_shortestFrom_eq {point : Int} {n fuel : Nat}
    (h : ∃ n', n ≤ n' ∧ n' < n + fuel ∧ d.nearestOnGrid? (point - n') ≠ none) :
    ∃ n' c, n ≤ n' ∧ d.nearestOnGrid? (point - n') = some c ∧
      (∀ i : Nat, n ≤ i → i < n' → d.nearestOnGrid? (point - i) = none) ∧
      d.shortestFrom point n fuel = .ofScaled c (point - n') := by
  induction fuel generalizing n with
  | zero =>
    obtain ⟨n', hle, hlt, -⟩ := h
    omega
  | succ fuel ih =>
    rw [shortestFrom]
    split
    next c hc => exact ⟨n, c, le_rfl, hc, fun i hi hlt => absurd hlt hi.not_gt, rfl⟩
    next hnone =>
      obtain ⟨n', hle, hlt, hne⟩ := h
      have hn : n ≠ n' := by
        rintro rfl
        exact hne hnone
      obtain ⟨n', c, hle, hc, hall, he⟩ := ih (n := n + 1) ⟨n', by omega, by omega, hne⟩
      refine ⟨n', c, by omega, hc, fun i hi hlt => ?_, he⟩
      obtain rfl | hi := hi.eq_or_lt
      · exact hnone
      · exact hall i hi hlt

/-- The shortest digits stand on the first grid that represents the double. -/
theorem exists_shortestDigits_eq (hd : d.isFinite = true) (hm : 0 < d.significand) :
    ∃ n c : Nat, 0 < n ∧ d.IsBestOnGrid (d.pointOf - n) c ∧
      (∀ i : Nat, 0 < i → i < n → ∀ c : Nat, ¬d.Attracts (c * 10 ^ (d.pointOf - i))) ∧
      d.shortestDigits = .ofScaled c (d.pointOf - n) := by
  have hspec := nearestOnGrid?_spec hm
  obtain ⟨c, hc⟩ := exists_attracts_seventeen hd hm
  have hlast : ∃ n : Nat, 1 ≤ n ∧ n < 1 + 17 ∧ d.nearestOnGrid? (d.pointOf - n) ≠ none :=
    ⟨17, by decide, by decide, fun h => (hspec _).2 h c hc⟩
  obtain ⟨n, c, hn, hc, hall, he⟩ := exists_shortestFrom_eq hlast
  refine ⟨n, c, hn, (hspec _).1 c hc, fun i hi hlt => (hspec _).2 (hall i hi hlt), ?_⟩
  rw [shortestDigits, if_neg hm.ne']
  exact he

/-- A number that rounds to the double leads to one on the grid with as many digits, which is no
coarser than the first grid that represents the double. -/
theorem exists_attracts_grid (hd : d.isFinite = true) (hm : 0 < d.significand) {n N q : Nat}
    {k : Int} (hfirst : ∀ i : Nat, 0 < i → i < n → ∀ c : Nat, ¬d.Attracts (c * 10 ^ (d.pointOf - i)))
    (hN : 0 < N) (hq : q < 10 ^ N) (hattracts : d.Attracts (q * 10 ^ k)) :
    n ≤ N ∧ ∃ c : Nat, d.Attracts (c * 10 ^ (d.pointOf - N)) ∧
      |(c * 10 ^ (d.pointOf - N) - d.absValue : ℚ)| ≤ |q * 10 ^ k - d.absValue| := by
  obtain ⟨c, hc⟩ := exists_mem_uIcc (k := k) hN hq (ten_zpow_pointOf_le hd hm)
  have hattracts' := hattracts.of_mem_uIcc hc
  exact ⟨not_lt.1 fun hlt => hfirst N hN hlt c hattracts', c, hattracts',
    abs_sub_le_of_mem_uIcc hc⟩

/-- The shortest digits are as many as the first grid has that represents the double. -/
theorem exists_isBestOnGrid_shortestDigits (hd : d.isFinite = true) (hm : 0 < d.significand) :
    ∃ c : Nat, d.IsBestOnGrid (d.pointOf - d.shortestDigits.digits.length) c ∧
      d.shortestDigits.value = c * 10 ^ (d.pointOf - d.shortestDigits.digits.length) ∧
      ∀ i : Nat, 0 < i → i < d.shortestDigits.digits.length →
        ∀ c : Nat, ¬d.Attracts (c * 10 ^ (d.pointOf - i)) := by
  obtain ⟨n, c, hn, hbest, hfirst, hx⟩ := exists_shortestDigits_eq hd hm
  have hvalue : d.shortestDigits.value = c * 10 ^ (d.pointOf - n) := by
    rw [hx, Decimal.value_ofScaled]
  have hlength : d.shortestDigits.digits.length = n := by
    refine Nat.le_antisymm ?_ ?_
    · rw [hx]
      exact Decimal.length_ofScaled_le hn (hbest.le_ten_pow (lt_ten_zpow_pointOf hd hm)) _
    · -- without the zeros at the end the digits are still a number that rounds to the double
      have hpos := List.length_pos_iff.2 (isNormal_shortestDigits hd).ne_nil
      have hlt : d.shortestDigits.coefficient < 10 ^ d.shortestDigits.digits.length := by
        rw [hx]
        exact Decimal.coefficient_ofScaled_lt c _
      have hattracts := hbest.attracts
      rw [← hvalue, ← Decimal.coefficient_mul] at hattracts
      exact (exists_attracts_grid hd hm hfirst hpos hlt hattracts).1
  rw [hlength]
  exact ⟨c, hbest, hvalue, hfirst⟩

theorem attracts_shortestDigits (hd : d.isFinite = true) (hm : 0 < d.significand) :
    d.Attracts d.shortestDigits.value := by
  obtain ⟨c, hbest, hvalue, -⟩ := exists_isBestOnGrid_shortestDigits hd hm
  rw [hvalue]
  exact hbest.attracts

/-- The shortest digits read back as the double. No other number that does has fewer digits, and
none with as many digits is nearer to the double. -/
theorem shortestDigits_spec (hd : d.isFinite = true) :
    let x := d.shortestDigits
    ofDecimal d.isNegative x.coefficient x.exponent = d ∧
      (∀ (n q : Nat) (k : Int), 0 < n → q < 10 ^ n → ofDecimal d.isNegative q k = d →
        x.digits.length ≤ n) ∧
      ∀ (q : Nat) (k : Int), q < 10 ^ x.digits.length → ofDecimal d.isNegative q k = d →
        |x.value - d.absValue| ≤ |q * 10 ^ k - d.absValue| := by
  intro x
  by_cases hm : d.significand = 0
  · have hx : x = .zero := if_pos hm
    rw [hx, absValue, hm, Nat.cast_zero, zero_mul, Decimal.value_zero]
    refine ⟨((significand_eq_zero_iff d).1 hm).symm, fun n _ _ hn _ _ => hn, fun q k _ _ => ?_⟩
    rw [sub_zero, abs_zero]
    exact abs_nonneg _
  · have hm' : 0 < d.significand := Nat.pos_of_ne_zero hm
    have hpos : 0 < x.digits.length := List.length_pos_iff.2 (isNormal_shortestDigits hd).ne_nil
    obtain ⟨c, hbest, hvalue, hfirst⟩ := exists_isBestOnGrid_shortestDigits hd hm'
    refine ⟨?_, fun n q k hn hq h => ?_, fun q k hq h => ?_⟩
    · rw [ofDecimal_eq_iff hd hm', Decimal.coefficient_mul]
      exact attracts_shortestDigits hd hm'
    · rw [ofDecimal_eq_iff hd hm'] at h
      exact (exists_attracts_grid hd hm' hfirst hn hq h).1
    · rw [ofDecimal_eq_iff hd hm'] at h
      obtain ⟨-, c', hc', hle⟩ := exists_attracts_grid hd hm' hfirst hpos hq h
      rw [hvalue]
      exact (hbest.abs_sub_le c' hc').trans hle

/-- The value is a whole number, or a multiple of the power of ten with its negative exponent. -/
theorem exists_mul_ten_zpow_eq (d : Double) :
    ∃ i : Nat, (i * 10 ^ min d.exponent 0 : ℚ) = d.absValue := by
  obtain he | he := Int.le_total d.exponent 0
  · obtain ⟨n, hn⟩ : ∃ n : Nat, d.exponent = -n := ⟨(-d.exponent).toNat, by omega⟩
    refine ⟨d.significand * 5 ^ n, ?_⟩
    rw [absValue, min_eq_left he, hn, zpow_neg, zpow_neg, zpow_natCast, zpow_natCast,
      show (10 : ℚ) = 5 * 2 by norm_num, mul_pow]
    push_cast
    field_simp
  · obtain ⟨n, hn⟩ := Int.eq_ofNat_of_zero_le he
    refine ⟨d.significand * 2 ^ n, ?_⟩
    rw [absValue, min_eq_right he, hn, zpow_zero, mul_one, zpow_natCast]
    push_cast
    rfl

/-- The exponent of the last of a number of significant digits. -/
def lastPlace (d : Double) (n : Nat) : Int := max (d.pointOf - n) (min d.exponent 0)

/-- The value is rounded to a multiple of the power of ten. -/
theorem exists_significantDigits_eq (hm : 0 < d.significand) (n : Nat) :
    ∃ c : Nat, d.significantDigits n = .ofScaled c (d.lastPlace n) ∧
      ∀ i : Nat, |(c * 10 ^ d.lastPlace n - d.absValue : ℚ)| ≤
        |(i * 10 ^ d.lastPlace n - d.absValue : ℚ)| := by
  have hvalue : ((ratio d.significand d.exponent).1 / (ratio d.significand d.exponent).2 : ℚ) =
      d.absValue := ratio_div _ _
  have hden := ratio_snd_pos d.significand d.exponent
  rw [significantDigits, if_neg hm.ne', lastPlace, pointOf]
  generalize ratio d.significand d.exponent = r at hvalue hden
  obtain ⟨num, den⟩ := r
  refine ⟨_, rfl, fun i => ?_⟩
  rw [← hvalue]
  exact abs_roundHalfEven_scaleDown_sub_le (by decide) hden _ i

/-- No more than the significant digits asked for are kept, and no number with as few digits is
nearer to the double. -/
theorem significantDigits_spec (hd : d.isFinite = true) {n : Nat} (hn : 0 < n) :
    let x := d.significantDigits n
    x.digits.length ≤ n ∧ ∀ (q : Nat) (k : Int), q < 10 ^ n →
      |x.value - d.absValue| ≤ |q * 10 ^ k - d.absValue| := by
  intro x
  by_cases hm : d.significand = 0
  · have hx : x = .zero := if_pos hm
    rw [hx, absValue, hm, Nat.cast_zero, zero_mul, Decimal.value_zero]
    refine ⟨hn, fun q k _ => ?_⟩
    rw [sub_zero, abs_zero]
    exact abs_nonneg _
  · have hm' : 0 < d.significand := Nat.pos_of_ne_zero hm
    obtain ⟨c, hx, hnearest⟩ := exists_significantDigits_eq hm' n
    have hlow := ten_zpow_pointOf_le hd hm'
    have hhigh := lt_ten_zpow_pointOf hd hm'
    constructor
    · change (d.significantDigits n).digits.length ≤ n
      rw [hx]
      refine Decimal.length_ofScaled_le hn ?_ _
      refine le_of_abs_sub_le (zpow_pos (by norm_num) (d.lastPlace n)) ?_ (hnearest (10 ^ n))
      calc d.absValue
          ≤ ((10 ^ n : Nat) : ℚ) * 10 ^ (d.pointOf - n) :=
            hhigh.le.trans_eq (ten_pow_mul_ten_zpow n _).symm
        _ ≤ ((10 ^ n : Nat) : ℚ) * 10 ^ d.lastPlace n :=
            mul_le_mul_of_nonneg_left
              (zpow_le_zpow_right₀ (by norm_num) (le_max_left _ _)) (by positivity)
    · intro q k hq
      change |(d.significantDigits n).value - d.absValue| ≤ _
      rw [hx, Decimal.value_ofScaled]
      obtain hlast | hlast := max_choice (d.pointOf - n) (min d.exponent 0)
      · obtain ⟨i, hi⟩ := exists_mem_uIcc (k := k) hn hq hlow
        rw [← hlast] at hi
        exact (hnearest i).trans (abs_sub_le_of_mem_uIcc hi)
      · -- the value itself stands on the grid
        obtain ⟨i, hi⟩ := d.exists_mul_ten_zpow_eq
        rw [← hlast] at hi
        refine ((hnearest i).trans_eq ?_).trans (abs_nonneg _)
        rw [lastPlace, hi, sub_self, abs_zero]

/-- A numeral with the sign of a double and the number of its shortest digits reads back as it. -/
theorem double_eq_of_value_eq (hd : d.isFinite = true) {f : Form}
    (hsign : f.sign.isNegative = d.isNegative)
    (hvalue : f.value = (if d.isNegative then -1 else 1) * d.shortestDigits.value) :
    f.double = d := by
  have habs : (f.coefficient * 10 ^ f.scale : ℚ) = d.shortestDigits.value := by
    rw [Form.value, hsign, mul_assoc] at hvalue
    exact mul_left_cancel₀ (by split <;> norm_num) hvalue
  rw [Form.double, hsign]
  by_cases hm : d.significand = 0
  · have hx : d.shortestDigits = .zero := if_pos hm
    rw [hx, Decimal.value_zero, mul_eq_zero_iff_right (by positivity), Nat.cast_eq_zero] at habs
    rw [habs]
    exact ((significand_eq_zero_iff d).1 hm).symm
  · have hm' : 0 < d.significand := Nat.pos_of_ne_zero hm
    rw [ofDecimal_eq_iff hd hm', habs]
    exact attracts_shortestDigits hd hm'

/-- A text that begins with a digit is negative just if the double is. -/
theorem isNegative_of_text_eq {f : Form} {c : Char} {cs : List Char} (hc : c.isDigit = true)
    (h : f.text = encode (d.withSign (c :: cs))) : f.sign.isNegative = d.isNegative := by
  have hsign := f.splitSign_text []
  rw [List.append_nil, List.append_nil, h, withSign] at hsign
  cases hnegative : d.isNegative with
  | true =>
    rw [hnegative] at hsign
    exact (congrArg Prod.fst hsign).symm
  | false =>
    obtain ⟨b, hb, -, he⟩ := Numeral.exists_encode_cons_eq hc cs
    rw [hnegative, if_neg Bool.false_ne_true, he, Numeral.splitSign_of_isDigit hb] at hsign
    exact (congrArg Prod.fst hsign).symm

theorem readDouble?_withSign (hd : d.isFinite = true) {text : List Char}
    (hdigit : ∃ c cs, text = c :: cs ∧ c.isDigit = true)
    (hform : ∀ sign : Sign, ∃ f : Form, f.text = sign.text ++ encode text ∧
      f.value = (if sign.isNegative then -1 else 1) * d.shortestDigits.value) :
    Numeral.readDouble? (encode (d.withSign text)) = some d := by
  obtain ⟨c, cs, rfl, hc⟩ := hdigit
  obtain ⟨f, htext, hvalue⟩ := hform (if d.isNegative then .minus else .none)
  have htext' : f.text = encode (d.withSign (c :: cs)) := by
    rw [htext, withSign]
    cases d.isNegative <;> rfl
  have hvalue' : f.value = (if d.isNegative then -1 else 1) * d.shortestDigits.value := by
    rw [hvalue]
    cases d.isNegative <;> rfl
  rw [← htext', f.readDouble?_text,
    double_eq_of_value_eq hd (isNegative_of_text_eq hc htext') hvalue']

/-- The texts of a finite double with the shortest digits read back as the double. -/
theorem readDouble?_formatShortest (hd : d.isFinite = true) {mark : Char}
    (hmark : mark = 'E' ∨ mark = 'e') :
    Numeral.readDouble? (encode (d.formatShortest mark)) = some d := by
  have hx := isNormal_shortestDigits hd
  rw [formatShortest_eq hd]
  exact readDouble?_withSign hd (hx.exists_layout_eq_cons 17 mark)
    fun sign => hx.exists_form_layout sign 17 hmark

theorem readDouble?_formatPositional (hd : d.isFinite = true) :
    Numeral.readDouble? (encode d.formatPositional) = some d := by
  have hx := isNormal_shortestDigits hd
  rw [formatPositional, if_pos hd]
  exact readDouble?_withSign hd hx.exists_positional_eq_cons hx.exists_form_positional

end Double

end ObjectModel
