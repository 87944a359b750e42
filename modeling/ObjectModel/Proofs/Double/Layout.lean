import Mathlib.Tactic.FieldSimp
import ObjectModel.Double.Layout
import ObjectModel.Proofs.Double.Digits
import ObjectModel.Proofs.Numeral.Scanning
/-!
# The written form of a double

The digits and the decimal point of a double are read off scientific notation as they were put
there, and laying them out does not change the number. In each layout the digits before and behind
the point, put in a row, are the significant digits between zeros. The zeros before them do not
count, and those behind them multiply the number by a power of ten, which the number of digits
behind the point and the exponent make up for.
-/

namespace ObjectModel

open Bytes.Utf8 (encode)
open Numeral (Sign Exponent Form fractionText exponentText)

namespace Decimal

theorem isDigit_of_mem_zeros {n : Nat} : ∀ c ∈ List.replicate n '0', c.isDigit = true := by
  intro c hc
  rw [List.eq_of_mem_replicate hc]
  rfl

section Rendering

variable {ds : List Char} (hds : ∀ c ∈ ds, c.isDigit = true)

include hds

/-- The digits stay when the point is taken away. -/
theorem filter_mantissa :
    (ds.take 1 ++ if ds.length ≤ 1 then [] else '.' :: ds.drop 1).filter Char.isDigit = ds := by
  have hfilter : ds.filter Char.isDigit = ds := List.filter_eq_self.2 hds
  split
  next h => rwa [List.append_nil, List.take_of_length_le h]
  next =>
    rw [List.filter_append, List.filter_cons_of_neg (by decide), ← List.filter_append,
      List.take_append_drop, hfilter]

theorem ne_mark_of_mem_mantissa :
    ∀ c ∈ ds.take 1 ++ if ds.length ≤ 1 then [] else '.' :: ds.drop 1, (c != 'e') = true := by
  have hne {c : Char} (hc : c ∈ ds) : (c != 'e') = true := by
    rw [bne_iff_ne]
    rintro rfl
    exact absurd (hds _ hc) (by decide)
  intro c hc
  rw [List.mem_append] at hc
  obtain hc | hc := hc
  · exact hne (List.mem_of_mem_take hc)
  · split at hc
    · cases hc
    · rw [List.mem_cons] at hc
      obtain rfl | hc := hc
      · rfl
      · exact hne (List.mem_of_mem_drop hc)

end Rendering

/-- Zeros behind the digits of a decimal are dropped, and no others. -/
theorem IsNormal.dropZeros_append {x : Decimal} (hx : x.IsNormal) (n : Nat) :
    dropZeros (x.digits ++ List.replicate n '0') = x.digits := by
  obtain ⟨d, ds, hd⟩ := List.exists_cons_of_ne_nil hx.ne_nil
  have hself : ds.rdropWhile (· == '0') = ds := by
    refine List.rdropWhile_eq_self_iff.2 fun hne hlast => ?_
    obtain hzero | ⟨-, hx⟩ := hx.eq_zero_or
    · rw [hzero, zero] at hd
      exact hne (List.cons.inj hd).2.symm
    · rw [hd, List.getLast?_cons_of_ne_nil hne, List.getLast?_eq_getLast_of_ne_nil hne] at hx
      exact hx (congrArg some (beq_iff_eq.1 hlast))
  rw [hd, List.cons_append, dropZeros, List.reverse_append, List.reverse_replicate,
    List.dropWhile_append_of_pos]
  · exact congrArg (d :: ·) hself
  · intro c hc
    rw [List.eq_of_mem_replicate hc]
    rfl

/-- What scientific notation shows is read off again. -/
theorem IsNormal.ofRendering_rendering {x : Decimal} (hx : x.IsNormal) (n : Nat) :
    ofRendering (x.rendering n) = x := by
  have hzeros := hx.dropZeros_append (n - x.digits.length)
  have hdigits : ∀ c ∈ x.digits ++ List.replicate (n - x.digits.length) '0',
      c.isDigit = true :=
    List.forall_mem_append.2 ⟨hx.areDigits, isDigit_of_mem_zeros⟩
  have hhead (exponent : List Char) : ∀ c ∈ ('e' :: exponent).head?, (c != 'e') = false := by
    rintro c ⟨⟩
    rfl
  rw [rendering, ofRendering]
  generalize x.digits ++ List.replicate (n - x.digits.length) '0' = digits at hzeros hdigits
  have hmark := ne_mark_of_mem_mantissa hdigits
  rw [Numeral.takeWhile_append_of_head? hmark (hhead _),
    Numeral.dropWhile_append_of_head? hmark (hhead _), filter_mantissa hdigits, hzeros]
  split
  next h =>
    obtain hzero | ⟨hne, -⟩ := hx.eq_zero_or
    · exact hzero.symm
    · exact absurd (by rw [h]; rfl) hne
  next =>
    have hread : Numeral.readInteger? (Bytes.ofString (String.ofList (decimalText (x.point - 1)))) =
        some (x.point - 1) := by
      rw [Bytes.ofString, String.toList_ofList]
      exact Numeral.readInteger?_decimalText _
    rw [List.drop_one, List.tail_cons, hread, Option.getD_some, Int.sub_add_cancel]

/-- The number `0.d₁d₂…dₙ · 10 ^ point`. -/
def value (x : Decimal) : ℚ :=
  Nat.ofDigitChars 10 x.digits 0 / 10 ^ x.digits.length * 10 ^ x.point

/-- Zeros around the digits do not change the number if the power of ten makes up for those behind
them. -/
theorem ofDigitChars_mul_eq_value (x : Decimal) {before after : Nat} {row : List Char}
    {scale : Int}
    (hrow : row = List.replicate before '0' ++ x.digits ++ List.replicate after '0')
    (hscale : scale = x.point - x.digits.length - after) :
    (Nat.ofDigitChars 10 row 0 : ℚ) * 10 ^ scale = x.value := by
  have hten : (10 : ℚ) ≠ 0 := by norm_num
  rw [hrow, Nat.ofDigitChars_append, Nat.ofDigitChars_append, Nat.ofDigitChars_replicate_zero,
    Nat.ofDigitChars_replicate_zero, Nat.mul_zero, Nat.cast_mul, Nat.cast_pow, hscale,
    zpow_sub₀ hten, zpow_sub₀ hten, zpow_natCast, zpow_natCast, value, Nat.cast_ofNat]
  field_simp

/-- A numeral whose digits, put in a row, are those of a decimal between zeros, has the number of the
decimal if its power of ten makes up for the zeros behind them. -/
theorem IsNormal.exists_form {x : Decimal} (hx : x.IsNormal) (sign : Sign) (whole : List Char)
    (fraction? : Option (List Char)) (exponent? : Option Exponent) (before after : Nat)
    (hne : whole ≠ [])
    (hrow : whole ++ fraction?.getD [] =
      List.replicate before '0' ++ x.digits ++ List.replicate after '0')
    (hscale : (exponent?.map Exponent.value).getD 0 - (fraction?.getD []).length =
      x.point - x.digits.length - after) :
    ∃ f : Form,
      f.text = sign.text ++ (encode whole ++
        (fractionText (fraction?.map encode) ++ exponentText exponent?)) ∧
      f.value = (if sign.isNegative then -1 else 1) * x.value := by
  have hdigits : ∀ c ∈ whole ++ fraction?.getD [], c.isDigit = true := by
    rw [hrow, List.forall_mem_append, List.forall_mem_append]
    exact ⟨⟨isDigit_of_mem_zeros, hx.areDigits⟩, isDigit_of_mem_zeros⟩
  have hvalue := x.ofDigitChars_mul_eq_value hrow hscale
  obtain ⟨hwhole, hfraction⟩ := List.forall_mem_append.1 hdigits
  have hfraction' : ∀ ds ∈ fraction?, ∀ c ∈ ds, c.isDigit = true := by
    rintro ds ⟨⟩
    exact hfraction
  have hencode : encode whole ++ (fraction?.map encode).getD [] =
      encode (whole ++ fraction?.getD []) := by
    rw [Bytes.Utf8.encode_append]
    cases fraction? <;> rfl
  have hlength : ((fraction?.map encode).getD []).length = (fraction?.getD []).length := by
    cases fraction? with
    | none => rfl
    | some ds => exact Numeral.length_encode hfraction
  have hne' : encode whole ≠ [] := by
    rwa [← List.length_pos_iff, Numeral.length_encode hwhole, List.length_pos_iff]
  refine ⟨⟨sign, encode whole, fraction?.map encode, exponent?,
    Numeral.isDigit_of_mem_encode hwhole, fun bs hbs => ?_,
    List.append_ne_nil_of_left_ne_nil hne' _⟩, rfl, ?_⟩
  · obtain ⟨ds, hds, rfl⟩ := Option.mem_map.1 hbs
    exact Numeral.isDigit_of_mem_encode (hfraction' ds hds)
  · rw [Form.value, Form.coefficient, Form.scale, hencode, hlength,
      Numeral.digitsValue_encode hdigits, mul_assoc, hvalue]

theorem IsNormal.exists_form_positional {x : Decimal} (hx : x.IsNormal) (sign : Sign) :
    ∃ f : Form, f.text = sign.text ++ encode x.positional ∧
      f.value = (if sign.isNegative then -1 else 1) * x.value := by
  rw [positional]
  split
  next h =>
    -- the zero before the point and those behind it come before the digits
    obtain ⟨f, htext, hvalue⟩ := hx.exists_form sign ['0']
      (some (List.replicate (-x.point).toNat '0' ++ x.digits)) none ((-x.point).toNat + 1) 0
      (List.cons_ne_nil _ _)
      (by rw [List.replicate_succ, List.replicate_zero, List.append_nil]; rfl)
      (by
        rw [Option.map_none, Option.getD_none, Option.getD_some, List.length_append,
          List.length_replicate]
        omega)
    rw [exponentText, List.append_nil] at htext
    exact ⟨f, htext, hvalue⟩
  next h =>
    dsimp only
    split
    next hle =>
      obtain ⟨f, htext, hvalue⟩ := hx.exists_form sign
        (x.digits ++ List.replicate (x.point.toNat - x.digits.length) '0') none none 0
        (x.point.toNat - x.digits.length) (List.append_ne_nil_of_left_ne_nil hx.ne_nil _)
        (List.append_nil _)
        (by
          rw [Option.map_none, Option.getD_none, Option.getD_none, List.length_nil]
          omega)
      rw [exponentText, Option.map_none, fractionText, List.append_nil, List.append_nil] at htext
      exact ⟨f, htext, hvalue⟩
    next hlt =>
      have hne : x.digits.take x.point.toNat ≠ [] := by
        rw [ne_eq, List.take_eq_nil_iff]
        exact not_or.2 ⟨by omega, hx.ne_nil⟩
      obtain ⟨f, htext, hvalue⟩ := hx.exists_form sign (x.digits.take x.point.toNat)
        (some (x.digits.drop x.point.toNat)) none 0 0 hne
        (by rw [Option.getD_some, List.take_append_drop, List.replicate_zero, List.append_nil]; rfl)
        (by
          rw [Option.map_none, Option.getD_none, Option.getD_some, List.length_drop]
          omega)
      rw [exponentText, List.append_nil] at htext
      rw [Bytes.Utf8.encode_append]
      exact ⟨f, htext, hvalue⟩

/-- An exponent is written with its sign. -/
theorem exists_exponent_text {mark : Char} (hmark : mark = 'E' ∨ mark = 'e') (i : Int) :
    ∃ e : Exponent,
      e.text = encode (mark :: (if i < 0 then '-' else '+') :: Nat.toDigits 10 i.natAbs) ∧
        e.value = i := by
  obtain ⟨b, hb, hencode⟩ :
      ∃ b, (b = 0x45 ∨ b = 0x65) ∧ ∀ cs, encode (mark :: cs) = b :: encode cs := by
    obtain rfl | rfl := hmark
    · exact ⟨0x45, .inl rfl, fun _ => rfl⟩
    · exact ⟨0x65, .inr rfl, fun _ => rfl⟩
  have hne : Numeral.digitBytes i.natAbs ≠ [] := by
    obtain ⟨d, ds, he⟩ := Numeral.exists_digitBytes_eq i.natAbs
    exact he ▸ List.cons_ne_nil d ds
  refine ⟨⟨b, if i < 0 then .minus else .plus, Numeral.digitBytes i.natAbs, hb,
    fun _ => Numeral.isDigit_of_mem_digitBytes, hne⟩, ?_, ?_⟩
  · rw [hencode, Exponent.text]
    split <;> rfl
  · rw [Exponent.value, Numeral.digitsValue_digitBytes]
    split
    next h =>
      change -(i.natAbs : Int) = i
      omega
    next h =>
      change (i.natAbs : Int) = i
      omega

theorem IsNormal.exists_form_scientific {x : Decimal} (hx : x.IsNormal) (sign : Sign) {mark : Char}
    (hmark : mark = 'E' ∨ mark = 'e') :
    ∃ f : Form, f.text = sign.text ++ encode (x.scientific mark) ∧
      f.value = (if sign.isNegative then -1 else 1) * x.value := by
  obtain ⟨e, hexponent, he⟩ := exists_exponent_text hmark (x.point - 1)
  have hlength := List.length_pos_iff.2 hx.ne_nil
  have hne : x.digits.take 1 ≠ [] := by
    rw [ne_eq, List.take_eq_nil_iff]
    exact not_or.2 ⟨Nat.one_ne_zero, hx.ne_nil⟩
  -- a single digit is followed by a zero behind the point
  obtain ⟨after, hrow, hscale⟩ : ∃ after,
      x.digits.take 1 ++ (if x.digits.length ≤ 1 then ['0'] else x.digits.drop 1) =
        x.digits ++ List.replicate after '0' ∧
      ((if x.digits.length ≤ 1 then ['0'] else x.digits.drop 1).length : Int) + 1 =
        x.digits.length + after := by
    split
    next h =>
      refine ⟨1, by rw [List.take_of_length_le h]; rfl, ?_⟩
      rw [List.length_singleton]
      omega
    next h =>
      refine ⟨0, by rw [List.take_append_drop]; exact (List.append_nil _).symm, ?_⟩
      rw [List.length_drop]
      omega
  rw [scientific]
  generalize (if x.digits.length ≤ 1 then ['0'] else x.digits.drop 1) = fraction at hrow hscale
  obtain ⟨f, htext, hvalue⟩ := hx.exists_form sign (x.digits.take 1) (some fraction) (some e) 0
    after hne hrow (by
      rw [Option.map_some, Option.getD_some, Option.getD_some, he]
      omega)
  refine ⟨f, ?_, hvalue⟩
  rw [htext, Bytes.Utf8.encode_append, Bytes.Utf8.encode_append, exponentText, hexponent,
    List.append_assoc]
  rfl

theorem IsNormal.exists_form_layout {x : Decimal} (hx : x.IsNormal) (sign : Sign) (threshold : Int)
    {mark : Char} (hmark : mark = 'E' ∨ mark = 'e') :
    ∃ f : Form, f.text = sign.text ++ encode (x.layout threshold mark) ∧
      f.value = (if sign.isNegative then -1 else 1) * x.value := by
  rw [layout]
  split
  · exact hx.exists_form_scientific sign hmark
  · exact hx.exists_form_positional sign

/-- Each layout begins with a digit. -/
theorem IsNormal.exists_positional_eq_cons {x : Decimal} (hx : x.IsNormal) :
    ∃ c cs, x.positional = c :: cs ∧ c.isDigit = true := by
  obtain ⟨d, ds, hd⟩ := List.exists_cons_of_ne_nil hx.ne_nil
  have hdigit : d.isDigit = true := hx.areDigits d (hd ▸ List.mem_cons_self)
  rw [positional, hd]
  split
  · exact ⟨'0', _, rfl, rfl⟩
  next h =>
    obtain ⟨whole, hwhole⟩ : ∃ whole, x.point.toNat = whole + 1 := ⟨x.point.toNat - 1, by omega⟩
    dsimp only
    rw [hwhole]
    split <;> exact ⟨d, _, rfl, hdigit⟩

theorem IsNormal.exists_layout_eq_cons {x : Decimal} (hx : x.IsNormal) (threshold : Int)
    (mark : Char) : ∃ c cs, x.layout threshold mark = c :: cs ∧ c.isDigit = true := by
  rw [layout]
  split
  · obtain ⟨d, ds, hd⟩ := List.exists_cons_of_ne_nil hx.ne_nil
    rw [scientific, hd]
    exact ⟨d, _, rfl, hx.areDigits d (hd ▸ List.mem_cons_self)⟩
  · exact hx.exists_positional_eq_cons

theorem IsNormal.isDigit_or_of_mem_positional {x : Decimal} (hx : x.IsNormal) :
    ∀ c ∈ x.positional, c.isDigit = true ∨ c = '.' := by
  rw [positional]
  split
  · rw [List.cons_append, List.cons_append, List.forall_mem_cons, List.forall_mem_cons,
      List.forall_mem_append]
    exact ⟨.inl rfl, .inr rfl, fun c hc => .inl (isDigit_of_mem_zeros c hc),
      fun c hc => .inl (hx.areDigits c hc)⟩
  · dsimp only
    split
    · rw [List.forall_mem_append]
      exact ⟨fun c hc => .inl (hx.areDigits c hc), fun c hc => .inl (isDigit_of_mem_zeros c hc)⟩
    · rw [List.forall_mem_append, List.forall_mem_cons]
      exact ⟨fun c hc => .inl (hx.areDigits c (List.mem_of_mem_take hc)), .inr rfl,
        fun c hc => .inl (hx.areDigits c (List.mem_of_mem_drop hc))⟩

/-- The mark of an exponent stands in scientific notation only. -/
theorem IsNormal.mem_layout_iff {x : Decimal} (hx : x.IsNormal) (threshold : Int) {mark : Char}
    (hmark : mark = 'E' ∨ mark = 'e') :
    mark ∈ x.layout threshold mark ↔ x.point < -3 ∨ threshold < x.point := by
  have hpositional : mark ∉ x.positional := by
    intro hmem
    have h := hx.isDigit_or_of_mem_positional mark hmem
    obtain rfl | rfl := hmark <;> exact absurd h (by decide)
  have hscientific : mark ∈ x.scientific mark :=
    List.mem_append_right _ List.mem_cons_self
  rw [layout]
  split
  next h =>
    rw [Bool.or_eq_true, decide_eq_true_iff, decide_eq_true_iff] at h
    exact iff_of_true hscientific h
  next h =>
    rw [Bool.or_eq_true, decide_eq_true_iff, decide_eq_true_iff] at h
    exact iff_of_false hpositional h

end Decimal

namespace Double

/-- Whether a text shows a decimal with the sign of a double: it is a numeral and denotes just that
number, the scanner takes it as a whole, and it has an exponent just if the decimal point stands far
before the digits or beyond the threshold. -/
structure Shows (d : Double) (x : Decimal) (threshold : Int) (mark : Char) (text : List Char) :
    Prop where
  exists_form : ∃ f : Form, f.text = encode text
  value_eq : ∀ f : Form, f.text = encode text →
    f.value = (if d.isNegative then -1 else 1) * x.value
  minus_iff : text.head? = some '-' ↔ d.isNegative = true
  isNumeric : Numeral.isNumeric (encode text) = true
  mark_mem_iff : mark ∈ text ↔ x.point < -3 ∨ threshold < x.point

theorem shows_layout (d : Double) {x : Decimal} (hx : x.IsNormal) (threshold : Int) {mark : Char}
    (hmark : mark = 'E' ∨ mark = 'e') :
    d.Shows x threshold mark (d.withSign (x.layout threshold mark)) := by
  obtain ⟨f, htext, hvalue⟩ := hx.exists_form_layout (if d.isNegative then .minus else .none)
    threshold hmark
  have hwithSign : f.text = encode (d.withSign (x.layout threshold mark)) := by
    rw [htext, withSign]
    cases d.isNegative <;> rfl
  obtain ⟨c, cs, hcons, hc⟩ := hx.exists_layout_eq_cons threshold mark
  refine ⟨⟨f, hwithSign⟩, fun g hg => ?_, ?_, ?_, ?_⟩
  · rw [Form.value_eq_of_text_eq (hg.trans hwithSign.symm), hvalue]
    cases d.isNegative <;> rfl
  · rw [withSign, hcons]
    cases d.isNegative with
    | true => exact iff_of_true rfl rfl
    | false =>
      refine iff_of_false (fun h => ?_) Bool.false_ne_true
      rw [Option.some_inj.1 h] at hc
      exact absurd hc (by decide)
  · rw [← hwithSign, Numeral.isNumeric, Numeral.scan?_text]
    rfl
  · rw [← hx.mem_layout_iff threshold hmark, withSign]
    cases d.isNegative with
    | true =>
      refine List.mem_cons.trans (or_iff_right ?_)
      obtain rfl | rfl := hmark <;> decide
    | false => exact Iff.rfl

/-- A finite double is laid out as its rendering is read, to one digit or more. -/
theorem written_eq {d : Double} (hd : d.isFinite = true) {precision? : Option Nat}
    (hp : ∀ p ∈ precision?, 0 < p) (mark : Char) :
    d.written precision? mark =
      d.withSign ((Decimal.ofRendering (d.rendering precision?)).layout (precision?.getD 17)
        mark) := by
  have hmax : precision?.map (max · 1) = precision? := by
    cases precision? with
    | none => rfl
    | some p => exact congrArg some (max_eq_left (hp p rfl))
  rw [written, if_pos hd, hmax]

theorem formatShortest_eq {d : Double} (hd : d.isFinite = true) (mark : Char) :
    d.formatShortest mark = d.withSign (d.shortestDigits.layout 17 mark) := by
  have hread : Decimal.ofRendering (d.rendering none) = d.shortestDigits :=
    (isNormal_shortestDigits hd).ofRendering_rendering 1
  have hnone : ∀ p ∈ (none : Option Nat), 0 < p := by simp
  rw [formatShortest, written_eq hd hnone, hread]
  rfl

/-- The text of a finite double shows the decimal whose digits and decimal point its rendering has:
to a given number of significant digits, or with the fewest that read back as the double. -/
theorem format_shows_rendering {d : Double} (hd : d.isFinite = true) :
    (∀ precision : Nat, 0 < precision →
      let x := d.significantDigits precision
      x.IsNormal ∧ d.rendering (some precision) = x.rendering precision ∧
        d.Shows x precision 'E' (d.format precision)) ∧
    ∀ mark, mark = 'E' ∨ mark = 'e' →
      let x := d.shortestDigits
      x.IsNormal ∧ d.rendering none = x.rendering 1 ∧
        d.Shows x 17 mark (d.formatShortest mark) := by
  refine ⟨fun precision hp => ?_, fun mark hmark => ?_⟩
  · have hx := isNormal_significantDigits hd hp
    have hread : Decimal.ofRendering (d.rendering (some precision)) =
        d.significantDigits precision := hx.ofRendering_rendering precision
    refine ⟨hx, rfl, ?_⟩
    rw [format, written_eq hd fun _ h => Option.some_inj.1 h ▸ hp, hread]
    exact d.shows_layout hx precision (.inl rfl)
  · have hx := isNormal_shortestDigits hd
    refine ⟨hx, rfl, ?_⟩
    rw [formatShortest_eq hd]
    exact d.shows_layout hx 17 hmark

/-- A number below a ten-thousandth takes an exponent, however few digits it has. -/
theorem format_shows_rendering_below_threshold :
    let d := ofDecimal true 1 (-5)
    d.isFinite = true ∧ d.format 14 = "-1.0E-5".toList ∧
      d.Shows (d.significantDigits 14) 14 'E' "-1.0E-5".toList ∧
      d.Shows d.shortestDigits 17 'e' (d.formatShortest 'e') := by
  intro d
  have hd : d.isFinite = true := by decide +kernel
  have htext : d.format 14 = "-1.0E-5".toList := by decide +kernel
  obtain ⟨hformat, hshortest⟩ := format_shows_rendering hd
  refine ⟨hd, htext, ?_, (hshortest 'e' (.inr rfl)).2.2⟩
  rw [← htext]
  exact (hformat 14 (by decide)).2.2

end Double

end ObjectModel
