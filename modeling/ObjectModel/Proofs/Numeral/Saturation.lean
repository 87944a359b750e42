import ObjectModel.Proofs.Numeral.Scanning
/-!
# Integers at the start of a string

The integer at the start of a string is read digit by digit, and each product and sum stops at the
end of the machine word. The steps have one direction, so what is read in the end is the integer
that all digits denote, clamped once. Together with the scanner's longest numeral this makes the three
readers of integers agree.
-/

namespace ObjectModel.Numeral

open Bytes (isDigit isBlank)
open Bytes.Utf8 (encode)

/-- The machine integer nearest to an integer. -/
def clamp (i : Int) : Int := max (-0x8000000000000000) (min i 0x7FFFFFFFFFFFFFFF)

theorem toInt_ofIntClamp (i : Int) : (Int64.ofIntClamp i).toInt = clamp i := by
  have hmin : Int64.minValue.toInt = -0x8000000000000000 := by decide
  have hmax : Int64.maxValue.toInt = 0x7FFFFFFFFFFFFFFF := by decide
  rw [Int64.ofIntClamp, clamp]
  split
  next hlow =>
    split
    next hhigh =>
      rw [Int64.toInt_ofIntLE]
      omega
    next => omega
  next => omega

theorem clamp_toInt (i : Int64) : clamp i.toInt = i.toInt := by
  have hlow := i.le_toInt
  have hhigh := i.toInt_lt
  rw [clamp]
  omega

/-- One more digit: where the integer so far has been clamped, the next one is. -/
theorem toInt_appendDigit {negative : Bool} {i : Int64} {n : Nat} (b : UInt8)
    (hi : i.toInt = clamp (signed negative n)) :
    (appendDigit negative i b).toInt =
      clamp (signed negative (10 * n + (b.toNat - 0x30))) := by
  rw [appendDigit, toInt_ofIntClamp, toInt_ofIntClamp, hi]
  cases negative with
  | false =>
    simp only [signed, clamp, Bool.false_eq_true, if_false]
    omega
  | true =>
    simp only [signed, clamp, if_true]
    omega

theorem toInt_foldl_appendDigit {negative : Bool} {i : Int64} {n : Nat} (ds : Bytes)
    (hi : i.toInt = clamp (signed negative n)) :
    (ds.foldl (appendDigit negative) i).toInt =
      clamp (signed negative (ds.foldl (fun n b => 10 * n + (b.toNat - 0x30)) n)) := by
  induction ds generalizing i n with
  | nil => exact hi
  | cons b ds ih => exact ih (toInt_appendDigit b hi)

theorem toInt_intPrefix {s t : Bytes} {negative : Bool}
    (hs : splitSign (s.dropWhile isBlank) = (negative, t)) :
    (intPrefix s).toInt = clamp (signed negative (digitsValue (t.takeWhile isDigit))) := by
  rw [intPrefix, hs]
  refine toInt_foldl_appendDigit (t.takeWhile isDigit) ?_
  cases negative <;> decide

/-- Behind an integer at the start of a string no digit is left but those that continue it. -/
theorem Form.IsInteger.splitSign_append {f : Form} (hf : f.IsInteger) {blanks : Bytes}
    (hb : ∀ b ∈ blanks, isBlank b = true) (t : Bytes) :
    splitSign ((blanks ++ f.text ++ t).dropWhile isBlank) = (f.sign.isNegative, f.whole ++ t) := by
  rw [dropWhile_blanks hb, f.splitSign_text, hf.body_eq]

/-- The integer that is read is that of the longest integer at the start of a string. -/
theorem intPrefix_cases (s : Bytes) :
    (∃ (blanks : Bytes) (f : Form), (∀ b ∈ blanks, isBlank b = true) ∧ f.IsInteger ∧
        IsLongest (IsNumeral Form.IsInteger) s (blanks ++ f.text) ∧
        (intPrefix s).toInt = clamp f.integer) ∨
      (¬∃ p, p <+: s ∧ IsNumeral Form.IsInteger p) ∧ intPrefix s = 0 := by
  obtain ⟨sign, t, hsign, hstart⟩ := exists_sign (s.dropWhile isBlank)
  have hvalue := toInt_intPrefix hsign
  by_cases hne : t.takeWhile isDigit = []
  · right
    constructor
    · rintro ⟨p, ⟨u, rfl⟩, blanks, f, hb, hf, rfl⟩
      rw [hf.splitSign_append hb, Prod.mk.injEq] at hsign
      rw [← hsign.2, List.takeWhile_append_of_pos f.areDigits] at hne
      exact hf.whole_ne_nil (List.append_eq_nil_iff.1 hne).1
    · rw [hne] at hvalue
      rw [← Int64.toInt_inj, hvalue]
      cases sign <;> decide
  · left
    let f : Form := ⟨sign, t.takeWhile isDigit, none, none, fun _ hb => List.mem_takeWhile_imp hb,
      nofun, List.append_ne_nil_of_left_ne_nil hne _⟩
    have hf : f.IsInteger := ⟨rfl, rfl⟩
    have hblanks : ∀ b ∈ s.takeWhile isBlank, isBlank b = true := fun _ hb =>
      List.mem_takeWhile_imp hb
    have hs : s.takeWhile isBlank ++ f.text ++ t.dropWhile isDigit = s := by
      rw [Form.text, hf.body_eq, List.append_assoc, List.append_assoc,
        List.takeWhile_append_dropWhile, ← hstart, List.takeWhile_append_dropWhile]
    refine ⟨_, f, hblanks, hf, ⟨⟨_, hs⟩, ⟨_, f, hblanks, hf, rfl⟩, ?_⟩, hvalue⟩
    rintro q ⟨u, hq⟩ ⟨blanks, g, hb, hg, rfl⟩
    -- of what follows the digits of any integer at the start, more digits are taken off
    rw [← hq, hg.splitSign_append hb, Prod.mk.injEq] at hsign
    have hrest : (t.dropWhile isDigit).length ≤ u.length := by
      rw [← hsign.2, List.dropWhile_append_of_pos g.areDigits]
      exact (List.dropWhile_suffix _).length_le
    have hlength := congrArg List.length (hq.trans hs.symm)
    simp only [List.length_append] at hlength ⊢
    omega

def Form.ofInt (i : Int) : Form where
  sign := if i < 0 then .minus else .none
  whole := digitBytes i.natAbs
  fraction? := none
  exponent? := none
  areDigits _ := isDigit_of_mem_digitBytes
  areDigits_fraction := nofun
  hasDigit := by
    obtain ⟨b, bs, he⟩ := exists_digitBytes_eq i.natAbs
    exact List.append_ne_nil_of_left_ne_nil (he ▸ List.cons_ne_nil b bs) _

namespace Form

theorem isInteger_ofInt (i : Int) : (ofInt i).IsInteger := ⟨rfl, rfl⟩

theorem text_ofInt (i : Int) : (ofInt i).text = encode (decimalText i) := by
  rw [text, (isInteger_ofInt i).body_eq, encode_decimalText, ofInt]
  split <;> rfl

theorem integer_ofInt (i : Int) : (ofInt i).integer = i := by
  simp only [integer, ofInt, digitsValue_digitBytes]
  split
  next h =>
    simp only [Sign.isNegative, signed, if_true]
    omega
  next h =>
    simp only [Sign.isNegative, signed, Bool.false_eq_true, if_false]
    omega

theorem number_ofInt (i : Int64) : (ofInt i.toInt).number = .int i := by
  have h := ((ofInt i.toInt).reports []).int_iff i
  exact h.2 ⟨isInteger_ofInt i.toInt, integer_ofInt i.toInt⟩

end Form

/-- An integer that the scanner finds is the one that is read digit by digit: it is the longest
numeral, hence the longest integer. -/
theorem intPrefix_of_scan? {s : Bytes} {r : Scan} {i : Int64} (hr : scan? s = some r)
    (hi : r.value = .int i) : intPrefix s = i := by
  obtain ⟨blanks, f, rest, hb, hs, hlongest, hreports⟩ := exists_reports_of_scan? hr
  obtain ⟨hf, hfi⟩ := (hreports.int_iff i).1 hi
  have hstarts : blanks ++ f.text <+: s := ⟨rest, hs.symm⟩
  obtain ⟨blanks', g, hb', hg, hlongest', hvalue⟩ | ⟨hnone, -⟩ := intPrefix_cases s
  · have hle := hlongest.length_le _ hlongest'.starts ⟨blanks', g, hb', trivial, rfl⟩
    have hle' := hlongest'.length_le _ hstarts ⟨blanks, f, hb, hf, rfl⟩
    have heq : blanks ++ f.text ++ [] = blanks' ++ g.text ++ [] := by
      rw [List.append_nil, List.append_nil]
      exact (List.prefix_of_prefix_length_le hstarts hlongest'.starts hle').eq_of_length
        (Nat.le_antisymm hle' hle)
    have htext := congrArg (List.dropWhile isBlank) heq
    rw [dropWhile_blanks hb, dropWhile_blanks hb', List.append_nil, List.append_nil] at htext
    obtain ⟨hsign, hwhole, -⟩ := Form.parts_eq_of_text_eq htext
    rw [← Int64.toInt_inj, hvalue, Form.integer, ← hsign, ← hwhole]
    rw [Form.integer] at hfi
    rw [hfi, clamp_toInt]
  · exact absurd ⟨_, hstarts, blanks, f, hb, hf, rfl⟩ hnone

/-- The integer that is read is what the longest run of blanks, a sign and digits denotes, clamped
to the machine word, or zero if the string starts with none. It is the integer that the scanner
finds, if it finds an integer, and the one whose text the string is, if it is such a text. -/
theorem intPrefix_saturates (s : Bytes) :
    ((∃ (blanks : Bytes) (f : Form), (∀ b ∈ blanks, isBlank b = true) ∧ f.IsInteger ∧
          IsLongest (IsNumeral Form.IsInteger) s (blanks ++ f.text) ∧
          (intPrefix s).toInt = clamp f.integer) ∨
        (¬∃ p, p <+: s ∧ IsNumeral Form.IsInteger p) ∧ intPrefix s = 0) ∧
      (∀ r i, scan? s = some r → r.value = .int i → intPrefix s = i) ∧
      ∀ i, canonicalInt? s = some i → scan? s = some ⟨.int i, true⟩ ∧ intPrefix s = i := by
  refine ⟨intPrefix_cases s, fun r i => intPrefix_of_scan?, fun i hi => ?_⟩
  have hscan : scan? s = some ⟨.int i, true⟩ := by
    rw [canonicalInt?_eq_some_iff.1 hi, ← Form.text_ofInt, scan?_text, Form.number_ofInt]
  exact ⟨hscan, intPrefix_of_scan? hscan rfl⟩

/-- The least machine integer is read without saturation, and its text by all three readers. -/
theorem intPrefix_saturates_least :
    let s := Bytes.ofString "-9223372036854775808"
    canonicalInt? s = some .minValue ∧ scan? s = some ⟨.int .minValue, true⟩ ∧
      intPrefix s = .minValue := by
  intro s
  have hs : canonicalInt? s = some .minValue := by decide +kernel
  obtain ⟨hscan, hprefix⟩ := (intPrefix_saturates s).2.2 .minValue hs
  exact ⟨hs, hscan, (intPrefix_saturates s).2.1 _ _ hscan rfl⟩

example : intPrefix (Bytes.ofString " -99999999999999999999.5") = .minValue := by decide +kernel

end ObjectModel.Numeral
