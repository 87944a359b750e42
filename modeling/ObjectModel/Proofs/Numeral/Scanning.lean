import Mathlib.Data.List.TakeWhile
import ObjectModel.Proofs.Numeral.Form
/-!
# The longest numeral at the start of a string

Each part that is split off a string is a part of a numeral, with what is left behind it; so whatever
the scanner takes is a written numeral. On the other hand, from a string that starts with a numeral
each splitting takes at least what the numeral has there, so no numeral at the start of a string
leaves less behind than the scanner does.
-/

namespace ObjectModel.Numeral

open Bytes (isDigit isBlank)

/-- Whether a string consists of blanks and a numeral with a property. -/
def IsNumeral (P : Form → Prop) (s : Bytes) : Prop :=
  ∃ (blanks : Bytes) (f : Form), (∀ b ∈ blanks, isBlank b = true) ∧ P f ∧ s = blanks ++ f.text

/-- Whether `p` is the longest of the strings with a property that `s` starts with. -/
structure IsLongest (P : Bytes → Prop) (s p : Bytes) : Prop where
  starts : p <+: s
  holds : P p
  length_le : ∀ q, q <+: s → P q → q.length ≤ p.length

/-- Whether a scan tells what a numeral denotes and whether only blanks follow it. -/
structure Scan.Reports (r : Scan) (f : Form) (rest : Bytes) : Prop where
  int_iff : ∀ i, r.value = .int i ↔ f.IsInteger ∧ f.integer = i.toInt
  float_iff : ∀ d, r.value = .float d ↔
    (¬∃ i : Int64, f.IsInteger ∧ f.integer = i.toInt) ∧ readDouble? f.text = some d
  whole_iff : r.whole = true ↔ ∀ b ∈ rest, isBlank b = true

theorem exists_sign (s : Bytes) :
    ∃ (sign : Sign) (t : Bytes), splitSign s = (sign.isNegative, t) ∧ s = sign.text ++ t := by
  unfold splitSign
  split
  · exact ⟨.plus, _, rfl, rfl⟩
  · exact ⟨.minus, _, rfl, rfl⟩
  · exact ⟨.none, _, rfl, rfl⟩

theorem exists_fraction (whole s : Bytes) :
    ∃ (fraction? : Option Bytes) (t : Bytes), splitFraction whole s = (fraction?, t) ∧
      s = fractionText fraction? ++ t ∧
      ∀ ds ∈ fraction?, (∀ b ∈ ds, isDigit b = true) ∧ whole ++ ds ≠ [] := by
  unfold splitFraction
  split
  next s =>
    dsimp only
    split
    · exact ⟨none, _, rfl, rfl, nofun⟩
    next h =>
      rw [Bool.and_eq_true, List.isEmpty_iff, List.isEmpty_iff, ← List.append_eq_nil_iff] at h
      refine ⟨some (s.takeWhile isDigit), _, rfl, ?_, ?_⟩
      · rw [fractionText, List.cons_append, List.takeWhile_append_dropWhile]
      · rintro ds ⟨⟩
        exact ⟨fun b hb => List.mem_takeWhile_imp hb, h⟩
  · exact ⟨none, _, rfl, rfl, nofun⟩

theorem exists_exponent (s : Bytes) :
    ∃ (exponent? : Option Exponent) (t : Bytes),
      splitExponent s = (exponent?.map Exponent.value, t) ∧ s = exponentText exponent? ++ t := by
  cases s with
  | nil => exact ⟨none, [], rfl, rfl⟩
  | cons b s =>
    obtain ⟨sign, t, hsplit, rfl⟩ := exists_sign s
    rw [splitExponent]
    simp only [hsplit]
    split
    next h =>
      rw [Bool.and_eq_true, Bool.or_eq_true, beq_iff_eq, beq_iff_eq, Bool.not_eq_true',
        List.isEmpty_eq_false_iff] at h
      refine ⟨some ⟨b, sign, t.takeWhile isDigit, h.1,
        fun _ hb => List.mem_takeWhile_imp hb, h.2⟩, t.dropWhile isDigit, rfl, ?_⟩
      rw [exponentText, Exponent.text, List.cons_append, List.append_assoc,
        List.takeWhile_append_dropWhile]
    · exact ⟨none, _, rfl, rfl⟩

theorem splitFraction_suffix (whole s : Bytes) : (splitFraction whole s).2 <:+ s := by
  obtain ⟨fraction?, t, hsplit, hs, -⟩ := exists_fraction whole s
  rw [hsplit]
  exact ⟨_, hs.symm⟩

theorem splitExponent_suffix (s : Bytes) : (splitExponent s).2 <:+ s := by
  obtain ⟨exponent?, t, hsplit, hs⟩ := exists_exponent s
  rw [hsplit]
  exact ⟨_, hs.symm⟩

/-- What is left of a string behind the numeral at its start. -/
def remainder (s : Bytes) : Bytes :=
  let s := (splitSign (s.dropWhile isBlank)).2
  (splitExponent (splitFraction (s.takeWhile isDigit) (s.dropWhile isDigit)).2).2

/-- Whether a string has a digit before or behind the point of the numeral at its start. -/
def hasDigits (s : Bytes) : Bool :=
  let s := (splitSign (s.dropWhile isBlank)).2
  let whole := s.takeWhile isDigit
  !(whole.isEmpty && (splitFraction whole (s.dropWhile isDigit)).1.isNone)

theorem scan?_of_hasDigits_eq_false {s : Bytes} (h : hasDigits s = false) : scan? s = none := by
  rw [hasDigits, Bool.not_eq_false'] at h
  simp only [scan?, h, if_true]

/-- Where the scanner finds digits, it takes a numeral, and reads it. -/
theorem exists_form_of_hasDigits {s : Bytes} (h : hasDigits s = true) :
    ∃ f : Form, s.dropWhile isBlank = f.text ++ remainder s ∧
      scan? s = some ⟨f.number, (remainder s).all isBlank⟩ := by
  obtain ⟨sign, s₁, hsign, hstart⟩ := exists_sign (s.dropWhile isBlank)
  obtain ⟨fraction?, s₂, hfraction, hrest, hdigits⟩ :=
    exists_fraction (s₁.takeWhile isDigit) (s₁.dropWhile isDigit)
  obtain ⟨exponent?, s₃, hexponent, rfl⟩ := exists_exponent s₂
  have hremainder : remainder s = s₃ := by
    rw [remainder, hsign]
    simp only [hfraction, hexponent]
  have hguard : ((s₁.takeWhile isDigit).isEmpty && fraction?.isNone) = false := by
    rw [hasDigits, hsign] at h
    simpa only [hfraction, Bool.not_eq_true'] using h
  have hasDigit : s₁.takeWhile isDigit ++ fraction?.getD [] ≠ [] := by
    cases fraction? with
    | none =>
      rw [Option.isNone_none, Bool.and_true, List.isEmpty_eq_false_iff] at hguard
      exact List.append_ne_nil_of_left_ne_nil hguard _
    | some ds => exact (hdigits ds rfl).2
  let f : Form := ⟨sign, s₁.takeWhile isDigit, fraction?, exponent?,
    fun _ hb => List.mem_takeWhile_imp hb, fun ds hds => (hdigits ds hds).1, hasDigit⟩
  have htext : s.dropWhile isBlank = f.text ++ s₃ := by
    calc s.dropWhile isBlank
        = sign.text ++ (s₁.takeWhile isDigit ++ s₁.dropWhile isDigit) := by
          rw [List.takeWhile_append_dropWhile, hstart]
      _ = f.text ++ s₃ := by
          simp only [hrest, Form.text, Form.body, f, List.append_assoc]
  have htake : (s.dropWhile isBlank).take ((s.dropWhile isBlank).length - s₃.length) = f.text := by
    rw [htext, List.length_append, Nat.add_sub_cancel, List.take_left]
  have hread : readNumeric? (fraction?.isSome || (exponent?.map Exponent.value).isSome) f.text =
      some f.number := by
    rw [Option.isSome_map]
    exact f.readNumeric?_text
  refine ⟨f, hremainder.symm ▸ htext, ?_⟩
  rw [hremainder]
  simp only [scan?, hsign, hfraction, hexponent, hguard, htake, hread, Option.map_some,
    Bool.false_eq_true, if_false]

/-- Behind the digits before the point, what a numeral has there is split off. -/
theorem Form.splits_body (f : Form) (t : Bytes) :
    (((f.body ++ t).takeWhile isDigit).isEmpty &&
        (splitFraction ((f.body ++ t).takeWhile isDigit)
          ((f.body ++ t).dropWhile isDigit)).1.isNone) = false ∧
      (splitExponent (splitFraction ((f.body ++ t).takeWhile isDigit)
        ((f.body ++ t).dropWhile isDigit)).2).2 <:+ t := by
  have hexponent (whole : Bytes) (e? : Option Exponent) :
      (splitExponent (splitFraction whole
        ((exponentText e? ++ t).dropWhile isDigit)).2).2 <:+ t ∧
      (splitExponent ((exponentText e? ++ t).dropWhile isDigit)).2 <:+ t := by
    cases e? with
    | none =>
      have hdrop : t.dropWhile isDigit <:+ t := List.dropWhile_suffix _
      exact ⟨((splitExponent_suffix _).trans (splitFraction_suffix _ _)).trans hdrop,
        (splitExponent_suffix _).trans hdrop⟩
    | some e =>
      have hhead : ∀ b ∈ (e.text ++ t).head?, isDigit b = false :=
        isDigit_head?_exponentText (some e)
      have hpoint : ∀ b ∈ (e.text ++ t).head?, b ≠ 0x2E := head?_exponentText_ne_point (some e)
      rw [exponentText, dropWhile_eq_self_of_head? hhead, splitFraction_of_head? whole hpoint,
        splitExponent_text]
      exact ⟨List.dropWhile_suffix _, List.dropWhile_suffix _⟩
  rw [body, List.append_assoc, List.append_assoc, List.takeWhile_append_of_pos f.areDigits,
    List.dropWhile_append_of_pos f.areDigits]
  cases hf : f.fraction? with
  | none =>
    have hne : f.whole ≠ [] := by
      have h := f.hasDigit
      rwa [hf, Option.getD_none, List.append_nil] at h
    refine ⟨?_, (hexponent _ f.exponent?).1⟩
    rw [List.isEmpty_eq_false_iff.2 (List.append_ne_nil_of_left_ne_nil hne _), Bool.false_and]
  | some ds =>
    have hd := f.areDigits_fraction ds hf
    have hne : f.whole ++ ds ≠ [] := by
      have h := f.hasDigit
      rwa [hf] at h
    have htake : (fractionText (some ds) ++ (exponentText f.exponent? ++ t)).takeWhile isDigit =
        [] := List.takeWhile_cons_of_neg (by decide)
    have hdrop : (fractionText (some ds) ++ (exponentText f.exponent? ++ t)).dropWhile isDigit =
        0x2E :: (ds ++ (exponentText f.exponent? ++ t)) :=
      List.dropWhile_cons_of_neg (by decide)
    rw [htake, hdrop, List.append_nil, splitFraction_point hd hne, Option.isNone_some,
      Bool.and_false]
    exact ⟨rfl, (hexponent [] f.exponent?).2⟩

section Numerals

variable {blanks : Bytes} {f : Form} {t : Bytes}

theorem dropWhile_blanks (hb : ∀ b ∈ blanks, isBlank b = true) :
    (blanks ++ f.text ++ t).dropWhile isBlank = f.text ++ t := by
  rw [List.append_assoc]
  exact dropWhile_append_of_head? hb (f.isBlank_head?_text t)

/-- The scanner leaves no more than any numeral at the start of a string does. -/
theorem remainder_suffix (hb : ∀ b ∈ blanks, isBlank b = true) :
    remainder (blanks ++ f.text ++ t) <:+ t := by
  rw [remainder, dropWhile_blanks hb, f.splitSign_text]
  exact (f.splits_body t).2

theorem hasDigits_append (hb : ∀ b ∈ blanks, isBlank b = true) :
    hasDigits (blanks ++ f.text ++ t) = true := by
  rw [hasDigits, dropWhile_blanks hb, f.splitSign_text]
  simp only [(f.splits_body t).1, Bool.not_false]

end Numerals

/-- A numeral that stands alone is read as a whole. -/
theorem scan?_text (f : Form) : scan? f.text = some ⟨f.number, true⟩ := by
  have hsign := f.splitSign_text []
  have hblank := f.isBlank_head?_text []
  rw [List.append_nil] at hsign hblank
  rw [List.append_nil] at hsign
  have hdrop : f.text.dropWhile isBlank = f.text := dropWhile_eq_self_of_head? hblank
  simp only [scan?, hdrop, hsign, f.takeWhile_body, f.splitFraction_body,
    splitExponent_exponentText, f.isEmpty_and_isNone, List.length_nil, Nat.sub_zero,
    List.take_length, Option.isSome_map, f.readNumeric?_text, Option.map_some, List.all_nil,
    Bool.false_eq_true, if_false]

/-- What the scanner takes is the longest numeral at the start of a string. -/
theorem isLongest_of_dropWhile_eq {s : Bytes} {f : Form}
    (hf : s.dropWhile isBlank = f.text ++ remainder s) :
    ∃ blanks, (∀ b ∈ blanks, isBlank b = true) ∧ s = blanks ++ f.text ++ remainder s ∧
      IsLongest (IsNumeral fun _ => True) s (blanks ++ f.text) := by
  have hblanks : ∀ b ∈ s.takeWhile isBlank, isBlank b = true := fun _ hb =>
    List.mem_takeWhile_imp hb
  have hs : s = s.takeWhile isBlank ++ f.text ++ remainder s := by
    rw [List.append_assoc, ← hf, List.takeWhile_append_dropWhile]
  refine ⟨_, hblanks, hs, ⟨_, hs.symm⟩, ⟨_, f, hblanks, trivial, rfl⟩, ?_⟩
  rintro q ⟨t, hq⟩ ⟨blanks, g, hb, -, rfl⟩
  -- whatever numeral the string starts with, the scanner leaves no more behind
  have hrest : (remainder s).length ≤ t.length := by
    rw [← hq]
    exact (remainder_suffix hb).length_le
  have hlength := congrArg List.length (hq.trans hs)
  simp only [List.length_append] at hlength ⊢
  omega

theorem Form.reports (f : Form) (rest : Bytes) :
    Scan.Reports ⟨f.number, rest.all isBlank⟩ f rest := by
  have hinteger : (f.fraction?.isSome || f.exponent?.isSome) = false ↔ f.IsInteger := by
    rw [Bool.or_eq_false_iff, Option.isSome_eq_false_iff, Option.isSome_eq_false_iff,
      Option.isNone_iff_eq_none, Option.isNone_iff_eq_none, IsInteger]
  have hint : (∃ i : Int64, f.number = .int i ∧ f.IsInteger ∧ f.integer = i.toInt) ∨
      f.number = .float f.double ∧ ¬∃ i : Int64, f.IsInteger ∧ f.integer = i.toInt := by
    rw [number]
    split
    next h =>
      refine .inr ⟨rfl, ?_⟩
      rintro ⟨i, hf, -⟩
      rw [hinteger.2 hf] at h
      cases h
    next h =>
      rw [Bool.not_eq_true, hinteger] at h
      cases hi : int64? f.integer with
      | some i => exact .inl ⟨i, rfl, h, int64?_eq_some_iff.1 hi⟩
      | none =>
        refine .inr ⟨rfl, ?_⟩
        rintro ⟨i, -, hf⟩
        rw [int64?_eq_some_iff.2 hf] at hi
        cases hi
  obtain ⟨i, hnumber, hi⟩ | ⟨hnumber, hnone⟩ := hint
  · refine ⟨fun j => ?_, fun d => ?_, List.all_eq_true⟩
    · rw [hnumber, Numeric.int.injEq, ← Int64.toInt_inj, ← hi.2]
      exact ⟨fun h => ⟨hi.1, h⟩, And.right⟩
    · rw [hnumber]
      exact iff_of_false (fun h => by cases h) fun h => h.1 ⟨i, hi⟩
  · refine ⟨fun j => ?_, fun d => ?_, List.all_eq_true⟩
    · rw [hnumber]
      exact iff_of_false (fun h => by cases h) fun h => hnone ⟨j, h⟩
    · rw [hnumber, readDouble?_text, Numeric.float.injEq, Option.some_inj]
      exact ⟨fun h => ⟨hnone, h⟩, And.right⟩

/-- A scan takes the longest numeral at the start of a string and tells what it denotes. -/
theorem exists_reports_of_scan? {s : Bytes} {r : Scan} (hr : scan? s = some r) :
    ∃ (blanks : Bytes) (f : Form) (rest : Bytes),
      (∀ b ∈ blanks, isBlank b = true) ∧ s = blanks ++ f.text ++ rest ∧
        IsLongest (IsNumeral fun _ => True) s (blanks ++ f.text) ∧ r.Reports f rest := by
  cases hdigits : hasDigits s with
  | false =>
    rw [scan?_of_hasDigits_eq_false hdigits] at hr
    cases hr
  | true =>
    obtain ⟨f, hf, hscan⟩ := exists_form_of_hasDigits hdigits
    obtain ⟨blanks, hb, hs, hlongest⟩ := isLongest_of_dropWhile_eq hf
    rw [hscan] at hr
    cases hr
    exact ⟨blanks, f, remainder s, hb, hs, hlongest, f.reports _⟩

/-- A number is found just if the string starts with a numeral. Then the longest of them is taken:
its number is an integer if it has neither point nor exponent and denotes a machine integer, and
otherwise the double that its text is read as. That reading fails for no numeral. -/
theorem scan?_longest (s : Bytes) :
    ((scan? s).isSome ↔ ∃ p, p <+: s ∧ IsNumeral (fun _ => True) p) ∧
      (∀ r, scan? s = some r → ∃ (blanks : Bytes) (f : Form) (rest : Bytes),
        (∀ b ∈ blanks, isBlank b = true) ∧ s = blanks ++ f.text ++ rest ∧
          IsLongest (IsNumeral fun _ => True) s (blanks ++ f.text) ∧ r.Reports f rest) ∧
      ∀ f : Form, readDouble? f.text = some f.double := by
  refine ⟨⟨fun h => ?_, ?_⟩, fun r => exists_reports_of_scan?, Form.readDouble?_text⟩
  · obtain ⟨r, hr⟩ := Option.isSome_iff_exists.1 h
    obtain ⟨blanks, f, -, -, -, hlongest, -⟩ := exists_reports_of_scan? hr
    exact ⟨_, hlongest.starts, hlongest.holds⟩
  · rintro ⟨p, ⟨t, rfl⟩, blanks, f, hb, -, rfl⟩
    obtain ⟨g, -, hg⟩ := exists_form_of_hasDigits (hasDigits_append (f := f) (t := t) hb)
    rw [hg]
    rfl

/-- A mark and a sign without a digit behind them are no exponent, so the numeral ends before them. -/
theorem scan?_longest_before_lone_mark :
    let s := Bytes.ofString " -12e+ 3"
    scan? s = some ⟨.int (-12), false⟩ ∧
      ∃ (blanks : Bytes) (f : Form) (rest : Bytes),
        (∀ b ∈ blanks, isBlank b = true) ∧ s = blanks ++ f.text ++ rest ∧
          IsLongest (IsNumeral fun _ => True) s (blanks ++ f.text) ∧
          Scan.Reports ⟨.int (-12), false⟩ f rest := by
  intro s
  have hscan : scan? s = some ⟨.int (-12), false⟩ := by decide
  exact ⟨hscan, (scan?_longest s).2.1 _ hscan⟩

end ObjectModel.Numeral
