import Mathlib.Algebra.Field.Rat
import ObjectModel.Proofs.Numeral
/-!
# Written numerals

A numeral is written as a sign or none, digits with at most one point before, among or behind them,
and an exponent or none. `Form` holds these parts; its text puts them together and its value is the
number that they denote. The parts can be split off a text again, one after the other, because each
begins with a byte that cannot continue the part before it. So a text is written in one way only, and
the readers of whole texts accept it.
-/

namespace ObjectModel.Numeral

open Bytes (isDigit isBlank)

section Runs

universe u

variable {α : Type u} {p : α → Bool} {l r : List α}

theorem takeWhile_append_of_head? (hl : ∀ x ∈ l, p x = true) (hr : ∀ x ∈ r.head?, p x = false) :
    (l ++ r).takeWhile p = l := by
  rw [List.takeWhile_append_of_pos hl]
  cases r with
  | nil => rw [List.takeWhile_nil, List.append_nil]
  | cons x r => rw [List.takeWhile_cons_of_neg (by simp [hr x rfl]), List.append_nil]

theorem dropWhile_eq_self_of_head? (hr : ∀ x ∈ r.head?, p x = false) : r.dropWhile p = r := by
  cases r with
  | nil => rfl
  | cons x r => rw [List.dropWhile_cons_of_neg (by simp [hr x rfl])]

theorem dropWhile_append_of_head? (hl : ∀ x ∈ l, p x = true) (hr : ∀ x ∈ r.head?, p x = false) :
    (l ++ r).dropWhile p = r := by
  rw [List.dropWhile_append_of_pos hl, dropWhile_eq_self_of_head? hr]

end Runs

inductive Sign where
  | none
  | plus
  | minus
deriving DecidableEq, Repr

namespace Sign

def text : Sign → Bytes
  | none => []
  | plus => [0x2B]
  | minus => [0x2D]

/-- Only minus makes a number negative. -/
def isNegative : Sign → Bool
  | minus => true
  | _ => false

end Sign

/-- An exponent: a mark, a sign or none, and digits. -/
structure Exponent where
  mark : UInt8
  sign : Sign
  digits : Bytes
  isMark : mark = 0x45 ∨ mark = 0x65
  areDigits : ∀ b ∈ digits, isDigit b = true
  ne_nil : digits ≠ []

namespace Exponent

def text (e : Exponent) : Bytes := e.mark :: (e.sign.text ++ e.digits)

def value (e : Exponent) : Int := signed e.sign.isNegative (digitsValue e.digits)

end Exponent

def fractionText : Option Bytes → Bytes
  | none => []
  | some ds => 0x2E :: ds

def exponentText : Option Exponent → Bytes
  | none => []
  | some e => e.text

/-- A numeral: a sign or none, digits, a point with digits behind it or none, and an exponent or
none. At least one digit stands before the point or behind it. -/
structure Form where
  sign : Sign
  whole : Bytes
  /-- The digits behind the point, if there is a point. -/
  fraction? : Option Bytes
  exponent? : Option Exponent
  areDigits : ∀ b ∈ whole, isDigit b = true
  areDigits_fraction : ∀ ds ∈ fraction?, ∀ b ∈ ds, isDigit b = true
  hasDigit : whole ++ fraction?.getD [] ≠ []

namespace Form

/-- What follows the sign. -/
def body (f : Form) : Bytes := f.whole ++ (fractionText f.fraction? ++ exponentText f.exponent?)

def text (f : Form) : Bytes := f.sign.text ++ f.body

def IsInteger (f : Form) : Prop := f.fraction? = none ∧ f.exponent? = none

/-- The integer before the point. -/
def integer (f : Form) : Int := signed f.sign.isNegative (digitsValue f.whole)

/-- The number of all digits in a row. -/
def coefficient (f : Form) : Nat := digitsValue (f.whole ++ f.fraction?.getD [])

def scale (f : Form) : Int :=
  (f.exponent?.map Exponent.value).getD 0 - (f.fraction?.getD []).length

/-- The number that a numeral denotes. -/
def value (f : Form) : ℚ := (if f.sign.isNegative then -1 else 1) * f.coefficient * 10 ^ f.scale

def double (f : Form) : Double := .ofDecimal f.sign.isNegative f.coefficient f.scale

end Form

theorem isDigit_head?_exponentText (e? : Option Exponent) :
    ∀ b ∈ (exponentText e?).head?, isDigit b = false := by
  cases e? with
  | none => exact nofun
  | some e =>
    rintro b ⟨⟩
    obtain h | h := e.isMark <;> rw [h] <;> rfl

/-- A point and an exponent begin with bytes that are no digits. -/
theorem isDigit_head?_fractionText (f? : Option Bytes) (e? : Option Exponent) :
    ∀ b ∈ (fractionText f? ++ exponentText e?).head?, isDigit b = false := by
  cases f? with
  | none => exact isDigit_head?_exponentText e?
  | some ds =>
    rintro b ⟨⟩
    rfl

/-- A numeral begins with a digit or a point after its sign. -/
theorem Form.exists_body_eq (f : Form) :
    ∃ b s, f.body = b :: s ∧ (isDigit b = true ∨ b = 0x2E) := by
  rw [body]
  cases hw : f.whole with
  | cons b bs =>
    exact ⟨b, _, rfl, .inl (f.areDigits b (hw ▸ List.mem_cons_self))⟩
  | nil =>
    cases hf : f.fraction? with
    | some ds => exact ⟨0x2E, _, rfl, .inr rfl⟩
    | none => exact absurd (by rw [hw, hf]; rfl) f.hasDigit

/-- A numeral does not begin with a blank. -/
theorem Form.isBlank_head?_text (f : Form) (t : Bytes) :
    ∀ b ∈ (f.text ++ t).head?, isBlank b = false := by
  rw [text]
  cases f.sign with
  | plus | minus =>
    rintro b ⟨⟩
    rfl
  | none =>
    obtain ⟨b, s, hs, hb⟩ := f.exists_body_eq
    rw [hs]
    rintro c ⟨⟩
    obtain hb | rfl := hb
    · rw [isDigit_iff] at hb
      simp only [isBlank, Bool.or_eq_false_iff, beq_eq_false_iff_ne, ne_eq, ← UInt8.toNat_inj,
        Bool.and_eq_false_imp, decide_eq_true_eq, decide_eq_false_iff_not,
        UInt8.le_iff_toNat_le, UInt8.reduceToNat]
      omega
    · rfl

theorem splitSign_append (sign : Sign) {s : Bytes}
    (hs : ∀ b ∈ s.head?, b ≠ 0x2B ∧ b ≠ 0x2D) :
    splitSign (sign.text ++ s) = (sign.isNegative, s) := by
  cases sign with
  | plus | minus => rfl
  | none =>
    change splitSign s = (false, s)
    rw [splitSign]
    · rintro t rfl
      exact (hs 0x2B rfl).1 rfl
    · rintro t rfl
      exact (hs 0x2D rfl).2 rfl

theorem Form.splitSign_text (f : Form) (t : Bytes) :
    splitSign (f.text ++ t) = (f.sign.isNegative, f.body ++ t) := by
  obtain ⟨b, s, hs, hb⟩ := f.exists_body_eq
  rw [text, List.append_assoc]
  refine splitSign_append f.sign ?_
  rw [hs]
  rintro c ⟨⟩
  constructor <;> rintro rfl <;> revert hb <;> decide

theorem Exponent.splitSign_digits (e : Exponent) (t : Bytes) :
    splitSign (e.sign.text ++ (e.digits ++ t)) = (e.sign.isNegative, e.digits ++ t) := by
  refine splitSign_append e.sign ?_
  obtain ⟨b, bs, hb⟩ := List.exists_cons_of_ne_nil e.ne_nil
  have hdigit : isDigit b = true := e.areDigits b (hb ▸ List.mem_cons_self)
  rw [hb]
  rintro c ⟨⟩
  constructor <;> rintro rfl <;> revert hdigit <;> decide

/-- An exponent is split off a string with all digits that follow it. -/
theorem splitExponent_text (e : Exponent) (t : Bytes) :
    splitExponent (e.text ++ t) =
      (some (signed e.sign.isNegative (digitsValue (e.digits ++ t.takeWhile isDigit))),
        t.dropWhile isDigit) := by
  have htake : (e.digits ++ t).takeWhile isDigit = e.digits ++ t.takeWhile isDigit :=
    List.takeWhile_append_of_pos e.areDigits
  have hdrop : (e.digits ++ t).dropWhile isDigit = t.dropWhile isDigit :=
    List.dropWhile_append_of_pos e.areDigits
  have hne : (e.digits ++ t.takeWhile isDigit).isEmpty = false :=
    List.isEmpty_eq_false_iff.2 (List.append_ne_nil_of_left_ne_nil e.ne_nil _)
  have hmark : (e.mark == 0x45 || e.mark == 0x65) = true := by
    obtain h | h := e.isMark <;> rw [h] <;> rfl
  rw [Exponent.text, List.cons_append, List.append_assoc, splitExponent]
  simp only [e.splitSign_digits, htake, hdrop, hmark, hne, Bool.not_false, Bool.and_self, if_true]

theorem splitExponent_exponentText (e? : Option Exponent) :
    splitExponent (exponentText e?) = (e?.map Exponent.value, []) := by
  cases e? with
  | none => rfl
  | some e =>
    have h := splitExponent_text e []
    rwa [List.append_nil, List.takeWhile_nil, List.append_nil] at h

/-- A point is split off a string with all digits that follow it. -/
theorem splitFraction_point {whole ds : Bytes} (hd : ∀ b ∈ ds, isDigit b = true)
    (hne : whole ++ ds ≠ []) (t : Bytes) :
    splitFraction whole (0x2E :: (ds ++ t)) =
      (some (ds ++ t.takeWhile isDigit), t.dropWhile isDigit) := by
  have hguard : (whole.isEmpty && (ds ++ t.takeWhile isDigit).isEmpty) = false := by
    rw [Bool.and_eq_false_iff, List.isEmpty_eq_false_iff, List.isEmpty_eq_false_iff]
    by_cases hw : whole = []
    · rw [hw, List.nil_append] at hne
      exact .inr (List.append_ne_nil_of_left_ne_nil hne _)
    · exact .inl hw
  rw [splitFraction]
  simp only [List.takeWhile_append_of_pos hd, List.dropWhile_append_of_pos hd, hguard,
    Bool.false_eq_true, if_false]

/-- Where no point is, nothing is split off. -/
theorem splitFraction_of_head? (whole : Bytes) {s : Bytes} (hs : ∀ b ∈ s.head?, b ≠ 0x2E) :
    splitFraction whole s = (none, s) := by
  rw [splitFraction]
  rintro t rfl
  exact hs 0x2E rfl rfl

theorem head?_exponentText_ne_point (e? : Option Exponent) :
    ∀ b ∈ (exponentText e?).head?, b ≠ 0x2E := by
  cases e? with
  | none => exact nofun
  | some e =>
    rintro b ⟨⟩ hb
    obtain h | h := e.isMark <;> rw [hb] at h <;> cases h

namespace Form

theorem takeWhile_body (f : Form) : f.body.takeWhile isDigit = f.whole :=
  takeWhile_append_of_head? f.areDigits (isDigit_head?_fractionText _ _)

theorem dropWhile_body (f : Form) :
    f.body.dropWhile isDigit = fractionText f.fraction? ++ exponentText f.exponent? :=
  dropWhile_append_of_head? f.areDigits (isDigit_head?_fractionText _ _)

theorem splitFraction_body (f : Form) :
    splitFraction f.whole (f.body.dropWhile isDigit) = (f.fraction?, exponentText f.exponent?) := by
  rw [dropWhile_body]
  cases hf : f.fraction? with
  | none => exact splitFraction_of_head? f.whole (head?_exponentText_ne_point _)
  | some ds =>
    have hd := f.areDigits_fraction ds hf
    have hne : f.whole ++ ds ≠ [] := by
      have h := f.hasDigit
      rwa [hf] at h
    have hhead := isDigit_head?_exponentText f.exponent?
    have htake : (exponentText f.exponent?).takeWhile isDigit = [] :=
      takeWhile_append_of_head? (l := []) nofun hhead
    rw [fractionText, List.cons_append, splitFraction_point hd hne, htake,
      dropWhile_eq_self_of_head? hhead, List.append_nil]

/-- The parts of a numeral can be told from its text. -/
theorem parts_eq_of_text_eq {f g : Form} (h : f.text = g.text) :
    f.sign.isNegative = g.sign.isNegative ∧ f.whole = g.whole ∧ f.fraction? = g.fraction? ∧
      f.exponent?.map Exponent.value = g.exponent?.map Exponent.value := by
  have hsign := f.splitSign_text []
  rw [h, g.splitSign_text [], Prod.mk.injEq, List.append_nil, List.append_nil] at hsign
  obtain ⟨hsign, hbody⟩ := hsign
  have hwhole := f.takeWhile_body
  rw [← hbody, g.takeWhile_body] at hwhole
  have hfraction := f.splitFraction_body
  rw [← hbody, ← hwhole, g.splitFraction_body, Prod.mk.injEq] at hfraction
  have hexponent := splitExponent_exponentText f.exponent?
  rw [← hfraction.2, splitExponent_exponentText, Prod.mk.injEq] at hexponent
  exact ⟨hsign.symm, hwhole.symm, hfraction.1.symm, hexponent.1.symm⟩

/-- A text denotes one number only. -/
theorem value_eq_of_text_eq {f g : Form} (h : f.text = g.text) : f.value = g.value := by
  obtain ⟨hsign, hwhole, hfraction, hexponent⟩ := parts_eq_of_text_eq h
  rw [value, value, coefficient, coefficient, scale, scale, hsign, hwhole, hfraction, hexponent]

theorem isEmpty_and_isNone (f : Form) : (f.whole.isEmpty && f.fraction?.isNone) = false := by
  rw [Bool.and_eq_false_iff, List.isEmpty_eq_false_iff]
  by_cases hw : f.whole = []
  · have h := f.hasDigit
    cases hf : f.fraction? with
    | none => exact absurd (by rw [hw, hf]; rfl) h
    | some ds => exact .inr rfl
  · exact .inl hw

/-- The reader of doubles accepts every numeral. -/
theorem readDouble?_text (f : Form) : readDouble? f.text = some f.double := by
  have hsign := f.splitSign_text []
  rw [List.append_nil, List.append_nil] at hsign
  simp only [readDouble?, hsign, takeWhile_body, splitFraction_body, splitExponent_exponentText,
    isEmpty_and_isNone, List.isEmpty_nil, Bool.not_true, Bool.or_self, Bool.false_eq_true, if_false]
  rfl

theorem IsInteger.body_eq {f : Form} (hf : f.IsInteger) : f.body = f.whole := by
  rw [body, hf.1, hf.2]
  exact List.append_nil _

theorem IsInteger.whole_ne_nil {f : Form} (hf : f.IsInteger) : f.whole ≠ [] := by
  have h := f.hasDigit
  rwa [hf.1, Option.getD_none, List.append_nil] at h

theorem readInt64?_text {f : Form} (hf : f.IsInteger) : readInt64? f.text = int64? f.integer := by
  have hsign := f.splitSign_text []
  rw [List.append_nil, List.append_nil, hf.body_eq] at hsign
  rw [readInt64?, readInteger?_of_splitSign hsign hf.whole_ne_nil f.areDigits]
  rfl

def number (f : Form) : Numeric :=
  if f.fraction?.isSome || f.exponent?.isSome then .float f.double
  else ((int64? f.integer).map .int).getD (.float f.double)

theorem readNumeric?_text (f : Form) :
    readNumeric? (f.fraction?.isSome || f.exponent?.isSome) f.text = some f.number := by
  rw [readNumeric?, number, readDouble?_text]
  cases hp : f.fraction?.isSome || f.exponent?.isSome with
  | true => rfl
  | false =>
    rw [Bool.or_eq_false_iff, Option.isSome_eq_false_iff, Option.isSome_eq_false_iff,
      Option.isNone_iff_eq_none, Option.isNone_iff_eq_none] at hp
    simp only [readInt64?_text hp, Bool.false_eq_true, if_false]
    cases int64? f.integer <;> rfl

end Form

end ObjectModel.Numeral
