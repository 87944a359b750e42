import Mathlib.Algebra.Ring.Nat
import ObjectModel.Bytes.Utf8
import ObjectModel.Numeral
/-!
# The decimal text of an integer

The text of a natural number is followed through its recursion from the last digit: it consists of
digits, has the number as its value, and starts with a zero only if it is zero. In the other
direction digits are followed from the first on: without needless zeros they are the text of their
value. So the canonical texts are those of the machine integers, each of exactly one, and a string
key never shares its text with an integer key.
-/

namespace ObjectModel.Numeral

open Bytes (isDigit)
open Bytes.Utf8 (encode)

theorem isDigit_iff {b : UInt8} : isDigit b = true ↔ 0x30 ≤ b.toNat ∧ b.toNat ≤ 0x39 := by
  simp only [isDigit, UInt8.le_iff_toNat_le, UInt8.reduceToNat, Bool.and_eq_true,
    decide_eq_true_eq]

private def digitByte (n : Nat) : UInt8 := .ofNat (0x30 + n)

private theorem encode_digitChar {n : Nat} (h : n < 10) : encode [n.digitChar] = [digitByte n] := by
  match n, h with
  | 0, _ | 1, _ | 2, _ | 3, _ | 4, _ | 5, _ | 6, _ | 7, _ | 8, _ | 9, _ => decide

private theorem toNat_digitByte {n : Nat} (h : n < 10) : (digitByte n).toNat = 0x30 + n := by
  rw [digitByte, UInt8.toNat_ofNat', Nat.mod_eq_of_lt (by omega)]

private theorem isDigit_digitByte {n : Nat} (h : n < 10) : isDigit (digitByte n) = true := by
  rw [isDigit_iff, toNat_digitByte h]
  omega

def digitBytes (n : Nat) : Bytes := encode (Nat.toDigits 10 n)

private theorem digitBytes_of_lt {n : Nat} (h : n < 10) : digitBytes n = [digitByte n] := by
  rw [digitBytes, Nat.toDigits_of_lt_base h, encode_digitChar h]

private theorem digitBytes_of_le {n : Nat} (h : 10 ≤ n) :
    digitBytes n = digitBytes (n / 10) ++ [digitByte (n % 10)] := by
  rw [digitBytes, Nat.toDigits_of_base_le (by decide) h, digitBytes,
    ← encode_digitChar (Nat.mod_lt n (by decide)), Bytes.Utf8.encode_append]

theorem isDigit_of_mem_digitBytes {n : Nat} {b : UInt8} (h : b ∈ digitBytes n) :
    isDigit b = true := by
  induction n using Nat.strongRecOn with
  | ind n ih =>
    obtain hn | hn := Nat.lt_or_ge n 10
    · rw [digitBytes_of_lt hn, List.mem_singleton] at h
      exact h ▸ isDigit_digitByte hn
    · rw [digitBytes_of_le hn, List.mem_append, List.mem_singleton] at h
      obtain h | rfl := h
      · exact ih (n / 10) (by omega) h
      · exact isDigit_digitByte (Nat.mod_lt n (by decide))

theorem digitsValue_digitBytes (n : Nat) : digitsValue (digitBytes n) = n := by
  induction n using Nat.strongRecOn with
  | ind n ih =>
    obtain hn | hn := Nat.lt_or_ge n 10
    · rw [digitBytes_of_lt hn]
      change 10 * 0 + ((digitByte n).toNat - 0x30) = n
      rw [toNat_digitByte hn]
      omega
    · have hd : digitsValue (digitBytes n) =
          10 * digitsValue (digitBytes (n / 10)) + ((digitByte (n % 10)).toNat - 0x30) := by
        rw [digitBytes_of_le hn, digitsValue, List.foldl_append]
        rfl
      rw [hd, ih (n / 10) (by omega), toNat_digitByte (Nat.mod_lt n (by decide))]
      omega

/-- Only the text of zero starts with a zero. -/
theorem digitBytes_eq_cons {n : Nat} (h : n ≠ 0) : ∃ b bs, digitBytes n = b :: bs ∧ b ≠ 0x30 := by
  induction n using Nat.strongRecOn with
  | ind n ih =>
    obtain hn | hn := Nat.lt_or_ge n 10
    · refine ⟨_, _, digitBytes_of_lt hn, ?_⟩
      intro hb
      have h₀ : (digitByte n).toNat = 0x30 := by rw [hb]; rfl
      rw [toNat_digitByte hn] at h₀
      omega
    · obtain ⟨b, bs, he, hb⟩ := ih (n / 10) (by omega) (by omega)
      exact ⟨b, bs ++ [digitByte (n % 10)], by rw [digitBytes_of_le hn, he]; rfl, hb⟩

theorem exists_digitBytes_eq (n : Nat) : ∃ b bs, digitBytes n = b :: bs := by
  obtain rfl | hn := Nat.eq_zero_or_pos n
  · exact ⟨0x30, [], digitBytes_of_lt (by decide)⟩
  · obtain ⟨b, bs, he, -⟩ := digitBytes_eq_cons (Nat.ne_of_gt hn)
    exact ⟨b, bs, he⟩

theorem length_digitBytes_le {n k : Nat} (hk : 0 < k) (h : n < 10 ^ k) :
    (digitBytes n).length ≤ k := by
  induction k generalizing n with
  | zero => cases hk
  | succ k ih =>
    obtain hn | hn := Nat.lt_or_ge n 10
    · rw [digitBytes_of_lt hn]
      exact Nat.succ_le_succ (Nat.zero_le k)
    · have hk' : 0 < k := by
        obtain rfl | hk' := Nat.eq_zero_or_pos k
        · omega
        · exact hk'
      have hlen := ih hk' (Nat.div_lt_of_lt_mul (by rwa [Nat.pow_succ'] at h))
      rw [digitBytes_of_le hn, List.length_append, List.length_singleton]
      omega

private theorem digitByte_toNat_sub {b : UInt8} (h : isDigit b = true) :
    digitByte (b.toNat - 0x30) = b := by
  rw [isDigit_iff] at h
  rw [← UInt8.toNat_inj, toNat_digitByte (by omega)]
  omega

/-- A digit after the text of a positive number makes the text of ten times the number and more. -/
theorem digitBytes_append_digit {n : Nat} (hn : 0 < n) {b : UInt8} (hb : isDigit b = true) :
    digitBytes n ++ [b] = digitBytes (10 * n + (b.toNat - 0x30)) := by
  have hdigit := digitByte_toNat_sub hb
  rw [isDigit_iff] at hb
  have hdiv : (10 * n + (b.toNat - 0x30)) / 10 = n := by omega
  have hmod : (10 * n + (b.toNat - 0x30)) % 10 = b.toNat - 0x30 := by omega
  rw [digitBytes_of_le (n := 10 * n + (b.toNat - 0x30)) (by omega), hdiv, hmod, hdigit]

theorem digitBytes_zero : digitBytes 0 = [0x30] := digitBytes_of_lt (by decide)

theorem isCanonical_digitBytes {negative : Bool} {n : Nat} (h : negative = true → n ≠ 0) :
    isCanonical negative (digitBytes n) = true := by
  obtain rfl | hn := Nat.eq_zero_or_pos n
  · cases negative with
    | false => rw [digitBytes_zero]; rfl
    | true => exact absurd rfl (h rfl)
  · obtain ⟨b, bs, he, hb⟩ := digitBytes_eq_cons (Nat.ne_of_gt hn)
    have hall : (b :: bs).all isDigit = true :=
      List.all_eq_true.2 fun c hc => isDigit_of_mem_digitBytes (he ▸ hc)
    rw [he, isCanonical, hall, Bool.and_true]
    · simpa using hb
    · rintro rfl -
      exact hb rfl

/-- Digits that follow the text of a positive number continue it. -/
theorem digitBytes_foldl {n : Nat} (hn : 0 < n) {ds : Bytes} (hd : ∀ b ∈ ds, isDigit b = true) :
    digitBytes (ds.foldl (fun n b => 10 * n + (b.toNat - 0x30)) n) = digitBytes n ++ ds := by
  induction ds generalizing n with
  | nil => exact (List.append_nil _).symm
  | cons b ds ih =>
    rw [List.forall_mem_cons] at hd
    rw [List.foldl_cons, ih (by omega) hd.2, ← digitBytes_append_digit hn hd.1, List.append_assoc]
    rfl

/-- Digits without needless zeros are the text of their value. -/
theorem digitBytes_digitsValue {negative : Bool} {ds : Bytes}
    (h : isCanonical negative ds = true) : digitBytes (digitsValue ds) = ds := by
  match ds with
  | [] => cases h
  | b :: ds =>
    by_cases hz : b = 0x30
    · -- a zero is canonical only alone
      subst hz
      cases ds with
      | nil => exact digitBytes_zero
      | cons c ds => cases h
    · rw [isCanonical, Bool.and_eq_true, List.all_eq_true, List.forall_mem_cons] at h
      · obtain ⟨-, hb, hd⟩ := h
        have hvalue : digitsValue (b :: ds) =
            ds.foldl (fun n b => 10 * n + (b.toNat - 0x30)) (b.toNat - 0x30) := by
          rw [digitsValue, List.foldl_cons, Nat.mul_zero, Nat.zero_add]
        have hdigit := digitByte_toNat_sub hb
        have hne : b.toNat ≠ 0x30 := fun he => hz (UInt8.toNat_inj.1 he)
        rw [isDigit_iff] at hb
        rw [hvalue, digitBytes_foldl (by omega) hd, digitBytes_of_lt (by omega), hdigit]
        rfl
      · rintro rfl
        exact fun _ => hz rfl

theorem isDigit_of_isCanonical {negative : Bool} {ds : Bytes}
    (h : isCanonical negative ds = true) : ds ≠ [] ∧ ∀ b ∈ ds, isDigit b = true := by
  rw [← digitBytes_digitsValue h]
  obtain ⟨b, bs, he⟩ := exists_digitBytes_eq (digitsValue ds)
  exact ⟨he ▸ List.cons_ne_nil b bs, fun _ => isDigit_of_mem_digitBytes⟩

/-- A digit has a single byte, of the same code. -/
theorem exists_encode_cons_eq {c : Char} (hc : c.isDigit = true) (cs : List Char) :
    ∃ b, isDigit b = true ∧ b.toNat = c.toNat ∧ encode (c :: cs) = b :: encode cs := by
  have hrange : 0x30 ≤ c.toNat ∧ c.toNat ≤ 0x39 := Char.isDigit_iff_toNat.1 hc
  have hsmall : c.val.toNat ≤ 127 := by
    change c.toNat ≤ 127
    omega
  have hcode : (UInt8.ofNat c.toNat).toNat = c.toNat := by
    rw [UInt8.toNat_ofNat', Nat.mod_eq_of_lt (by omega)]
  refine ⟨UInt8.ofNat c.toNat, isDigit_iff.2 (by rwa [hcode]), hcode, ?_⟩
  rw [encode, List.flatMap_cons, String.utf8EncodeChar, if_pos hsmall]
  rfl

section Digits

variable {cs : List Char} (hcs : ∀ c ∈ cs, c.isDigit = true)

include hcs

theorem isDigit_of_mem_encode : ∀ b ∈ encode cs, isDigit b = true := by
  induction cs with
  | nil => exact nofun
  | cons c cs ih =>
    rw [List.forall_mem_cons] at hcs
    obtain ⟨b, hb, -, he⟩ := exists_encode_cons_eq hcs.1 cs
    rw [he]
    exact List.forall_mem_cons.2 ⟨hb, ih hcs.2⟩

theorem length_encode : (encode cs).length = cs.length := by
  induction cs with
  | nil => rfl
  | cons c cs ih =>
    rw [List.forall_mem_cons] at hcs
    obtain ⟨b, -, -, he⟩ := exists_encode_cons_eq hcs.1 cs
    rw [he, List.length_cons, ih hcs.2, List.length_cons]

/-- Digits denote the same number as characters and as bytes. -/
theorem digitsValue_encode : digitsValue (encode cs) = Nat.ofDigitChars 10 cs 0 := by
  rw [digitsValue]
  generalize 0 = n
  induction cs generalizing n with
  | nil => rfl
  | cons c cs ih =>
    rw [List.forall_mem_cons] at hcs
    obtain ⟨b, -, hb, he⟩ := exists_encode_cons_eq hcs.1 cs
    rw [he, List.foldl_cons, ih hcs.2, Nat.ofDigitChars_cons, hb]
    rfl

end Digits

/-- The sign of an integer and the bytes of its digits make up the bytes of its text. -/
theorem encode_decimalText (i : Int) :
    encode (decimalText i) =
      if i < 0 then 0x2D :: digitBytes i.natAbs else digitBytes i.natAbs := by
  rw [decimalText]
  split <;> rfl

private theorem canonicalInt?_minus (s : Bytes) :
    canonicalInt? (0x2D :: s) =
      if (0x2D :: s).length ≤ maxIntLength && isCanonical true s then readInt64? (0x2D :: s)
      else none := rfl

private theorem canonicalInt?_of_ne_minus {s : Bytes} (h : ∀ t, s ≠ 0x2D :: t) :
    canonicalInt? s =
      if s.length ≤ maxIntLength && isCanonical false s then readInt64? s else none := by
  rw [canonicalInt?]
  exact fun t => h t

theorem digitBytes_ne_minus (n : Nat) (s : Bytes) : digitBytes n ≠ 0x2D :: s := by
  intro h
  have : isDigit 0x2D = true := isDigit_of_mem_digitBytes (h ▸ List.mem_cons_self)
  exact absurd this (by decide)

theorem int64?_toInt (i : Int64) : int64? i.toInt = some i := by
  rw [int64?, if_pos ⟨i.le_toInt, i.toInt_lt⟩, Int64.ofInt_toInt]

theorem toInt_of_int64? {i : Int} {n : Int64} (h : int64? i = some n) : n.toInt = i := by
  rw [int64?] at h
  split at h
  next hi =>
    cases h
    exact Int64.toInt_ofInt_of_le hi.1 hi.2
  next => cases h

theorem int64?_eq_some_iff {i : Int} {n : Int64} : int64? i = some n ↔ i = n.toInt :=
  ⟨fun h => (toInt_of_int64? h).symm, fun h => h ▸ int64?_toInt n⟩

theorem isSome_int64?_iff {i : Int} :
    (int64? i).isSome ↔ -0x8000000000000000 ≤ i ∧ i < 0x8000000000000000 := by
  rw [int64?]
  split <;> simp_all

theorem exists_int64?_eq {i : Int} (hlow : -0x8000000000000000 ≤ i) (hhigh : i < 0x8000000000000000) :
    ∃ n, int64? i = some n ∧ n.toInt = i := by
  obtain ⟨n, hn⟩ := Option.isSome_iff_exists.1 (isSome_int64?_iff.2 ⟨hlow, hhigh⟩)
  exact ⟨n, hn, toInt_of_int64? hn⟩

theorem toInt_max (i j : Int64) : (max i j).toInt = max i.toInt j.toInt := by
  change (if i ≤ j then j else i).toInt = if i.toInt ≤ j.toInt then j.toInt else i.toInt
  simp only [apply_ite Int64.toInt, Int64.le_iff_toInt_le]

theorem toInt_min (i j : Int64) : (min i j).toInt = min i.toInt j.toInt := by
  change (if i ≤ j then i else j).toInt = if i.toInt ≤ j.toInt then i.toInt else j.toInt
  simp only [apply_ite Int64.toInt, Int64.le_iff_toInt_le]

theorem splitSign_of_isDigit {b : UInt8} {s : Bytes} (h : isDigit b = true) :
    splitSign (b :: s) = (false, b :: s) := by
  rw [splitSign]
  · rintro s' ⟨rfl, -⟩
    exact absurd h (by decide)
  · rintro s' ⟨rfl, -⟩
    exact absurd h (by decide)

theorem readInteger?_of_splitSign {negative : Bool} {s ds : Bytes}
    (hs : splitSign s = (negative, ds)) (hne : ds ≠ []) (hd : ∀ b ∈ ds, isDigit b = true) :
    readInteger? s = some (signed negative (digitsValue ds)) := by
  have hempty : ds.isEmpty = false := List.isEmpty_eq_false_iff.2 hne
  simp only [readInteger?, hs, hempty, List.all_eq_true.2 hd, Bool.not_true, Bool.or_false,
    Bool.false_eq_true, if_false]

/-- The text of an integer is read back. -/
theorem readInteger?_decimalText (i : Int) : readInteger? (encode (decimalText i)) = some i := by
  obtain ⟨b, bs, he⟩ := exists_digitBytes_eq i.natAbs
  have hread (negative : Bool) (s : Bytes) (hs : splitSign s = (negative, digitBytes i.natAbs)) :
      readInteger? s = some (signed negative i.natAbs) := by
    rw [readInteger?_of_splitSign hs (he ▸ List.cons_ne_nil b bs)
      fun _ => isDigit_of_mem_digitBytes, digitsValue_digitBytes]
  rw [encode_decimalText]
  split
  next h =>
    rw [hread true _ rfl, signed, if_pos rfl]
    congr 1
    omega
  next h =>
    have hb : isDigit b = true := isDigit_of_mem_digitBytes (he ▸ List.mem_cons_self)
    rw [hread false _ (he ▸ splitSign_of_isDigit hb), signed, if_neg Bool.false_ne_true]
    congr 1
    omega

/-- The text of a machine integer is canonical. -/
theorem canonicalInt?_decimalText (i : Int64) :
    canonicalInt? (encode (decimalText i.toInt)) = some i := by
  have hread : readInt64? (encode (decimalText i.toInt)) = some i := by
    rw [readInt64?, readInteger?_decimalText, Option.bind_some, int64?_toInt]
  have hlow := i.le_toInt
  have hhigh := i.toInt_lt
  have hlen : (digitBytes i.toInt.natAbs).length ≤ 19 :=
    length_digitBytes_le (by decide) (by omega)
  rw [encode_decimalText] at hread ⊢
  split
  next h =>
    rw [if_pos h] at hread
    rw [canonicalInt?_minus, hread, if_pos]
    rw [Bool.and_eq_true, decide_eq_true_iff, List.length_cons, maxIntLength]
    exact ⟨by omega, isCanonical_digitBytes fun _ => by omega⟩
  next h =>
    rw [if_neg h] at hread
    rw [canonicalInt?_of_ne_minus (digitBytes_ne_minus _), hread, if_pos]
    rw [Bool.and_eq_true, decide_eq_true_iff, maxIntLength]
    exact ⟨by omega, isCanonical_digitBytes nofun⟩

/-- A canonical text is the text of the integer that it denotes. -/
theorem eq_decimalText_of_canonicalInt? {s : Bytes} {i : Int64} (h : canonicalInt? s = some i) :
    s = encode (decimalText i.toInt) := by
  have hread {negative : Bool} {ds : Bytes} (hs : splitSign s = (negative, ds))
      (hc : isCanonical negative ds = true) (hi : readInt64? s = some i) :
      i.toInt = signed negative (digitsValue ds) := by
    obtain ⟨hne, hd⟩ := isDigit_of_isCanonical hc
    rw [readInt64?, readInteger?_of_splitSign hs hne hd, Option.bind_some] at hi
    exact toInt_of_int64? hi
  by_cases hminus : ∃ ds, s = 0x2D :: ds
  · obtain ⟨ds, rfl⟩ := hminus
    rw [canonicalInt?_minus, Option.ite_none_right_eq_some, Bool.and_eq_true] at h
    obtain ⟨⟨-, hc⟩, hi⟩ := h
    have htext := digitBytes_digitsValue hc
    have hvalue := hread rfl hc hi
    have hne : digitsValue ds ≠ 0 := by
      intro hz
      rw [hz, digitBytes_zero] at htext
      rw [← htext] at hc
      cases hc
    rw [signed, if_pos rfl] at hvalue
    rw [encode_decimalText, if_pos (by omega), hvalue, Int.natAbs_neg, Int.natAbs_natCast, htext]
  · have hne : ∀ t, s ≠ 0x2D :: t := fun t ht => hminus ⟨t, ht⟩
    rw [canonicalInt?_of_ne_minus hne, Option.ite_none_right_eq_some, Bool.and_eq_true] at h
    obtain ⟨⟨-, hc⟩, hi⟩ := h
    obtain ⟨b, bs, hs⟩ := List.exists_cons_of_ne_nil (isDigit_of_isCanonical hc).1
    have hsplit : splitSign s = (false, s) := by
      rw [hs]
      exact splitSign_of_isDigit ((isDigit_of_isCanonical hc).2 b (hs ▸ List.mem_cons_self))
    have hvalue := hread hsplit hc hi
    rw [signed, if_neg Bool.false_ne_true] at hvalue
    rw [encode_decimalText, if_neg (by omega), hvalue, Int.natAbs_natCast,
      digitBytes_digitsValue hc]

/-- The canonical texts are those of the machine integers. -/
theorem canonicalInt?_eq_some_iff {s : Bytes} {i : Int64} :
    canonicalInt? s = some i ↔ s = encode (decimalText i.toInt) :=
  ⟨eq_decimalText_of_canonicalInt?, fun h => h ▸ canonicalInt?_decimalText i⟩

end ObjectModel.Numeral
