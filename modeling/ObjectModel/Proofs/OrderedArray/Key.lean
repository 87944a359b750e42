import ObjectModel.Proofs.Numeral
import ObjectModel.Value.Conversion
/-!
# The normal form of keys

Whatever is used as a key is brought to a normal form: an integer, or a string that is not the text
of a machine integer. Keys in normal form are told apart by their texts, and reading the value of
such a key as a key again gives the key back. That the texts of integers are just the strings that
are normalized to integers is where both rest.
-/

namespace ObjectModel

namespace Key

theorem text_int (i : Int64) : (int i).text = Bytes.Utf8.encode (decimalText i.toInt) := by
  rw [text, Bytes.ofString, String.toList_ofList]
  rfl

/-- Whether a key is not a string that stands for an integer key. -/
def IsNormalized : Key → Prop
  | int _ => True
  | str s => Numeral.canonicalInt? s = none

theorem isNormalized_ofBytes (s : Bytes) : (ofBytes s).IsNormalized := by
  rw [ofBytes]
  split
  · trivial
  · assumption

/-- The text of the key that a string stands for is the string. -/
theorem text_ofBytes (s : Bytes) : (ofBytes s).text = s := by
  cases hs : Numeral.canonicalInt? s with
  | none => rw [ofBytes, hs, text]
  | some i => rw [ofBytes, hs, text_int, ← Numeral.canonicalInt?_eq_some_iff.1 hs]

/-- Different strings stand for different keys. -/
theorem ofBytes_inj {s s' : Bytes} : ofBytes s = ofBytes s' ↔ s = s' := by
  refine ⟨fun h => ?_, congrArg ofBytes⟩
  rw [← text_ofBytes s, h, text_ofBytes]

/-- A string that begins with a zero byte is not the text of an integer. -/
theorem ofBytes_zero_cons (s : Bytes) : ofBytes (0 :: s) = str (0 :: s) := by
  have hnone : Numeral.canonicalInt? (0 :: s) = none := by
    rw [Numeral.canonicalInt?, if_neg]
    · simp [Numeral.isCanonical, Bytes.isDigit]
    · intro t ht
      cases ht
  rw [ofBytes, hnone]

theorem ofText_eq (t : Text) : ofText t = ofBytes t.bytes := rfl

/-- A key in normal form is the one that its text names. -/
theorem IsNormalized.ofBytes_text {k : Key} (hk : k.IsNormalized) : ofBytes k.text = k := by
  cases k with
  | int i => rw [text_int, ofBytes, Numeral.canonicalInt?_decimalText]
  | str s => rw [text, ofBytes, show Numeral.canonicalInt? s = none from hk]

theorem IsNormalized.text_inj {k l : Key} (hk : k.IsNormalized) (hl : l.IsNormalized) :
    k.text = l.text ↔ k = l := by
  refine ⟨fun h => ?_, fun h => h ▸ rfl⟩
  rw [← hk.ofBytes_text, ← hl.ofBytes_text, h]

end Key

namespace Heap

variable {h : Heap} {v : Val} {k : Key}

theorem toKey_int (h : Heap) (i : Int64) : h.toKey (.int i) = .ok (.int i) := by
  rw [toKey, deref_int]

theorem toKey_str (h : Heap) (t : Text) : h.toKey (.str t) = .ok (.ofText t) := by
  rw [toKey, h.deref_eq_self rfl]

theorem isNormalized_of_toKey (hk : h.toKey v = .ok k) : k.IsNormalized := by
  rw [toKey] at hk
  cases hv : h.deref v with
  | str t =>
    rw [hv] at hk
    cases hk
    exact Key.isNormalized_ofBytes t.bytes
  | array r =>
    rw [hv] at hk
    cases hk
  | object r =>
    rw [hv] at hk
    cases hk
  | _ =>
    rw [hv] at hk
    cases hk
    trivial

/-- Only arrays and objects are no keys. -/
theorem exists_toKey_eq_ok (ha : (h.deref v).isArray = false) (ho : (h.deref v).isObject = false) :
    ∃ k, h.toKey v = .ok k := by
  rw [toKey]
  cases hv : h.deref v with
  | array r =>
    rw [hv] at ha
    cases ha
  | object r =>
    rw [hv] at ho
    cases ho
  | _ => exact ⟨_, rfl⟩

/-- The value of a key in normal form stands for this key. -/
theorem toKey_allocKey (hk : k.IsNormalized) :
    (h.allocKey k).1.toKey (h.allocKey k).2 = .ok k := by
  cases k with
  | int i => exact toKey_int h i
  | str s =>
    rw [allocKey, toKey_str, Key.ofText_eq]
    exact congrArg Except.ok hk.ofBytes_text

end Heap

/-- A string is the key of an integer just if it is the text of the integer. So every value but
arrays and objects stands for a key, whose own value stands for it again; keys of values are equal
just if their texts are; and a text stands for the key that its bytes name. -/
theorem Key.normalization :
    (∀ (s : Bytes) (i : Int64), Numeral.canonicalInt? s = some i ↔ s = (Key.int i).text) ∧
      (∀ (h : Heap) (v : Val), (h.deref v).isArray = false → (h.deref v).isObject = false →
        ∃ k, h.toKey v = .ok k ∧ (h.allocKey k).1.toKey (h.allocKey k).2 = .ok k) ∧
      (∀ (h h' : Heap) (v w : Val) (k l : Key), h.toKey v = .ok k → h'.toKey w = .ok l →
        (k = l ↔ k.text = l.text)) ∧
      ∀ (h : Heap) (t : Text),
        h.toKey (.str t) = .ok (.ofBytes t.bytes) ∧ Key.ofText t = .ofBytes t.bytes := by
  refine ⟨fun s i => ?_, fun h v ha ho => ?_, fun h h' v w k l hk hl => ?_, fun h t => ?_⟩
  · rw [text_int]
    exact Numeral.canonicalInt?_eq_some_iff
  · obtain ⟨k, hk⟩ := Heap.exists_toKey_eq_ok ha ho
    exact ⟨k, hk, Heap.toKey_allocKey (Heap.isNormalized_of_toKey hk)⟩
  · exact ((Heap.isNormalized_of_toKey hk).text_inj (Heap.isNormalized_of_toKey hl)).symm
  · exact ⟨h.toKey_str t, ofText_eq t⟩

/-- A reference to a reference to the text of the least machine integer, next to a text of which it
is just not the text. -/
theorem Key.normalization_through_two_cells :
    let least : Bytes := Bytes.ofString "-9223372036854775808"
    let below : Bytes := Bytes.ofString "-9223372036854775809"
    let h : Heap := { cells := #[.reference ⟨1⟩, .str ⟨least, 0⟩, .str ⟨below, 1⟩] }
    (∃ k, h.toKey (.reference ⟨0⟩) = .ok k ∧
        (h.allocKey k).1.toKey (h.allocKey k).2 = .ok k) ∧
      h.toKey (.reference ⟨0⟩) = .ok (.int .minValue) ∧
      h.toKey (.reference ⟨2⟩) = .ok (.str below) ∧
      (Key.int .minValue = .str below ↔ (Key.int .minValue).text = below) := by
  intro least below h
  have hleast : h.toKey (.reference ⟨0⟩) = .ok (.int .minValue) := by decide +kernel
  have hbelow : h.toKey (.reference ⟨2⟩) = .ok (.str below) := by decide +kernel
  exact ⟨normalization.2.1 h (.reference ⟨0⟩) rfl rfl, hleast, hbelow,
    normalization.2.2.1 h h (.reference ⟨0⟩) (.reference ⟨2⟩) _ _ hleast hbelow⟩

end ObjectModel
