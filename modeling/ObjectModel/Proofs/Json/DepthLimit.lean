import ObjectModel.Proofs.Json.Refusals
import ObjectModel.Proofs.Json.RoundTrip
/-!
# Depth limits

A value that denotes a tree is refused for its depth exactly if the tree is nested deeper than the
call allows, whatever the flags are. The text that is written otherwise keeps to the same limit when
it is read; but a correct parser goes no deeper than `Parser.maxNesting`, whatever the call allows.
So writing and reading with one limit agree on trees that the parser has room for, and on no
others.
-/

namespace ObjectModel

def ValueTree.nested : Nat → ValueTree
  | 0 => .array []
  | n + 1 => .array [(.int 0, nested n)]

/-- An empty array, and `n` more that each hold the one before. -/
def nestedArrays (n : Nat) : Array (OrderedArray Val) :=
  Array.ofFn fun i : Fin (n + 1) =>
    match i.val with
    | 0 => .packed []
    | j + 1 => .packed [.array ⟨j⟩]

namespace ValueTree

theorem nesting_nested (n : Nat) : (nested n).nesting = n + 1 := by
  induction n with
  | zero => rfl
  | succ n ih =>
    rw [nested, nesting, nestingOfEntries, nestingOfEntries, ih]
    rfl

theorem isUtf8_nested (n : Nat) : (nested n).IsUtf8 := by
  induction n with
  | zero => trivial
  | succ n ih => exact ⟨rfl, ih, trivial⟩

theorem denotes_nested {h : Heap} {n : Nat} (hh : h.arrays = nestedArrays n) {i : Nat}
    (hi : i ≤ n) : (nested i).Denotes h (.array ⟨i⟩) := by
  induction i with
  | zero => exact ⟨⟨0⟩, .packed [], h.deref_eq_self rfl, by simp [hh, nestedArrays], rfl⟩
  | succ i ih =>
    have hi' : i + 1 < n + 1 := Nat.lt_succ_of_le hi
    have ha : h.arrays[i + 1]? = some (.packed [.array ⟨i⟩]) := by simp [hh, nestedArrays, hi']
    exact ⟨⟨i + 1⟩, _, h.deref_eq_self rfl, ha, .array ⟨i⟩, [], rfl, ih (by omega), rfl⟩

end ValueTree

namespace Session

open Json

variable {p : Parser}

theorem jsonEncode_eq (s : Session) {t : ValueTree} {v : Val} (ht : t.IsUtf8)
    (hv : t.Denotes s.heap v) (flags : Int64) (depth? : Option Nat) :
    (s.jsonEncode v flags depth?).2 =
      if t.nesting ≤ s.jsonDepth depth? then .ok (Bytes.Utf8.encode (t.text (.ofFlags flags) 0))
      else .error .depth := by
  rw [jsonEncode, encode_eq ht hv]
  split <;> rfl

/-- Validation reports depth where the text is refused for it. -/
theorem jsonError?_jsonValidate_eq_depth_iff (s : Session) (p : Parser) (text : Bytes)
    (depth? : Option Nat) :
    (s.jsonValidate p text depth?).1.jsonError? = some .depth ↔
      p.parse text (s.jsonDepth depth?) = .error .depth := by
  rw [jsonValidate]
  cases p.parse text (s.jsonDepth depth?) with
  | error e => simp [withOutcome]
  | ok document => simp [withOutcome]

/-- Decoding reports depth where the text is refused for it: no document that was read is. -/
theorem jsonDecode_eq_depth_iff (s : Session) (p : Parser) (text : Bytes) (asArrays : Bool)
    (depth? : Option Nat) (flags : Int64) :
    (s.jsonDecode p text asArrays depth? flags).2 = .error .depth ↔
      p.parse text (s.jsonDepth depth?) = .error .depth := by
  rw [jsonDecode]
  cases p.parse text (s.jsonDepth depth?) with
  | error e => simp
  | ok document =>
    cases hv : (s.decoder asArrays flags).value document ⟨s.heap, s.interner⟩ with
    | ok v w => simp [hv]
    | error e w =>
      have he : e ≠ .depth :=
        failsWith_value (P := (· ≠ .depth)) (fun _ => ⟨by decide, by decide⟩) document _ e w hv
      simp [hv, he]

/-- A text that was written is refused for its depth exactly if the tree has more nesting than the
parser allows. -/
theorem parse_eq_depth_iff (hp : p.IsCorrect) {t : ValueTree} {maxDepth : Nat}
    (hd : t.nesting ≤ maxDepth) (style : JsonStyle) :
    p.parse (Bytes.Utf8.encode (t.text style 0)) maxDepth = .error .depth ↔
      Parser.maxNesting < t.nesting := by
  have hw := t.writes_text hp style 0
  have hn := t.nesting_document style
  obtain h | h := Nat.lt_or_ge Parser.maxNesting t.nesting
  · exact iff_of_true (hp.parse_eq_error hw (hn ▸ h)) h
  · rw [hp.parse_eq_ok hw (by omega)]
    exact iff_of_false nofun (Nat.not_lt.2 h)

/-- Writing a value that denotes a tree fails for its depth if the tree is nested deeper than the
call allows, and succeeds if not. Then validating and decoding the text with a correct parser and
the same limit report depth exactly if the tree is nested deeper than the parser goes. -/
theorem jsonEncode_depth_limit (hp : p.IsCorrect) (s : Session) {t : ValueTree} {v : Val}
    (ht : t.IsUtf8) (hv : t.Denotes s.heap v) (flags : Int64) (depth? : Option Nat) :
    (s.jsonDepth depth? < t.nesting → (s.jsonEncode v flags depth?).2 = .error .depth) ∧
      (t.nesting ≤ s.jsonDepth depth? → ∃ text, (s.jsonEncode v flags depth?).2 = .ok text ∧
        ∀ s' : Session, s'.jsonDepth depth? = s.jsonDepth depth? →
          ((s'.jsonValidate p text depth?).1.jsonError? = some .depth ↔
            Parser.maxNesting < t.nesting) ∧
          ∀ asArrays decodeFlags,
            (s'.jsonDecode p text asArrays depth? decodeFlags).2 = .error .depth ↔
              Parser.maxNesting < t.nesting) := by
  rw [jsonEncode_eq s ht hv]
  refine ⟨fun hd => if_neg (Nat.not_le.2 hd), fun hd => ⟨_, if_pos hd, fun s' hs' => ?_⟩⟩
  have hparse := parse_eq_depth_iff hp hd (.ofFlags flags)
  rw [← hs'] at hparse
  exact ⟨(s'.jsonError?_jsonValidate_eq_depth_iff p _ depth?).trans hparse,
    fun asArrays decodeFlags =>
      (s'.jsonDecode_eq_depth_iff p _ asArrays depth? decodeFlags).trans hparse⟩

/-- An array in another is refused with a limit of one, and goes through with a limit of two. -/
theorem jsonEncode_depth_limit_nested :
    let s : Session := { Session.start {} with heap.arrays := nestedArrays 1 }
    Parser.standard.IsCorrect ∧ (ValueTree.nested 1).IsUtf8 ∧
      (ValueTree.nested 1).Denotes s.heap (.array ⟨1⟩) ∧
      (s.jsonEncode (.array ⟨1⟩) 0 (some 1)).2 = .error .depth ∧
      ∃ text, (s.jsonEncode (.array ⟨1⟩) 0 (some 2)).2 = .ok text ∧
        (s.jsonValidate .standard text (some 2)).1.jsonError? ≠ some .depth ∧
        (s.jsonDecode .standard text true (some 2) 0).2 ≠ .error .depth := by
  intro s
  have hp := Parser.isCorrect_standard
  have ht := ValueTree.isUtf8_nested 1
  have hv : (ValueTree.nested 1).Denotes s.heap (.array ⟨1⟩) :=
    ValueTree.denotes_nested rfl (Nat.le_refl 1)
  have hn : ¬Parser.maxNesting < (ValueTree.nested 1).nesting := by decide
  obtain ⟨htoo, -⟩ := jsonEncode_depth_limit hp s ht hv 0 (some 1)
  obtain ⟨-, hfits⟩ := jsonEncode_depth_limit hp s ht hv 0 (some 2)
  obtain ⟨text, htext, hread⟩ := hfits (by decide)
  obtain ⟨hvalidate, hdecode⟩ := hread s rfl
  exact ⟨hp, ht, hv, htoo (by decide), text, htext, mt hvalidate.1 hn, mt (hdecode true 0).1 hn⟩

/-- Arrays nested 128 deep are written with a limit of 512, but the text is refused for its depth
with that limit. -/
theorem exists_text_refused_for_depth :
    let s : Session := { Session.start {} with heap.arrays := nestedArrays 127 }
    Parser.standard.IsCorrect ∧ (ValueTree.nested 127).IsUtf8 ∧
      (ValueTree.nested 127).Denotes s.heap (.array ⟨127⟩) ∧
      ∃ text, (s.jsonEncode (.array ⟨127⟩) 0 (some 512)).2 = .ok text ∧
        (s.jsonValidate .standard text (some 512)).1.jsonError? = some .depth ∧
        (s.jsonDecode .standard text true (some 512) 0).2 = .error .depth := by
  intro s
  have hp := Parser.isCorrect_standard
  have ht := ValueTree.isUtf8_nested 127
  have harrays : s.heap.arrays = nestedArrays 127 := by dsimp only [s]
  have hv := ValueTree.denotes_nested harrays (Nat.le_refl 127)
  have hd : (ValueTree.nested 127).nesting ≤ 512 := by
    rw [ValueTree.nesting_nested]
    decide
  have hparse : Parser.standard.parse
      (Bytes.Utf8.encode ((ValueTree.nested 127).text (.ofFlags 0) 0)) 512 = .error .depth := by
    rw [parse_eq_depth_iff hp hd, ValueTree.nesting_nested]
    decide
  refine ⟨hp, ht, hv, _, (s.jsonEncode_eq ht hv 0 (some 512)).trans (if_pos hd), ?_, ?_⟩
  · exact (s.jsonError?_jsonValidate_eq_depth_iff _ _ (some 512)).2 hparse
  · exact (s.jsonDecode_eq_depth_iff _ _ true (some 512) 0).2 hparse

end Session

end ObjectModel
