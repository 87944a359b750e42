import ObjectModel.Proofs.Json.Correctness
import ObjectModel.Proofs.Json.Decoding
import ObjectModel.Proofs.Json.Layout
import ObjectModel.Proofs.OrderedMap
import ObjectModel.Session
/-!
# The round trip through JSON

A value that denotes a well-formed tree has a JSON text under every style and every nesting that
the tree keeps to, and with a correct parser the text is read back as a value that denotes the same
tree. The text is that of the tree, which is a text of the document of the tree, so it is parsed as
this document: its names are distinct, because distinct normal keys have distinct texts, so nothing
collapses.
-/

namespace ObjectModel

theorem Key.IsNormal.chars_text_inj {k l : Key} (hk : k.IsNormal) (hl : l.IsNormal)
    (h : k.text.chars = l.text.chars) : k = l := by
  have ht : k.text = l.text := by
    rw [← Bytes.encode_chars hk.isSome_decode?_text, h, Bytes.encode_chars hl.isSome_decode?_text]
  rw [← hk.isNormalized.ofBytes_text, ht, hl.isNormalized.ofBytes_text]

namespace ValueTree

open Json

mutual

theorem nesting_document (style : JsonStyle) (t : ValueTree) :
    (t.document style).nesting = t.nesting := by
  match t with
  | .null | .bool _ | .int _ | .str _ => rfl
  | .array es =>
    rw [document, nesting]
    split
    · exact congrArg (· + 1) (nestingOfMembers_members style es)
    · exact congrArg (· + 1) (nestingOfItems_items style es)

theorem nestingOfItems_items (style : JsonStyle) (es : List (Key × ValueTree)) :
    nestingOfItems (items style es) = nestingOfEntries es := by
  match es with
  | [] => rfl
  | (_, t) :: es =>
    rw [items, nestingOfItems, nestingOfEntries, nesting_document style t,
      nestingOfItems_items style es]

theorem nestingOfMembers_members (style : JsonStyle) (es : List (Key × ValueTree)) :
    nestingOfMembers (members style es) = nestingOfEntries es := by
  match es with
  | [] => rfl
  | (k, t) :: es =>
    rw [members, nestingOfMembers, nestingOfEntries, nesting_document style t,
      nestingOfMembers_members style es]

end

theorem map_fst_members (style : JsonStyle) (es : List (Key × ValueTree)) :
    (members style es).map Prod.fst = es.map fun e => e.1.text.chars := by
  induction es with
  | nil => rfl
  | cons e es ih =>
    obtain ⟨k, t⟩ := e
    rw [members, List.map_cons, List.map_cons, ih]

theorem WellFormedEntries.isNormal {es : List (Key × ValueTree)} (h : WellFormedEntries es)
    {k : Key} (hk : k ∈ es.map Prod.fst) : k.IsNormal := by
  induction es with
  | nil => cases hk
  | cons e es ih =>
    obtain ⟨l, t⟩ := e
    obtain rfl | hk := List.mem_cons.1 hk
    · exact h.1
    · exact ih h.2.2 hk

/-- Distinct normal keys are written as distinct names. -/
theorem nodup_map_fst_members (style : JsonStyle) {es : List (Key × ValueTree)}
    (hw : WellFormedEntries es) (hk : (es.map Prod.fst).Nodup) :
    ((members style es).map Prod.fst).Nodup := by
  have hn := hk.map_on (f := fun k => k.text.chars) fun k hk l hl h =>
    (hw.isNormal hk).chars_text_inj (hw.isNormal hl) h
  rw [List.map_map] at hn
  rw [map_fst_members]
  exact hn

mutual

/-- Nothing collapses in the document of a well-formed tree. -/
theorem collapsed_document (style : JsonStyle) {t : ValueTree} (hw : t.WellFormed) :
    (t.document style).collapsed = t.document style := by
  match t with
  | .null | .bool _ | .int _ | .str _ => rfl
  | .array es =>
    rw [document]
    split
    · rw [collapsed, collapsedMembers_members style hw.2, collapse,
        OrderedMap.entries_ofList (nodup_map_fst_members style hw.2 hw.1)]
    · rw [collapsed, collapsedItems_items style hw.2]

theorem collapsedItems_items (style : JsonStyle) {es : List (Key × ValueTree)}
    (hw : WellFormedEntries es) : collapsedItems (items style es) = items style es := by
  match es with
  | [] => rfl
  | (_, t) :: es =>
    rw [items, collapsedItems, collapsed_document style hw.2.1, collapsedItems_items style hw.2.2]

theorem collapsedMembers_members (style : JsonStyle) {es : List (Key × ValueTree)}
    (hw : WellFormedEntries es) : collapsedMembers (members style es) = members style es := by
  match es with
  | [] => rfl
  | (k, t) :: es =>
    rw [members, collapsedMembers, collapsed_document style hw.2.1,
      collapsedMembers_members style hw.2.2]

end

/-- The text of a tree is parsed as its document. -/
theorem parse_encode_text {p : Parser} (hp : p.IsCorrect) (style : JsonStyle) {t : ValueTree}
    (hw : t.WellFormed) {maxDepth : Nat} (hd : t.nesting ≤ min maxDepth Parser.maxNesting) :
    p.parse (Bytes.Utf8.encode (t.text style 0)) maxDepth = .ok (t.document style) := by
  rw [hp.parse_eq_ok (writes_text hp style 0 t) (nesting_document style t ▸ hd),
    collapsed_document style hw]

end ValueTree

/-- A value that denotes a tree is written as the text of the tree if the tree is not nested too
deep. -/
theorem Json.encode_eq_ok {h : Heap} {t : ValueTree} {v : Val} (hw : t.WellFormed)
    (hv : t.Denotes h v) (settings : Settings) (style : JsonStyle) {maxDepth : Nat}
    (hd : t.nesting ≤ maxDepth) :
    encode h settings style maxDepth v = .ok (t.text style 0) := by
  rw [encode_eq hw.isUtf8 hv, if_pos hd]

namespace Session

open Json

/-- Writing a value as JSON succeeds under every word of flags, and reading the text back with a
correct parser and objects as arrays succeeds and yields a value of the same tree, if the nesting of
the tree is within that of the calls and that of the parser. -/
theorem jsonDecode_jsonEncode {p : Parser} (hp : p.IsCorrect) (s : Session) {t : ValueTree}
    {v : Val} (hw : t.WellFormed) (hv : t.Denotes s.heap v) (flags : Int64) (depth? : Option Nat)
    (hd : t.nesting ≤ min (s.jsonDepth depth?) Parser.maxNesting) :
    ∃ text, (s.jsonEncode v flags depth?).2 = .ok text ∧
      ∀ decodeFlags, ∃ s' v',
        (s.jsonEncode v flags depth?).1.jsonDecode p text true depth? decodeFlags = (s', .ok v') ∧
          t.Denotes s'.heap v ∧ t.Denotes s'.heap v' := by
  have hdepth : t.nesting ≤ s.jsonDepth depth? := Nat.le_trans hd (Nat.min_le_left _ _)
  have henc := encode_eq_ok hw hv s.settings (.ofFlags flags) hdepth
  refine ⟨Bytes.Utf8.encode (t.text (.ofFlags flags) 0), by rw [jsonEncode, henc]; rfl, ?_⟩
  intro decodeFlags
  have hs : (s.jsonEncode v flags depth?).1 = { s with jsonError? := none } := by
    rw [jsonEncode, henc]
    rfl
  rw [hs]
  obtain ⟨v', w, hdec, hg, hv'⟩ := ValueTree.yields_document
    (d := { s with jsonError? := none }.decoder true decodeFlags) rfl (.ofFlags flags) hw
    ⟨s.heap, s.interner⟩
  refine ⟨{ s with heap := w.heap, interner := w.interner, jsonError? := none }, v', ?_,
    hv.of_growsTo hg, hv'⟩
  have hparse : p.parse (Bytes.Utf8.encode (t.text (.ofFlags flags) 0))
      ({ s with jsonError? := none }.jsonDepth depth?) = .ok (t.document (.ofFlags flags)) :=
    ValueTree.parse_encode_text hp (.ofFlags flags) hw hd
  rw [jsonDecode, hparse]
  simp only [hdec]

/-- A list inside an array with keys of both kinds, written with escapes and in lines. -/
theorem jsonDecode_jsonEncode_nested :
    let s : Session :=
      { Session.start {} with
        heap.arrays :=
          #[.packed [.str ⟨[0xC3, 0xA9, 0x2F], 0⟩, .null],
            .hash (.ofList [(.str [0x61], .array ⟨0⟩), (.int (-7), .bool true)]) 0] }
    let t : ValueTree :=
      .array [(.str [0x61], .array [(.int 0, .str [0xC3, 0xA9, 0x2F]), (.int 1, .null)]),
        (.int (-7), .bool true)]
    Parser.standard.IsCorrect ∧ t.WellFormed ∧ t.Denotes s.heap (.array ⟨1⟩) ∧
      t.nesting ≤ min (s.jsonDepth (some 2)) Parser.maxNesting ∧
      ∃ text, (s.jsonEncode (.array ⟨1⟩) 128 (some 2)).2 = .ok text ∧
        ∀ decodeFlags, ∃ s' v',
          (s.jsonEncode (.array ⟨1⟩) 128 (some 2)).1.jsonDecode .standard text true (some 2)
            decodeFlags = (s', .ok v') ∧ t.Denotes s'.heap (.array ⟨1⟩) ∧ t.Denotes s'.heap v' := by
  intro s t
  have hw : t.WellFormed := by
    simp only [t, ValueTree.WellFormed, ValueTree.WellFormedEntries, Key.IsNormal]
    decide
  have hi : ValueTree.Denotes s.heap (.array [(.int 0, .str [0xC3, 0xA9, 0x2F]), (.int 1, .null)])
      (.array ⟨0⟩) :=
    ⟨⟨0⟩, _, rfl, rfl, _, _, rfl, ⟨0, rfl⟩, _, _, rfl, rfl, rfl⟩
  have hv : t.Denotes s.heap (.array ⟨1⟩) :=
    ⟨⟨1⟩, _, rfl, rfl, _, _, rfl, hi, _, _, rfl, rfl, rfl⟩
  have hp := Parser.isCorrect_standard
  exact ⟨hp, hw, hv, by decide, jsonDecode_jsonEncode hp s hw hv 128 (some 2) (by decide)⟩

end Session

end ObjectModel
