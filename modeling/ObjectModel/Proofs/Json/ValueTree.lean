import Mathlib.Data.List.Nodup
import ObjectModel.Json.Decoder
import ObjectModel.Json.Encoder
import ObjectModel.Proofs.Numeral
import ObjectModel.Proofs.OrderedArray.View
import ObjectModel.Proofs.Utf8
/-!
# Value trees

A value tree is what a value without doubles, objects and resources looks like when its handles are
followed: scalars, and arrays with keys in order. `Denotes` reads a value in a heap as a tree, so
two values are structurally equal if they denote one tree. `text` and `document` are the JSON text
and the JSON document of a tree; they are written by recursion on the tree alone, without a heap.
-/

namespace ObjectModel

namespace Key

/-- Whether a key is in its normal form: an integer, or text that is not that of an integer. -/
def IsNormal : Key → Prop
  | int _ => True
  | str s => (Bytes.Utf8.decode? s).isSome ∧ Numeral.canonicalInt? s = none

end Key

/-- A scalar, or an array of value trees. -/
inductive ValueTree where
  | null
  | bool (b : Bool)
  | int (i : Int64)
  | str (s : Bytes)
  | array (entries : List (Key × ValueTree))

namespace ValueTree

mutual

def nesting : ValueTree → Nat
  | array es => nestingOfEntries es + 1
  | _ => 0

def nestingOfEntries : List (Key × ValueTree) → Nat
  | [] => 0
  | (_, t) :: es => max t.nesting (nestingOfEntries es)

end

mutual

/-- Whether all strings are UTF-8 and the keys of every array are normal and distinct. -/
def WellFormed : ValueTree → Prop
  | str s => (Bytes.Utf8.decode? s).isSome
  | array es => (es.map Prod.fst).Nodup ∧ WellFormedEntries es
  | _ => True

def WellFormedEntries : List (Key × ValueTree) → Prop
  | [] => True
  | (k, t) :: es => k.IsNormal ∧ t.WellFormed ∧ WellFormedEntries es

end

mutual

/-- Whether all strings, those of keys too, are UTF-8. -/
def IsUtf8 : ValueTree → Prop
  | str s => (Bytes.Utf8.decode? s).isSome
  | array es => EntriesAreUtf8 es
  | _ => True

def EntriesAreUtf8 : List (Key × ValueTree) → Prop
  | [] => True
  | (k, t) :: es => (Bytes.Utf8.decode? k.text).isSome ∧ t.IsUtf8 ∧ EntriesAreUtf8 es

end

mutual

/-- Whether a value, read in a heap, is a given tree. -/
def Denotes (h : Heap) : ValueTree → Val → Prop
  | null, v => h.deref v = .null
  | bool b, v => h.deref v = .bool b
  | int i, v => h.deref v = .int i
  | str s, v => ∃ buffer, h.deref v = .str ⟨s, buffer⟩
  | array es, v => ∃ r a, h.deref v = .array r ∧ h.arrays[r.index]? = some a ∧
      EntriesDenote h es a.entries

def EntriesDenote (h : Heap) : List (Key × ValueTree) → List (Key × Val) → Prop
  | [], vs => vs = []
  | (k, t) :: es, vs => ∃ v rest, vs = (k, v) :: rest ∧ Denotes h t v ∧ EntriesDenote h es rest

end

def hasListKeys (es : List (Key × ValueTree)) : Bool :=
  (es.map Prod.fst).zipIdx.all fun (k, i) => k = .int (OrderedArray.index i)

/-- Whether a style writes an array as an object. -/
def isWrittenAsObject (style : JsonStyle) (es : List (Key × ValueTree)) : Bool :=
  style.forceObject || !hasListKeys es

end ValueTree

def Bytes.chars (s : Bytes) : List Char := (Bytes.Utf8.decode? s).getD []

namespace ValueTree

open Json

mutual

/-- The JSON text of a tree that lies `depth` arrays deep. -/
def text (style : JsonStyle) (depth : Nat) : ValueTree → List Char
  | null => "null".toList
  | bool true => "true".toList
  | bool false => "false".toList
  | int i => decimalText i.toInt
  | str s => quote style s.chars
  | array es =>
    if isWrittenAsObject style es then
      bracket style (depth + 1) '\x7b' '\x7d' (memberTexts style (depth + 1) es)
    else bracket style (depth + 1) '[' ']' (itemTexts style (depth + 1) es)

def itemTexts (style : JsonStyle) (depth : Nat) : List (Key × ValueTree) → List (List Char)
  | [] => []
  | (_, t) :: es => t.text style depth :: itemTexts style depth es

def memberTexts (style : JsonStyle) (depth : Nat) : List (Key × ValueTree) → List (List Char)
  | [] => []
  | (k, t) :: es =>
    (quote style k.text.chars ++ nameSeparator style ++ t.text style depth) ::
      memberTexts style depth es

end

mutual

def document (style : JsonStyle) : ValueTree → Json
  | null => .null
  | bool b => .bool b
  | int i => .int i.toInt
  | str s => .string s.chars
  | array es =>
    if isWrittenAsObject style es then .object (members style es) else .array (items style es)

def items (style : JsonStyle) : List (Key × ValueTree) → List Json
  | [] => []
  | (_, t) :: es => t.document style :: items style es

def members (style : JsonStyle) : List (Key × ValueTree) → List (List Char × Json)
  | [] => []
  | (k, t) :: es => (k.text.chars, t.document style) :: members style es

end

mutual

/-- A value denotes at most one tree. -/
theorem Denotes.unique {h : Heap} {t u : ValueTree} {v : Val} (ht : t.Denotes h v)
    (hu : u.Denotes h v) : t = u := by
  match t, u with
  | array es, array fs =>
    obtain ⟨r, a, hv, ha, he⟩ := ht
    obtain ⟨r', a', hv', ha', hf⟩ := hu
    cases hv.symm.trans hv'
    cases ha.symm.trans ha'
    rw [EntriesDenote.unique he hf]
  | array es, null | array es, bool _ | array es, int _ =>
    obtain ⟨r, a, hv, -⟩ := ht
    cases hv.symm.trans hu
  | array es, str _ =>
    obtain ⟨r, a, hv, -⟩ := ht
    obtain ⟨buffer, hu⟩ := hu
    cases hv.symm.trans hu
  | str s, u =>
    obtain ⟨buffer, hv⟩ := ht
    cases u <;> simp_all [Denotes]
  | null, u | bool _, u | int _, u =>
    cases u <;> simp_all [Denotes]

theorem EntriesDenote.unique {h : Heap} {es fs : List (Key × ValueTree)} {vs : List (Key × Val)}
    (he : EntriesDenote h es vs) (hf : EntriesDenote h fs vs) : es = fs := by
  match es, fs with
  | [], [] => rfl
  | (k, t) :: es, (l, u) :: fs =>
    obtain ⟨v, rest, hv, ht, he⟩ := he
    obtain ⟨w, rest', hw, hu, hf⟩ := hf
    cases hv.symm.trans hw
    rw [Denotes.unique ht hu, EntriesDenote.unique he hf]
  | [], (l, u) :: fs =>
    obtain ⟨w, rest, hw, -, -⟩ := hf
    cases he.symm.trans hw
  | (k, t) :: es, [] =>
    obtain ⟨w, rest, hw, -, -⟩ := he
    cases hf.symm.trans hw

end

theorem EntriesDenote.map_fst {h : Heap} {es : List (Key × ValueTree)} {vs : List (Key × Val)}
    (he : EntriesDenote h es vs) : vs.map Prod.fst = es.map Prod.fst := by
  induction es generalizing vs with
  | nil => rw [show vs = [] from he]; rfl
  | cons e es ih =>
    obtain ⟨v, rest, rfl, -, he⟩ := he
    rw [List.map_cons, List.map_cons, ih he]

/-- The form in which an array is written depends on its keys alone. -/
theorem EntriesDenote.hasListKeys_eq {h : Heap} {es : List (Key × ValueTree)}
    {a : OrderedArray Val} (he : EntriesDenote h es a.entries) : hasListKeys es = a.isList := by
  rw [hasListKeys, ← he.map_fst, OrderedArray.isList_eq, List.zipIdx_map, List.all_map]
  rfl

end ValueTree

end ObjectModel
