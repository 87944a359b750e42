import ObjectModel.Proofs.Json.Writing
import ObjectModel.Proofs.OrderedArray.View
/-!
# Values of the documents of value trees

A decoder that makes arrays of objects turns the document of a value tree into a value that denotes
this tree. It only adds to the heap, so what it has built denotes the same tree to the end. The keys
of an object come back because the text of a normal key names that key; they are new to the array
under construction because they are distinct.
-/

namespace ObjectModel

/-- Whether a heap has the cells of `h` and, among others, its arrays. -/
structure Heap.GrowsTo (h h' : Heap) : Prop where
  cells_eq : h'.cells = h.cells
  getElem?_eq_some :
    ∀ (i : Nat) (a : OrderedArray Val), h.arrays[i]? = some a → h'.arrays[i]? = some a

namespace Heap.GrowsTo

variable {h h' h'' : Heap}

theorem refl (h : Heap) : h.GrowsTo h := ⟨rfl, fun _ _ => id⟩

theorem trans (h₁ : h.GrowsTo h') (h₂ : h'.GrowsTo h'') : h.GrowsTo h'' :=
  ⟨h₂.cells_eq.trans h₁.cells_eq,
    fun i a ha => h₂.getElem?_eq_some i a (h₁.getElem?_eq_some i a ha)⟩

theorem allocText (h : Heap) (s : Bytes) : h.GrowsTo (h.allocText s).1 := ⟨rfl, fun _ _ => id⟩

theorem allocArray (h : Heap) (a : OrderedArray Val) : h.GrowsTo (h.allocArray a).1 := by
  refine ⟨rfl, ?_⟩
  intro i b hb
  have hi : i < h.arrays.size := (Array.getElem?_eq_some_iff.1 hb).1
  rw [Heap.allocArray, Array.getElem?_push_lt hi]
  exact hb ▸ (Array.getElem?_eq_getElem hi).symm

theorem deref_eq (hg : h.GrowsTo h') (v : Val) : h'.deref v = h.deref v :=
  deref_congr hg.cells_eq v

theorem interner_intern (i : Interner) (h : Heap) (s : Bytes) : h.GrowsTo (i.intern h s).2.1 := by
  rw [Interner.intern]
  split
  · exact refl h
  · exact allocText h s

end Heap.GrowsTo

namespace ValueTree

open Json

mutual

/-- A value denotes the same tree in a heap that has grown. -/
theorem Denotes.of_growsTo {h h' : Heap} {t : ValueTree} {v : Val} (ht : t.Denotes h v)
    (hg : h.GrowsTo h') : t.Denotes h' v := by
  match t with
  | .null | .bool _ | .int _ => exact (hg.deref_eq v).trans ht
  | .str s =>
    obtain ⟨buffer, hv⟩ := ht
    exact ⟨buffer, (hg.deref_eq v).trans hv⟩
  | .array es =>
    obtain ⟨r, a, hv, ha, he⟩ := ht
    exact ⟨r, a, (hg.deref_eq v).trans hv, hg.getElem?_eq_some _ a ha, he.of_growsTo hg⟩

theorem EntriesDenote.of_growsTo {h h' : Heap} {es : List (Key × ValueTree)}
    {vs : List (Key × Val)} (he : EntriesDenote h es vs) (hg : h.GrowsTo h') :
    EntriesDenote h' es vs := by
  match es with
  | [] => exact he
  | (k, t) :: es =>
    obtain ⟨v, rest, hv, ht, he⟩ := he
    exact ⟨v, rest, hv, ht.of_growsTo hg, he.of_growsTo hg⟩

end

/-- Whether a computation succeeds with a value that satisfies `p` in the heap that it leaves, and
only adds to the heap. -/
def Yields {α : Type} (x : Decoding α) (w : Workspace) (p : Heap → α → Prop) : Prop :=
  ∃ a w', x w = .ok a w' ∧ w.heap.GrowsTo w'.heap ∧ p w'.heap a

namespace Yields

variable {α β : Type} {w : Workspace} {p : Heap → α → Prop} {q : Heap → β → Prop}

theorem pure {a : α} (h : p w.heap a) : Yields (Pure.pure a) w p :=
  ⟨a, w, rfl, .refl _, h⟩

/-- What the first of two computations yields is used in the heap that it leaves. -/
theorem bind {x : Decoding α} {f : α → Decoding β} (hx : Yields x w p)
    (hf : ∀ a w', w.heap.GrowsTo w'.heap → p w'.heap a → Yields (f a) w' q) :
    Yields (x >>= f) w q := by
  obtain ⟨a, w₁, hx, hg, ha⟩ := hx
  obtain ⟨b, w₂, hb, hg', hq⟩ := hf a w₁ hg ha
  refine ⟨b, w₂, ?_, hg.trans hg', hq⟩
  change EStateM.bind x f w = _
  rw [EStateM.bind, hx]
  exact hb

end Yields

theorem yields_newString (s : Bytes) (w : Workspace) :
    Yields (newString s) w fun h v => (str s).Denotes h v :=
  ⟨_, _, rfl, .allocText w.heap s, w.heap.nextBuffer, Heap.deref_eq_self _ rfl⟩

theorem yields_newArray {es : List (Key × ValueTree)} {a : OrderedArray Val} {w : Workspace}
    (he : EntriesDenote w.heap es a.entries) :
    Yields (newArray a) w fun h v => (array es).Denotes h v := by
  have hg := Heap.GrowsTo.allocArray w.heap a
  exact ⟨_, _, rfl, hg, _, a, Heap.deref_eq_self _ rfl, Array.getElem?_push_size, he.of_growsTo hg⟩

/-- The text of a normal key names this key. -/
theorem yields_memberKey {k : Key} (hk : k.IsNormal) (w : Workspace) :
    Yields (memberKey k.text.chars) w fun _ l => l = k := by
  rw [memberKey, Bytes.encode_chars hk.isSome_decode?_text]
  cases k with
  | int i =>
    rw [Key.text_int, Numeral.canonicalInt?_decimalText]
    exact .pure rfl
  | str s =>
    rw [Key.text, hk.2]
    exact ⟨_, _, rfl, .interner_intern w.interner w.heap s, rfl⟩

/-- The keys of a list are the positions of its elements. -/
theorem zip_eq_enumerate {es : List (Key × ValueTree)} {vs : List Val} (h : hasListKeys es = true)
    (hl : vs.length = es.length) : (es.map Prod.fst).zip vs = OrderedArray.enumerate vs := by
  refine List.ext_getElem? ?_
  intro i
  rw [OrderedArray.getElem?_enumerate]
  obtain hi | hi := Nat.lt_or_ge i vs.length
  · have hk : (es.map Prod.fst)[i]? = some (.int (OrderedArray.index i)) := by
      have hi' : i < (es.map Prod.fst).length := by rw [List.length_map, ← hl]; exact hi
      have hm := List.all_eq_true.1 h ((es.map Prod.fst)[i], i)
        (List.mem_zipIdx_iff_getElem?.2 (List.getElem?_eq_getElem hi'))
      rw [List.getElem?_eq_getElem hi', of_decide_eq_true hm]
    have hv : vs[i]? = some vs[i] := List.getElem?_eq_getElem hi
    rw [hv]
    exact List.getElem?_zip_eq_some (z := (_, _)).2 ⟨hk, hv⟩
  · rw [List.getElem?_eq_none hi, List.getElem?_eq_none]
    · rfl
    · rw [List.length_zip]
      omega

mutual

/-- The document of a tree becomes a value that denotes the tree. -/
theorem yields_document {d : Decoder} (hd : d.objectsAsArrays = true) (style : JsonStyle)
    {t : ValueTree} (hw : t.WellFormed) (w : Workspace) :
    Yields (d.value (t.document style)) w fun h v => t.Denotes h v := by
  match t with
  | .null => exact .pure (Heap.deref_eq_self _ rfl)
  | .bool b => exact .pure (Heap.deref_eq_self _ rfl)
  | .int i =>
    rw [document, Decoder.value, Numeral.int64?_toInt]
    exact .pure (Heap.deref_eq_self _ rfl)
  | .str s =>
    rw [document, Decoder.value, Bytes.encode_chars hw]
    exact yields_newString s w
  | .array es =>
    rw [document]
    split
    next hO =>
      rw [Decoder.value, hd, if_pos rfl]
      have hempty : (∅ : OrderedArray Val).Bounded := Nat.zero_le _
      refine (yields_entries hd style hw.2 hw.1 hempty nofun w).bind ?_
      intro a w' _ ha
      obtain ⟨vs, hvs, he⟩ := ha
      exact yields_newArray (hvs ▸ he)
    next hO =>
      rw [Decoder.value]
      have hlist : hasListKeys es = true := by
        cases hk : hasListKeys es with
        | true => rfl
        | false => simp [isWrittenAsObject, hk] at hO
      refine (yields_items hd style hw.2 w).bind fun vs w' _ hvs => yields_newArray ?_
      have he := hvs.2
      rwa [zip_eq_enumerate hlist hvs.1] at he

theorem yields_items {d : Decoder} (hd : d.objectsAsArrays = true) (style : JsonStyle)
    {es : List (Key × ValueTree)} (hw : WellFormedEntries es) (w : Workspace) :
    Yields (d.items (items style es)) w fun h vs =>
      vs.length = es.length ∧ EntriesDenote h es ((es.map Prod.fst).zip vs) := by
  match es with
  | [] => exact .pure ⟨rfl, rfl⟩
  | (k, t) :: es =>
    rw [items, Decoder.items]
    apply (yields_document hd style hw.2.1 w).bind
    intro v w' _ hv
    apply (yields_items hd style hw.2.2 w').bind
    intro vs w'' hg hvs
    exact .pure ⟨congrArg (· + 1) hvs.1, v, _, rfl, hv.of_growsTo hg, hvs.2⟩

theorem yields_entries {d : Decoder} (hd : d.objectsAsArrays = true) (style : JsonStyle)
    {es : List (Key × ValueTree)} (hw : WellFormedEntries es) (hk : (es.map Prod.fst).Nodup)
    {a : OrderedArray Val} (ha : a.Bounded) (hnew : ∀ k ∈ a.keys, k ∉ es.map Prod.fst)
    (w : Workspace) :
    Yields (d.entries a (members style es)) w fun h b =>
      ∃ vs, b.entries = a.entries ++ vs ∧ EntriesDenote h es vs := by
  match es with
  | [] => exact .pure ⟨[], (List.append_nil _).symm, rfl⟩
  | (k, t) :: es =>
    rw [members, Decoder.entries]
    apply (yields_memberKey hw.1 w).bind
    intro l w₁ _ hl
    subst hl
    apply (yields_document hd style hw.2.1 w₁).bind
    intro v w₂ _ hv
    have hlk : l ∉ a.keys := fun h => hnew l h List.mem_cons_self
    obtain ⟨hle, hes⟩ := List.nodup_cons.1 hk
    have hi := OrderedArray.entries_insert_of_notMem ha hlk v
    have hnew' : ∀ k ∈ (a.insert l v).keys, k ∉ es.map Prod.fst := by
      intro k hk
      rw [OrderedArray.keys, hi, List.map_append, List.mem_append] at hk
      obtain hk | hk := hk
      · exact fun h => hnew k hk (List.mem_cons_of_mem l h)
      · rwa [List.mem_singleton.1 hk]
    obtain ⟨b, w₃, hb, hg, vs, hvs, he⟩ :=
      yields_entries hd style hw.2.2 hes (ha.insert l v) hnew' w₂
    refine ⟨b, w₃, hb, hg, (l, v) :: vs, ?_, v, vs, rfl, hv.of_growsTo hg, he⟩
    rw [hvs, hi, List.append_assoc]
    rfl

end

end ValueTree

end ObjectModel
