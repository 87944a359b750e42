import ObjectModel.Proofs.Json.Holding
import ObjectModel.Proofs.Json.Layout
import ObjectModel.Proofs.Json.Writing
/-!
# Writing values that hold documents

A value that holds a document is written as a text of the document, unless arrays are to be written
as objects. The containers around a value hold documents of greater
nesting than the value does, so the value is none of them; and as they are distinct, there are no
more of them than arrays and objects exist.
-/

namespace ObjectModel

namespace Json

theorem HeldBy.mem_handles {h : Heap} {first : Nat} {document : Json} {v : Val}
    (hv : document.HeldBy h first v) (hd : 0 < document.nesting) : v ∈ h.handles := by
  cases hv with
  | array hr => exact Heap.array_mem_handles (Array.getElem?_eq_some_iff.1 hr).1
  | object _ hr => exact Heap.object_mem_handles (Array.getElem?_eq_some_iff.1 hr).1
  | _ => exact absurd hd (Nat.lt_irrefl 0)

namespace Writer

/-- Whether `outer` are distinct containers that each hold a document of nesting greater than
`depth`. -/
structure HeldAround (h : Heap) (outer : List Val) (depth : Nat) : Prop where
  nodup : outer.Nodup
  deeper : ∀ o ∈ outer, o ∈ h.handles ∧
    ∃ document : Json, document.HeldBy h 0 o ∧ depth < document.nesting

/-- Whether the bounds of a writer leave room for a document of nesting `depth` inside `outer`. -/
structure Allows (w : Writer) (n : Nat) (outer : List Val) (depth : Nat) : Prop where
  around : HeldAround w.heap outer depth
  fuel : w.heap.arrays.size + w.heap.objects.size < n + outer.length
  room : outer.length + depth ≤ w.maxDepth

variable {w : Writer} {n depth depth' : Nat} {outer : List Val} {document : Json} {v : Val}

theorem allows_nil (hn : w.heap.arrays.size + w.heap.objects.size < n) (hd : depth ≤ w.maxDepth) :
    w.Allows n [] depth :=
  ⟨⟨List.nodup_nil, nofun⟩, hn, by rwa [List.length_nil, Nat.zero_add]⟩

theorem Allows.of_le (ha : w.Allows n outer depth) (hd : depth' ≤ depth) :
    w.Allows n outer depth' := by
  refine ⟨⟨ha.around.nodup, fun o ho => ?_⟩, ha.fuel, ?_⟩
  · obtain ⟨hm, document, hv, hlt⟩ := ha.around.deeper o ho
    exact ⟨hm, document, hv, Nat.lt_of_le_of_lt hd hlt⟩
  · exact Nat.le_trans (Nat.add_le_add_left hd _) ha.room

/-- The bound on how often the writer may go on is never reached. -/
theorem Allows.pos (ha : w.Allows n outer depth) : 0 < n := by
  have hsub : outer ⊆ w.heap.handles := fun o ho => (ha.around.deeper o ho).1
  have hlen := Heap.length_le_of_subset_handles ha.around.nodup hsub
  have hfuel := ha.fuel
  omega

theorem Allows.notMem (hv : document.HeldBy w.heap 0 v)
    (ha : w.Allows n outer document.nesting) : v ∉ outer := by
  intro hm
  obtain ⟨-, _, hv', hlt⟩ := ha.around.deeper v hm
  rw [hv'.unique hv] at hlt
  exact Nat.lt_irrefl _ hlt

/-- A container that holds a document is entered, and leaves room for what is in it. -/
theorem Allows.enter (hv : document.HeldBy w.heap 0 v) (hd : document.nesting = depth + 1)
    (ha : w.Allows (n + 1) outer document.nesting) :
    w.enter outer v = .ok (v :: outer) ∧ w.Allows n (v :: outer) depth := by
  have hnot := ha.notMem hv
  have hroom := ha.room
  have hfuel := ha.fuel
  constructor
  · exact enter_eq_ok_iff.2 ⟨hnot, by omega, rfl⟩
  · refine ⟨⟨List.nodup_cons.2 ⟨hnot, ha.around.nodup⟩, ?_⟩, ?_, ?_⟩
    · refine List.forall_mem_cons.2 ⟨⟨hv.mem_handles (by omega), document, hv, by omega⟩, ?_⟩
      exact (ha.of_le (hd ▸ Nat.le_succ depth)).around.deeper
    · rw [List.length_cons]
      omega
    · rw [List.length_cons]
      omega

/-- Whether a value is written as a text of a document. -/
def WritesAs (p : Parser) (write : Val → Except JsonError (List Char)) (document : Json) (v : Val) :
    Prop :=
  ∃ text, write v = .ok text ∧ p.Writes text document

variable {p : Parser}

/-- Values that are each written as a document are written one after another. -/
theorem exists_itemTexts {write : Val → Except JsonError (List Char)} {items : List Json}
    {vs : List Val}
    (h : List.Forall₂ (WritesAs p write) items vs) :
    ∃ texts, vs.mapM write = .ok texts ∧ List.Forall₂ p.SpellsAll texts (itemTokens items) := by
  induction h with
  | nil => exact ⟨[], rfl, .nil⟩
  | cons hv _ ih =>
    obtain ⟨text, hw, hspell⟩ := hv
    obtain ⟨texts, hws, hspells⟩ := ih
    refine ⟨text :: texts, ?_, .cons hspell hspells⟩
    rw [List.mapM_cons, hw, hws]
    rfl

theorem encodeText_ofString (style : JsonStyle) (name : String) :
    encodeText style (Bytes.ofString name) = .ok (quote style name.toList) := by
  rw [encodeText, show Bytes.ofString name = Bytes.Utf8.encode name.toList from rfl,
    Bytes.Utf8.decode?_encode]

/-- Properties with the names and values of members are written as the members. -/
theorem exists_memberTexts (style : JsonStyle) {write : Val → Except JsonError (List Char)}
    {members : List (List Char × Json)} {properties : List (String × Val)}
    (hnames : properties.map (·.1.toList) = members.map Prod.fst)
    (h : List.Forall₂ (WritesAs p write) (members.map Prod.snd) (properties.map Prod.snd)) :
    ∃ texts, ((properties.map fun (name, v) => (Bytes.ofString name, v)).mapM fun (name, v) => do
        return (← encodeText style name) ++ nameSeparator style ++ (← write v)) = .ok texts ∧
      List.Forall₂ p.SpellsAll texts (memberTokens members) := by
  induction members generalizing properties with
  | nil =>
    rw [List.map_eq_nil_iff.1 hnames]
    exact ⟨[], rfl, .nil⟩
  | cons e members ih =>
    cases properties with
    | nil => cases hnames
    | cons property properties =>
      obtain ⟨hname, hnames⟩ := List.cons.inj hnames
      have hname : property.1.toList = e.1 := hname
      obtain ⟨⟨text, hw, hspell⟩, hrest⟩ := List.forall₂_cons.1 h
      obtain ⟨texts, hws, hspells⟩ := ih hnames hrest
      have hmember := spellsAll_member style e.1 hspell
      refine ⟨(quote style e.1 ++ nameSeparator style ++ text) :: texts, ?_, .cons hmember hspells⟩
      rw [List.map_cons, List.mapM_cons, hws]
      simp only [encodeText_ofString, hw]
      rw [hname]
      rfl

/-- The public properties of an object whose slots are public and have values. -/
theorem publicProperties_eq_map {h : Heap} {o : Object}
    (hp : ∀ e ∈ o.slots.entries, e.2.visibility = .isPublic)
    (hv : ∀ v ∈ o.values, v.isUndefined = false ∧ v.isReference = false) :
    h.publicProperties o = o.slots.entries.map fun e => (e.1, e.2.value) := by
  rw [Heap.publicProperties, ← List.filterMap_eq_map]
  refine List.filterMap_congr fun e he => ?_
  obtain ⟨hu, hr⟩ := hv e.2.value (List.mem_map_of_mem he)
  simp [hp e he, Slot.isInitialized, hu, h.deref_eq_self hr]

/-- How an object is written that the writer may enter. -/
theorem write_object {inner : List Val} {r : ObjectRef}
    (he : w.enter outer (.object r) = .ok inner) :
    w.write (n + 1) outer (.object r) =
      w.writeMembers (w.write n inner) inner.length
        ((w.heap.publicProperties (w.heap.object r)).map fun (name, v) =>
          (Bytes.ofString name, v)) := by
  rw [write.eq_def]
  simp only [w.heap.deref_eq_self (v := .object r) rfl, he]
  rfl

theorem writesAs_array {items : List Json} {vs inner : List Val} {r : ArrayRef}
    (hforce : w.style.forceObject = false) (hr : w.heap.arrays[r.index]? = some (.packed vs))
    (henter : w.enter outer (.array r) = .ok inner)
    (hi : List.Forall₂ (WritesAs p (w.write n inner)) items vs) :
    WritesAs p (w.write (n + 1) outer) (.array items) (.array r) := by
  obtain ⟨texts, hws, hspells⟩ := exists_itemTexts hi
  have harray : w.heap.array r = .packed vs := by rw [Heap.array, hr, Option.getD_some]
  refine ⟨bracket w.style inner.length '[' ']' texts, ?_, ?_⟩
  · rw [write_array (w.heap.deref_eq_self rfl) henter, harray, hforce, OrderedArray.isList,
      OrderedArray.values_packed]
    show w.writeItems (w.write n inner) inner.length vs = _
    rw [writeItems, hws]
    rfl
  · rw [Parser.Writes, toTokens]
    exact spellsAll_bracket w.style _ rfl rfl hspells

theorem writesAs_object {members : List (List Char × Json)} {o : Object} {inner : List Val}
    {r : ObjectRef} (hr : w.heap.objects[r.index]? = some o)
    (henter : w.enter outer (.object r) = .ok inner)
    (hk : o.slots.keys.map String.toList = members.map Prod.fst)
    (hproperties : w.heap.publicProperties o = o.slots.entries.map fun e => (e.1, e.2.value))
    (hm : List.Forall₂ (WritesAs p (w.write n inner)) (members.map Prod.snd) o.values) :
    WritesAs p (w.write (n + 1) outer) (.object members) (.object r) := by
  have hobject : w.heap.object r = o := by rw [Heap.object, hr, Option.getD_some]
  have hnames : (w.heap.publicProperties o).map (·.1.toList) = members.map Prod.fst := by
    rw [hproperties, ← hk, OrderedMap.keys, List.map_map, List.map_map]
    rfl
  have hvalues : (w.heap.publicProperties o).map Prod.snd = o.values := by
    rw [hproperties, List.map_map]
    rfl
  obtain ⟨texts, hws, hspells⟩ := exists_memberTexts w.style hnames (hvalues ▸ hm)
  refine ⟨bracket w.style inner.length '\x7b' '\x7d' texts, ?_, ?_⟩
  · rw [write_object henter, hobject, writeMembers, hws]
    rfl
  · rw [Parser.Writes, toTokens]
    exact spellsAll_bracket w.style _ rfl rfl hspells

/-- A value that holds a document is written as this document. -/
theorem writesAs_of_heldBy (hp : p.IsCorrect) (hforce : w.style.forceObject = false)
    (hv : document.HeldBy w.heap 0 v) (ha : w.Allows n outer document.nesting) :
    WritesAs p (w.write n outer) document v := by
  induction document using Json.induction generalizing n outer v with
  | null =>
    cases hv
    refine ⟨"null".toList, ?_, Parser.Spells.null.all⟩
    rw [write.eq_def]
    simp only [w.heap.deref_eq_self (v := .null) rfl]
  | bool b =>
    cases hv
    cases b with
    | true =>
      refine ⟨"true".toList, ?_, (Parser.Spells.bool true).all⟩
      rw [write.eq_def]
      simp only [w.heap.deref_eq_self (v := .bool true) rfl]
    | false =>
      refine ⟨"false".toList, ?_, (Parser.Spells.bool false).all⟩
      rw [write.eq_def]
      simp only [w.heap.deref_eq_self (v := .bool false) rfl]
  | int i =>
    cases hv with
    | int i =>
      refine ⟨decimalText i.toInt, ?_, (spells_decimalText hp i).all⟩
      rw [write.eq_def]
      simp only [w.heap.deref_eq_self (v := .int i) rfl]
  | float d => cases hv
  | string s =>
    cases hv with
    | string s buffer =>
      refine ⟨quote w.style s, ?_, (spells_quote w.style s).all⟩
      rw [write.eq_def]
      simp only [w.heap.deref_eq_self (v := .str ⟨Bytes.Utf8.encode s, buffer⟩) rfl]
      rw [encodeText, Bytes.Utf8.decode?_encode]
  | array items ih =>
    obtain ⟨n, rfl⟩ := Nat.exists_eq_add_one.2 ha.pos
    obtain ⟨henter, hinner⟩ := ha.enter hv rfl
    cases hv with
    | array hr hi =>
      refine writesAs_array hforce hr henter (forall₂_imp_of_mem (fun u hu x hx => ?_) hi)
      exact ih u hu hx (hinner.of_le (nesting_le_of_mem_items hu))
  | object members ih =>
    obtain ⟨n, rfl⟩ := Nat.exists_eq_add_one.2 ha.pos
    obtain ⟨henter, hinner⟩ := ha.enter hv rfl
    cases hv with
    | object _ hr hk hp hm =>
      have hproperties := publicProperties_eq_map (h := w.heap) hp fun x hx => by
        obtain ⟨u, -, hu⟩ := exists_of_mem_right hm hx
        exact ⟨hu.isUndefined_eq_false, hu.isReference_eq_false⟩
      refine writesAs_object hr henter hk hproperties ?_
      refine forall₂_imp_of_mem (List.forall_mem_map.2 fun e he x hx => ?_) hm
      exact ih e he hx (hinner.of_le (nesting_le_of_mem_members he))

end Writer

end Json

end ObjectModel
