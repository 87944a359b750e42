import ObjectModel.Json.Decoder
import ObjectModel.Proofs.Json.Holding
import ObjectModel.Proofs.Json.Writing
import ObjectModel.Proofs.Object.Access
/-!
# Decoding documents into objects

A decoder that makes objects of a class without properties yields, when it succeeds, a value that
holds the document: each object is created empty, and each member adds one public slot at the end,
because its name is new. Decoding the value of a member changes none of the objects before it, and
adding the member changes only the object that it belongs to, which was created first.
-/

namespace ObjectModel.Json

/-- A computation of two parts succeeds where both do. -/
theorem Decoding.exists_of_bind_eq_ok {α β : Type} {x : Decoding α} {f : α → Decoding β}
    {w w' : Workspace} {b : β} (h : (x >>= f) w = .ok b w') :
    ∃ a w₁, x w = .ok a w₁ ∧ f a w₁ = .ok b w' := by
  change EStateM.bind x f w = _ at h
  rw [EStateM.bind] at h
  cases hx : x w with
  | ok a w₁ =>
    rw [hx] at h
    exact ⟨a, w₁, rfl, h⟩
  | error e w₁ =>
    rw [hx] at h
    cases h

variable {d : Decoder} {w w' : Workspace} {r : ObjectRef}

theorem initialSlots_of_eq_empty {c : ClassDef} (hc : c.instanceProperties = ∅) (h : Heap) :
    h.initialSlots c = (h, ∅) := by
  rw [Heap.initialSlots, hc]
  rfl

/-- An object of a class without properties starts out without slots. -/
theorem of_newObject (hd : ∀ c, d.objectClass? = some c → c.instanceProperties = ∅)
    (h : newObject d w = .ok r w') :
    r = ⟨w.heap.objects.size⟩ ∧ ∃ c, w'.heap = (w.heap.allocObject ⟨c, ∅⟩).1 := by
  rw [newObject.eq_def] at h
  cases hc : d.objectClass? with
  | none =>
    rw [hc] at h
    cases h
  | some c =>
    rw [hc] at h
    obtain ⟨_, _, hg, h⟩ := Decoding.exists_of_bind_eq_ok h
    cases hg
    rw [Heap.instantiate, initialSlots_of_eq_empty (hd c hc)] at h
    by_cases hi : c.isInstantiable = true
    · rw [if_pos hi] at h
      cases h
      exact ⟨rfl, c, rfl⟩
    · rw [if_neg hi] at h
      cases h

/-- A member with a new name becomes the last slot of the object. -/
theorem of_setMember {o : Object} {name : List Char} {v : Val}
    (ho : w.heap.objects[r.index]? = some o) (hname : String.ofList name ∉ o.slots.keys)
    (hv : v.isReference = false) {u : Unit} (h : setMember r name v w = .ok u w') :
    w'.heap = w.heap.setObject r
      { o with slots := o.slots.insert (String.ofList name) (.dynamic o.cls.name v) } := by
  obtain ⟨_, _, hg, h⟩ := Decoding.exists_of_bind_eq_ok h
  cases hg
  have hobject : w.heap.object r = o := by rw [Heap.object, ho, Option.getD_some]
  cases hset : w.heap.setProperty r (String.ofList name) v none with
  | error e =>
    rw [hset] at h
    cases h
  | ok heap =>
    rw [hset] at h
    cases h
    have hnone := OrderedMap.get?_eq_none_iff.2 hname
    obtain ⟨-, -, he⟩ | ⟨s, -, hs, -⟩ := Heap.exists_of_setProperty hset
    · rw [hobject, Heap.deref_eq_self _ hv] at he
      exact he
    · rw [hobject, hnone] at hs
      cases hs

/-- Whether decoding a document, if it succeeds, keeps all arrays and objects and yields a value
that holds the document in new objects. -/
def Decoder.Delivers (d : Decoder) (document : Json) : Prop :=
  ∀ w v w', d.value document w = .ok v w' → w.heap.Keeps (fun _ => True) w'.heap ∧
    document.HeldBy w'.heap w.heap.objects.size v

theorem forall₂_of_items {items : List Json} (hi : ∀ v ∈ items, d.Delivers v) {vs : List Val}
    (h : d.items items w = .ok vs w') : w.heap.Keeps (fun _ => True) w'.heap ∧
      List.Forall₂ (HeldBy w'.heap w.heap.objects.size) items vs := by
  induction items generalizing w vs with
  | nil =>
    cases h
    exact ⟨.refl _ _, .nil⟩
  | cons document items ih =>
    obtain ⟨hdocument, hi⟩ := List.forall_mem_cons.1 hi
    rw [Decoder.items] at h
    obtain ⟨v, w₁, hv, h⟩ := Decoding.exists_of_bind_eq_ok h
    obtain ⟨vs, w₂, hvs, h⟩ := Decoding.exists_of_bind_eq_ok h
    cases h
    obtain ⟨hk, hv⟩ := hdocument w v w₁ hv
    obtain ⟨hk', hvs⟩ := ih hi hvs
    refine ⟨hk.trans hk', .cons (hv.of_keeps (hk'.mono fun _ _ => trivial) (Nat.le_refl _)) ?_⟩
    exact hvs.imp fun _ _ hu => hu.of_keeps (.refl _ _) hk.size_objects_le

/-- Decoding one member with a new name adds a slot to the object. Its value holds the document of
the member in objects that come after this one. -/
theorem exists_of_properties_cons {name : List Char} {document : Json}
    {members : List (List Char × Json)} (hdocument : d.Delivers document) {o : Object}
    (ho : w.heap.objects[r.index]? = some o) (hname : String.ofList name ∉ o.slots.keys) {u : Unit}
    (h : d.properties r ((name, document) :: members) w = .ok u w') :
    ∃ v w₁, d.properties r members w₁ = .ok u w' ∧ w.heap.Keeps (· ≠ r.index) w₁.heap ∧
      w₁.heap.objects[r.index]? = some
        { o with slots := o.slots.insert (String.ofList name) (.dynamic o.cls.name v) } ∧
      document.HeldBy w₁.heap (r.index + 1) v := by
  rw [Decoder.properties] at h
  by_cases hzero : name.head? = some '\x00'
  · rw [if_pos hzero] at h
    cases h
  rw [if_neg hzero] at h
  obtain ⟨v, w₁, hv, h⟩ := Decoding.exists_of_bind_eq_ok h
  obtain ⟨_, w₂, hset, h⟩ := Decoding.exists_of_bind_eq_ok h
  obtain ⟨hk₁, hv⟩ := hdocument w v w₁ hv
  have ho₁ := hk₁.objects _ _ trivial ho
  have hheap := of_setMember ho₁ hname hv.isReference_eq_false hset
  have hk₂ : w₁.heap.Keeps (· ≠ r.index) w₂.heap := by
    rw [hheap]
    exact .setObject ..
  have hlt : r.index < w.heap.objects.size := (Array.getElem?_eq_some_iff.1 ho).1
  refine ⟨v, w₂, h, (hk₁.mono fun _ _ => trivial).trans hk₂, ?_, ?_⟩
  · rw [hheap, Heap.setObject,
      Array.getElem?_setIfInBounds_self_of_lt (Array.getElem?_eq_some_iff.1 ho₁).1]
  · exact hv.of_keeps (hk₂.mono fun i hi => by omega) hlt

/-- Members with new names are added to an object one after another. -/
theorem exists_slots_of_properties {members : List (List Char × Json)}
    (hm : ∀ e ∈ members, d.Delivers e.2) (hdistinct : (members.map Prod.fst).Nodup) {o : Object}
    (ho : w.heap.objects[r.index]? = some o)
    (hnew : ∀ e ∈ members, String.ofList e.1 ∉ o.slots.keys) {u : Unit}
    (h : d.properties r members w = .ok u w') :
    w.heap.Keeps (· ≠ r.index) w'.heap ∧
      ∃ o' slots, w'.heap.objects[r.index]? = some o' ∧
        o'.slots.entries = o.slots.entries ++ slots ∧
        slots.map (·.1.toList) = members.map Prod.fst ∧
        (∀ e ∈ slots, e.2.visibility = .isPublic) ∧
        List.Forall₂ (HeldBy w'.heap (r.index + 1)) (members.map Prod.snd)
          (slots.map (·.2.value)) := by
  induction members generalizing w o with
  | nil =>
    cases h
    exact ⟨.refl _ _, o, [], ho, (List.append_nil _).symm, rfl, nofun, .nil⟩
  | cons e members ih =>
    obtain ⟨name, document⟩ := e
    obtain ⟨hdocument, hm⟩ := List.forall_mem_cons.1 hm
    obtain ⟨hname, hnew⟩ := List.forall_mem_cons.1 hnew
    rw [List.map_cons, List.nodup_cons] at hdistinct
    obtain ⟨v, w₁, h, hk₁, ho₁, hv⟩ := exists_of_properties_cons hdocument ho hname h
    have hnew₁ : ∀ e ∈ members, String.ofList e.1 ∉
        (o.slots.insert (String.ofList name) (.dynamic o.cls.name v)).keys := by
      intro e he hmem
      obtain heq | hmem := OrderedMap.mem_keys_insert.1 hmem
      · have hname' := List.mem_map_of_mem (f := Prod.fst) he
        rw [String.ofList_injective heq] at hname'
        exact hdistinct.1 hname'
      · exact hnew e he hmem
    obtain ⟨hk₂, o', slots, ho', hslots, hnames, hpublic, hvalues⟩ :=
      ih hm hdistinct.2 ho₁ hnew₁ h
    refine ⟨hk₁.trans hk₂, o', (String.ofList name, .dynamic o.cls.name v) :: slots, ho', ?_, ?_,
      ?_, ?_⟩
    · rw [hslots, OrderedMap.entries_insert_of_notMem _ hname, List.append_assoc]
      rfl
    · rw [List.map_cons, hnames, String.toList_ofList]
      rfl
    · exact List.forall_mem_cons.2 ⟨rfl, hpublic⟩
    · exact .cons (hv.of_keeps (hk₂.mono fun i hi => by omega) (Nat.le_refl _)) hvalues

namespace Decoder.Delivers

theorem array {items : List Json} (hi : ∀ v ∈ items, d.Delivers v) :
    d.Delivers (.array items) := by
  intro w v w' h
  rw [Decoder.value] at h
  obtain ⟨vs, w₁, hvs, h⟩ := Decoding.exists_of_bind_eq_ok h
  obtain ⟨hk, hvs⟩ := forall₂_of_items hi hvs
  cases h
  have hk' := Heap.Keeps.allocArray (fun _ => True) w₁.heap (.ofList vs)
  refine ⟨hk.trans hk', .array Array.getElem?_push_size ?_⟩
  exact hvs.imp fun _ _ hu => hu.of_keeps (hk'.mono fun _ _ => trivial) (Nat.le_refl _)

theorem object (harrays : d.objectsAsArrays = false)
    (hclass : ∀ c, d.objectClass? = some c → c.instanceProperties = ∅)
    {members : List (List Char × Json)} (hm : ∀ e ∈ members, d.Delivers e.2)
    (hdistinct : (members.map Prod.fst).Nodup) : d.Delivers (.object members) := by
  intro w v w' h
  rw [Decoder.value, harrays, if_neg Bool.false_ne_true] at h
  obtain ⟨r, w₁, hr, h⟩ := Decoding.exists_of_bind_eq_ok h
  obtain ⟨_, w₂, hp, h⟩ := Decoding.exists_of_bind_eq_ok h
  cases h
  obtain ⟨rfl, c, hheap⟩ := of_newObject hclass hr
  have hk₁ : w.heap.Keeps (fun _ => True) w₁.heap := by
    rw [hheap]
    exact .allocObject ..
  have ho : w₁.heap.objects[w.heap.objects.size]? = some ⟨c, ∅⟩ := by
    rw [hheap]
    exact Array.getElem?_push_size
  obtain ⟨hk₂, o, slots, ho', hslots, hkeys, hpublic, hvalues⟩ :=
    exists_slots_of_properties (r := ⟨w.heap.objects.size⟩) hm hdistinct ho
      (fun _ _ => List.not_mem_nil) hp
  have hentries : o.slots.entries = slots := hslots
  constructor
  · -- filling the object changes none of those that were there before it was created
    refine ⟨fun i a ha => hk₂.arrays i a (hk₁.arrays i a ha), fun i o hi ho => ?_⟩
    have hlt := (Array.getElem?_eq_some_iff.1 ho).1
    exact hk₂.objects i o (Nat.ne_of_lt hlt) (hk₁.objects i o trivial ho)
  · refine .object (Nat.le_refl _) ho' ?_ ?_ ?_
    · rw [OrderedMap.keys, hentries, List.map_map]
      exact hkeys
    · rw [hentries]
      exact hpublic
    · rw [Object.values, hentries]
      exact hvalues.imp fun _ _ hu => hu.of_keeps (.refl _ _) (Nat.le_succ _)

end Decoder.Delivers

/-- What a decoder makes of a document whose numbers are machine integers and in which no object has
a name twice. -/
theorem delivers (harrays : d.objectsAsArrays = false)
    (hclass : ∀ c, d.objectClass? = some c → c.instanceProperties = ∅) {document : Json}
    (hexact : document.all isExact) (hnames : document.all hasDistinctNames) :
    d.Delivers document := by
  induction document using Json.induction with
  | null =>
    intro w v w' h
    cases h
    exact ⟨.refl _ _, .null⟩
  | bool b =>
    intro w v w' h
    cases h
    exact ⟨.refl _ _, .bool b⟩
  | int i =>
    intro w v w' h
    obtain ⟨n, hn⟩ := Option.isSome_iff_exists.1 hexact
    rw [Decoder.value, hn] at h
    cases h
    exact ⟨.refl _ _, Numeral.toInt_of_int64? hn ▸ .int n⟩
  | float x => cases hexact
  | string s =>
    intro w v w' h
    cases h
    exact ⟨.allocText _ w.heap (Bytes.Utf8.encode s), .string s _⟩
  | array items ih =>
    obtain ⟨-, he⟩ := all_array_iff.1 hexact
    obtain ⟨-, hn⟩ := all_array_iff.1 hnames
    exact .array fun v hv => ih v hv (he v hv) (hn v hv)
  | object members ih =>
    obtain ⟨-, he⟩ := all_object_iff.1 hexact
    obtain ⟨hdistinct, hn⟩ := all_object_iff.1 hnames
    exact .object harrays hclass (fun e hm => ih e hm (he e hm) (hn e hm))
      (hasDistinctNames_object_iff.1 hdistinct)

end ObjectModel.Json
