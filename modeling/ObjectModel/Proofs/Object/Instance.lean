import ObjectModel.Proofs.Object.InPlace
/-!
# Instances of classes

An instance of a class has a slot for every property that the class declares for instances, and each
slot says of its property what the declaration says. New objects are such. Their slots hold copies
of the defaults, and a copy is entered before what it refers to is copied, so that nothing that
happens then reaches it.
-/

namespace ObjectModel

/-- Whether an object has the slots that a class declares, and no others. -/
structure Object.IsInstanceOf (o : Object) (c : ClassDef) : Prop where
  cls_eq : o.cls = c
  keys_eq : o.slots.keys = c.instanceProperties.keys
  exists_of_get? : ∀ name s, o.slots.get? name = some s →
    ∃ p, c.instanceProperties.get? name = some p ∧ s = .ofProperty p s.value

/-- Giving slots other values does not matter. -/
theorem Object.IsInstanceOf.withSlots {o : Object} {c : ClassDef} {slots : OrderedMap String Slot}
    (ho : o.IsInstanceOf c) (hk : slots.keys = o.slots.keys)
    (hs : ∀ name s, slots.get? name = some s →
      ∃ s', o.slots.get? name = some s' ∧ s = { s' with value := s.value }) :
    { o with slots }.IsInstanceOf c := by
  refine ⟨ho.cls_eq, hk.trans ho.keys_eq, ?_⟩
  intro name s hg
  obtain ⟨s', hg', he⟩ := hs name s hg
  obtain ⟨p, hp, he'⟩ := ho.exists_of_get? name s' hg'
  refine ⟨p, hp, ?_⟩
  rw [he, he']
  rfl

theorem OrderedArray.mapAccum_induction {σ α : Type} {f : σ → α → σ × α} {P : σ → Prop}
    (hf : ∀ s a, P s → P (f s a).1) {s : σ} (hs : P s) (a : OrderedArray α) :
    P (a.mapAccum f s).1 := by
  cases a with
  | packed vs => exact ObjectModel.mapAccum_induction hf hs vs
  | hash m n => exact OrderedMap.mapAccum_induction hf hs m

namespace Heap

variable {h h' : Heap} {c : ClassDef} {r : ObjectRef}

theorem copyWithin_undefined (n : Nat) (s : Copying) :
    copyWithin n s .undefined = (s, .undefined) := by
  cases n <;> rfl

theorem deepCopy_undefined (h : Heap) : h.deepCopy .undefined = (h, .undefined) := by
  rw [deepCopy, copyWithin_undefined]

theorem object_allocObject (h : Heap) (o : Object) :
    (h.allocObject o).1.object (h.allocObject o).2 = o := by
  simp [allocObject, object]

theorem keys_initialSlots (h : Heap) (c : ClassDef) :
    (h.initialSlots c).2.keys = c.instanceProperties.keys :=
  OrderedMap.keys_mapAccum _ _

theorem exists_of_get?_initialSlots {name : String} {s : Slot}
    (hs : (h.initialSlots c).2.get? name = some s) :
    ∃ p h₀, c.instanceProperties.get? name = some p ∧
      s = .ofProperty p (deepCopy h₀ p.default).2 := by
  obtain ⟨h₀, p, hp, rfl⟩ := OrderedMap.exists_of_get?_mapAccum hs
  exact ⟨p, h₀, hp, rfl⟩

theorem allocObject_of_instantiate (hi : h.instantiate c = .ok (h', r)) :
    (h.initialSlots c).1.allocObject ⟨c, (h.initialSlots c).2⟩ = (h', r) := by
  rw [instantiate] at hi
  split at hi
  · exact Except.ok.inj hi
  · cases hi

theorem object_of_instantiate (hi : h.instantiate c = .ok (h', r)) :
    h'.object r = ⟨c, (h.initialSlots c).2⟩ := by
  have hself := object_allocObject (h.initialSlots c).1 ⟨c, (h.initialSlots c).2⟩
  rwa [allocObject_of_instantiate hi] at hself

/-- A new object is an instance of its class, and its slots hold copies of the defaults. -/
theorem isInstanceOf_of_instantiate (hi : h.instantiate c = .ok (h', r)) :
    (h'.object r).IsInstanceOf c ∧ ∀ name s, (h'.object r).slots.get? name = some s →
      ∃ p h₀, c.instanceProperties.get? name = some p ∧
        s = .ofProperty p (deepCopy h₀ p.default).2 := by
  rw [object_of_instantiate hi]
  constructor
  · refine ⟨rfl, keys_initialSlots h c, ?_⟩
    intro name s hs
    obtain ⟨p, h₀, hp, rfl⟩ := exists_of_get?_initialSlots hs
    exact ⟨p, hp, rfl⟩
  · intro name s hs
    exact exists_of_get?_initialSlots hs

/-- An instantiable class has instances. -/
theorem exists_instantiate (hc : c.isInstantiable = true) (h : Heap) :
    ∃ h' r, h.instantiate c = .ok (h', r) ∧ (h'.object r).IsInstanceOf c := by
  have hi : h.instantiate c =
      .ok ((h.initialSlots c).1.allocObject ⟨c, (h.initialSlots c).2⟩) := by
    rw [instantiate, if_pos hc]
  exact ⟨_, _, hi, (isInstanceOf_of_instantiate hi).1⟩

/-- Whether a heap has, among others, the objects of `h` where `h` has them. -/
def KeepsObjects (h h' : Heap) : Prop :=
  ∀ (i : Nat) (o : Object), h.objects[i]? = some o → h'.objects[i]? = some o

theorem KeepsObjects.trans {h'' : Heap} (h₁ : h.KeepsObjects h') (h₂ : h'.KeepsObjects h'') :
    h.KeepsObjects h'' := fun i o ho => h₂ i o (h₁ i o ho)

theorem KeepsObjects.object_eq (hk : h.KeepsObjects h') (hr : r.index < h.objects.size) :
    h'.object r = h.object r := by
  have ho := Array.getElem?_eq_getElem hr
  rw [object, object, hk _ _ ho, ho]

theorem keepsObjects_allocObject (h : Heap) (o : Object) :
    h.KeepsObjects (h.allocObject o).1 := by
  intro i o' ho
  rwa [allocObject, Array.getElem?_push_lt (Array.getElem?_eq_some_iff.1 ho).1,
    ← Array.getElem?_eq_getElem]

theorem KeepsObjects.setObject (hk : h.KeepsObjects h') (hr : h.objects.size ≤ r.index)
    (o : Object) : h.KeepsObjects (h'.setObject r o) := by
  intro i o' ho
  have hi := (Array.getElem?_eq_some_iff.1 ho).1
  rw [Heap.setObject, Array.getElem?_setIfInBounds_ne (by omega)]
  exact hk i o' ho

private theorem keepsObjects_copySlots {n : Nat}
    (hn : ∀ (s : Copying) v, s.heap.KeepsObjects (copyWithin n s v).1.heap) (s : Copying)
    (slots : OrderedMap String Slot) :
    s.heap.KeepsObjects (slots.mapAccum (fun s slot =>
      let (s, v) := copyWithin n s slot.value
      (s, { slot with value := v })) s).1.heap := by
  apply OrderedMap.mapAccum_induction (P := fun s' : Copying => s.heap.KeepsObjects s'.heap)
  · intro s' slot hs
    exact hs.trans (hn s' slot.value)
  · exact fun _ _ => id

/-- Copying leaves the objects that are there alone. -/
theorem keepsObjects_copyWithin (n : Nat) (s : Copying) (v : Val) :
    s.heap.KeepsObjects (copyWithin n s v).1.heap := by
  induction n generalizing s v with
  | zero => exact fun _ _ => id
  | succ n ih =>
    cases v with
    | array r =>
      rw [copyWithin]
      exact OrderedArray.mapAccum_induction (P := fun s' => s.heap.KeepsObjects s'.heap)
        (fun s' v hs => hs.trans (ih s' v)) (fun _ _ => id) (s.heap.array r)
    | object r =>
      rw [copyWithin]
      split
      · exact fun _ _ => id
      · refine KeepsObjects.setObject ?_ (Nat.le_refl _) _
        exact (keepsObjects_allocObject _ _).trans
          (keepsObjects_copySlots ih ⟨_, (r, ⟨s.heap.objects.size⟩) :: s.copies⟩ _)
    | _ => exact fun _ _ => id

/-- Creating an object leaves those that are there alone, and so does each copy of a default. -/
theorem exists_between_of_get?_instantiate {name : String} {s : Slot}
    (hi : h.instantiate c = .ok (h', r)) (hs : (h'.object r).slots.get? name = some s) :
    ∃ p h₀, c.instanceProperties.get? name = some p ∧
      s = .ofProperty p (deepCopy h₀ p.default).2 ∧ h.KeepsObjects h₀ ∧
      (deepCopy h₀ p.default).1.KeepsObjects h' := by
  have hcopy (h₀ : Heap) (p : PropertyDef) : h₀.KeepsObjects (h₀.deepCopy p.default).1 :=
    keepsObjects_copyWithin h₀.copyDepth { heap := h₀ } p.default
  have halloc := keepsObjects_allocObject (h.initialSlots c).1 ⟨c, (h.initialSlots c).2⟩
  rw [allocObject_of_instantiate hi] at halloc
  rw [object_of_instantiate hi] at hs
  change (h.initialSlots c).2.get? name = some s at hs
  obtain ⟨h₀, p, hp, rfl, hbefore, hafter⟩ :=
    OrderedMap.exists_between_of_get?_mapAccum (R := KeepsObjects) hs (fun _ _ _ => id)
      (fun _ _ _ => KeepsObjects.trans) hcopy
  exact ⟨p, h₀, hp, rfl, hbefore, hafter.trans halloc⟩

/-- The copy of an object differs from it in the slots only. -/
theorem exists_deepCopy_object (h : Heap) (r : ObjectRef) :
    ∃ r' slots, (h.deepCopy (.object r)).2 = .object r' ∧
      r'.index < (h.deepCopy (.object r)).1.objects.size ∧
      (h.deepCopy (.object r)).1.object r' = { h.object r with slots } := by
  obtain ⟨n, hn⟩ : ∃ n, h.copyDepth = n + 1 := ⟨_, rfl⟩
  rw [deepCopy, hn, copyWithin]
  dsimp only [List.lookup_nil]
  -- the copy stays where it was entered while its slots are copied
  have hk := keepsObjects_copySlots (keepsObjects_copyWithin n)
    ⟨(h.allocObject { h.object r with slots := ∅ }).1, [(r, ⟨h.objects.size⟩)]⟩
    (h.object r).slots
  have hnew := hk h.objects.size { h.object r with slots := ∅ } (by simp [allocObject])
  have hlt := (Array.getElem?_eq_some_iff.1 hnew).1
  refine ⟨(h.allocObject { h.object r with slots := ∅ }).2, _, rfl, ?_,
    object_setObject_self _ hlt⟩
  rwa [setObject, Array.size_setIfInBounds]

end Heap

end ObjectModel
