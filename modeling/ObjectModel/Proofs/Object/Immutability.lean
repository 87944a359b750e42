import ObjectModel.Proofs.Class.Readonly
import ObjectModel.Proofs.Object.Instance
/-!
# Instances of readonly classes

An access leaves an instance of a readonly class as it is or gives one of its slots another value,
`stepsTo_access`: the class allows no dynamic properties, so that none is added, and none of the
slots is one, so that none is removed. A readonly slot takes a value only while it has none. Hence
in the course of accesses to any objects from any scopes a readonly slot changes at most once, from
no value to one. By `Reachable.isReadonly_iff` every slot is readonly unless it comes from a trait
that does not say so, and such a slot may change at will.
-/

namespace ObjectModel

/-- What an access can do to an instance of a readonly class. -/
inductive Object.StepsTo (o : Object) : Object → Prop
  | unchanged : StepsTo o o
  | write {name : String} {s : Slot} {v : Val} : o.slots.get? name = some s →
      (s.isReadonly = true →
        s.value.isUndefined = true ∧ (s.type?.isSome → v.isUndefined = false)) →
      StepsTo o { o with slots := o.slots.insert name { s with value := v } }

theorem Val.eq_undefined_of_isUndefined {v : Val} (h : v.isUndefined = true) : v = .undefined := by
  cases v <;> first | rfl | cases h

namespace Object.StepsTo

variable {o o' : Object} {c : ClassDef} {name : String} {s : Slot}

theorem isInstanceOf (hs : o.StepsTo o') (ho : o.IsInstanceOf c) : o'.IsInstanceOf c := by
  cases hs with
  | unchanged => exact ho
  | write hg _ =>
    refine ho.withSlots (OrderedMap.keys_insert_of_mem _ (OrderedMap.mem_keys_of_get? hg)) ?_
    intro name s hs
    obtain ⟨rfl, rfl⟩ | hold := OrderedMap.of_get?_insert hs
    · exact ⟨_, hg, rfl⟩
    · exact ⟨s, hold, rfl⟩

/-- A readonly slot keeps its value if it has one. -/
theorem get?_of_isReadonly (hs : o.StepsTo o') (hg : o.slots.get? name = some s)
    (hr : s.isReadonly = true) (ht : s.type?.isSome) :
    ∃ v, o'.slots.get? name = some { s with value := v } ∧
      (v = s.value ∨ s.value.isUndefined = true ∧ v.isUndefined = false) := by
  cases hs with
  | unchanged => exact ⟨s.value, hg, .inl rfl⟩
  | @write name' s' v hg' hw =>
    dsimp only
    rw [OrderedMap.get?_insert]
    split
    next he =>
      cases (he ▸ hg').symm.trans hg
      exact ⟨v, rfl, .inr ⟨(hw hr).1, (hw hr).2 ht⟩⟩
    next => exact ⟨s.value, hg, .inl rfl⟩

end Object.StepsTo

namespace Heap

variable {h : Heap} {r : ObjectRef} {c : ClassDef} {name : String} {s : Slot}

theorem stepsTo_access (ho : (h.object r).IsInstanceOf c) (hr : c.isReadonly = true) (a : Access) :
    (h.object r).StepsTo ((h.access a).object r) := by
  have hlt : r.index < h.objects.size := lt_size_of_isReadonly (ho.cls_eq ▸ hr)
  rw [access_eq]
  split
  next h' ha =>
    cases a with
    | set r' name v scope? =>
      obtain ⟨-, hd, rfl⟩ | ⟨s, w, hg, hc, hw, rfl⟩ := exists_of_setProperty ha
      · by_cases he : r = r'
        · subst he
          simp [Object.allowsDynamic, ho.cls_eq, hr] at hd
        · rw [object_setObject_of_ne _ he]
          exact .unchanged
      · by_cases he : r = r'
        · subst he
          rw [object_setObject_self _ (by rwa [size_objects_assign])]
          apply Object.StepsTo.write hg
          intro hro
          have hu := (Slot.of_checkReadonly hc hro).1
          refine ⟨hu, ?_⟩
          intro ht
          rw [Val.eq_undefined_of_isUndefined hu]
          exact isUndefined_assign_of_coerceIfTyped ht hw
        · rw [object_setObject_of_ne _ he, object_assign]
          exact .unchanged
    | unset r' name scope? =>
      obtain rfl | ⟨s, hg, hro, rfl⟩ := exists_of_unsetProperty ha
      · exact .unchanged
      · by_cases he : r = r'
        · subst he
          obtain ⟨p, -, hp⟩ := ho.exists_of_get? name s hg
          have hd : s.isDynamic = false := by rw [hp]; rfl
          rw [object_setObject_self _ hlt, if_neg (by simp [hd])]
          exact .write hg fun h => by cases hro.symm.trans h
        · rw [object_setObject_of_ne _ he]
          exact .unchanged
  next => exact .unchanged

def valuesOf (h : Heap) (r : ObjectRef) (name : String) (as : List Access) : List (Option Val) :=
  (h.states as).map fun h => ((h.object r).slots.get? name).map (·.value)

theorem valuesOf_cons (h : Heap) (r : ObjectRef) (name : String) (a : Access) (as : List Access) :
    h.valuesOf r name (a :: as) =
      ((h.object r).slots.get? name).map (·.value) :: (h.access a).valuesOf r name as := rfl

/-- An instance of a readonly class remains one. -/
theorem isInstanceOf_of_mem_states (ho : (h.object r).IsInstanceOf c) (hr : c.isReadonly = true)
    (as : List Access) : ∀ h' ∈ h.states as, (h'.object r).IsInstanceOf c := by
  induction as generalizing h with
  | nil => simpa [states] using ho
  | cons a as ih =>
    rw [states, List.forall_mem_cons]
    exact ⟨ho, ih ((stepsTo_access ho hr a).isInstanceOf ho)⟩

/-- A readonly slot that has a value keeps it. -/
theorem valuesOf_of_initialized (ho : (h.object r).IsInstanceOf c) (hr : c.isReadonly = true)
    (hg : (h.object r).slots.get? name = some s) (hs : s.isReadonly = true) (ht : s.type?.isSome)
    (hv : s.value.isUndefined = false) (as : List Access) :
    h.valuesOf r name as = List.replicate (as.length + 1) (some s.value) := by
  induction as generalizing h with
  | nil => simp [valuesOf, states, hg]
  | cons a as ih =>
    have hstep := stepsTo_access ho hr a
    obtain ⟨v, hg', rfl | ⟨hu, -⟩⟩ := hstep.get?_of_isReadonly hg hs ht
    · rw [valuesOf_cons, hg, ih (hstep.isInstanceOf ho) hg']
      rfl
    · rw [hv] at hu
      cases hu

/-- A readonly slot changes at most once, from no value to one. -/
theorem exists_valuesOf_eq (ho : (h.object r).IsInstanceOf c) (hr : c.isReadonly = true)
    (hg : (h.object r).slots.get? name = some s) (hs : s.isReadonly = true) (ht : s.type?.isSome)
    (as : List Access) :
    ∃ i j v, v.isUndefined = false ∧ h.valuesOf r name as =
      List.replicate i (some .undefined) ++ List.replicate j (some v) := by
  induction as generalizing h s with
  | nil =>
    cases hv : s.value.isUndefined with
    | false => exact ⟨0, 1, s.value, hv, by simp [valuesOf, states, hg]⟩
    | true =>
      refine ⟨1, 0, .null, rfl, ?_⟩
      simp [valuesOf, states, hg, Val.eq_undefined_of_isUndefined hv]
  | cons a as ih =>
    cases hv : s.value.isUndefined with
    | false =>
      refine ⟨0, (a :: as).length + 1, s.value, hv, ?_⟩
      rw [valuesOf_of_initialized ho hr hg hs ht hv, List.replicate_zero, List.nil_append]
    | true =>
      have hstep := stepsTo_access ho hr a
      obtain ⟨v, hg', -⟩ := hstep.get?_of_isReadonly hg hs ht
      obtain ⟨i, j, w, hw, he⟩ := ih (hstep.isInstanceOf ho) hg' hs ht
      refine ⟨i + 1, j, w, hw, ?_⟩
      rw [valuesOf_cons, hg, he, Option.map_some, Val.eq_undefined_of_isUndefined hv]
      rfl

variable {t : ClassTable}

/-- A readonly slot is typed. -/
theorem isSome_type?_of_isInstanceOf (ht : t.Reachable) (hc : c ∈ t.classes.values) {o : Object}
    (ho : o.IsInstanceOf c) (hg : o.slots.get? name = some s) (hs : s.isReadonly = true) :
    s.type?.isSome := by
  obtain ⟨p, hp, he⟩ := ho.exists_of_get? name s hg
  obtain ⟨a, -, hat, hpa, -, -⟩ := ht.exists_of_get?_instanceProperties hc hp
  rw [he] at hs ⊢
  exact ((ht.isSound a hat name p hpa).of_isReadonly hs).2.1

/-- Every slot of an instance of a readonly class is typed if it is readonly, and it is readonly
unless the class that declares it takes the property from a trait in which it is not. -/
theorem slot_of_isInstanceOf (ht : t.Reachable) (hc : c ∈ t.classes.values)
    (hr : c.isReadonly = true) {o : Object} (ho : o.IsInstanceOf c)
    (hg : o.slots.get? name = some s) :
    (s.isReadonly = true → s.type?.isSome) ∧ (s.isReadonly = true ↔
      ∀ a ∈ c.ancestors, a.name = s.declaringClass → ¬ a.TakesMutable t name) := by
  refine ⟨isSome_type?_of_isInstanceOf ht hc ho hg, ?_⟩
  obtain ⟨p, hp, hs⟩ := ho.exists_of_get? name s hg
  rw [hs]
  exact ht.isReadonly_iff hc hr hp

/-- The class that declares a slot sees it. -/
theorem isVisibleFrom_of_name_eq {a : ClassDef} (hn : a.name = s.declaringClass) :
    s.isVisibleFrom (some a) = true := by
  have hself : a.isNamed s.declaringClass = true := by
    rw [ClassDef.isNamed, hn, Name.same, beq_self_eq_true]
  rw [Slot.isVisibleFrom, ObjectModel.isVisibleFrom.eq_def]
  cases s.visibility with
  | isPublic => rfl
  | isProtected => exact List.any_eq_true.2 ⟨a, a.self_mem_ancestors, hself⟩
  | isPrivate => exact hself

/-- The slots that are excepted below are no better than others: the class that declares one can
take its value away. -/
theorem valuesOf_unset_of_takesMutable (ht : t.Reachable) (hc : c ∈ t.classes.values)
    (hr : c.isReadonly = true) (ho : (h.object r).IsInstanceOf c)
    (hg : (h.object r).slots.get? name = some s) {a : ClassDef} (ha : a ∈ c.ancestors)
    (hn : a.name = s.declaringClass) (hm : a.TakesMutable t name) :
    h.valuesOf r name [.unset r name (some a)] = [some s.value, some .undefined] := by
  have hs : s.isReadonly = false := Bool.eq_false_iff.2 fun hs =>
    (slot_of_isInstanceOf ht hc hr ho hg).2.1 hs a ha hn hm
  have hd : s.isDynamic = false := by
    obtain ⟨p, -, hp⟩ := ho.exists_of_get? name s hg
    rw [hp]
    rfl
  have hu : h.unsetProperty r name (some a) = .ok (h.setObject r { h.object r with
      slots := (h.object r).slots.insert name { s with value := .undefined } }) := by
    rw [unsetProperty, Object.visibleSlot?, hg]
    simp only [isVisibleFrom_of_name_eq hn, if_true, hs, hd, bind, Except.bind]
    rfl
  have hlt : r.index < h.objects.size := lt_size_of_isReadonly (ho.cls_eq ▸ hr)
  have hafter : ((h.access (.unset r name (some a))).object r).slots.get? name =
      some { s with value := .undefined } := by
    rw [access_eq, tryAccess, hu]
    dsimp only
    rw [object_setObject_self _ hlt, OrderedMap.get?_insert, if_pos rfl]
  rw [valuesOf_cons, hg]
  simp only [valuesOf, states, List.map_cons, List.map_nil, hafter]
  rfl

/-- A new instance of a readonly class has no value in a readonly slot. -/
theorem isUndefined_of_instantiate {h' : Heap} (ht : t.Reachable) (hc : c ∈ t.classes.values)
    (hi : h.instantiate c = .ok (h', r)) (hg : (h'.object r).slots.get? name = some s)
    (hs : s.isReadonly = true) : s.value.isUndefined = true := by
  obtain ⟨p, h₀, hp, rfl⟩ := (isInstanceOf_of_instantiate hi).2 name s hg
  obtain ⟨a, -, hat, hpa, -, -⟩ := ht.exists_of_get?_instanceProperties hc hp
  have hd := ((ht.isSound a hat name p hpa).of_isReadonly hs).2.2
  change (deepCopy h₀ p.default).2.isUndefined = true
  rw [Val.eq_undefined_of_isUndefined hd, deepCopy_undefined]
  rfl

/-- Whatever is set and unset, on whatever objects and from whatever scopes: an instance of a
readonly class gains and loses no slot, and each slot changes at most once, from no value to one.
Excepted are slots of properties that a class takes from a trait in which they are not readonly. -/
theorem values_of_readonly_instance (ht : t.Reachable) (hc : c ∈ t.classes.values)
    (hr : c.isReadonly = true) (ho : (h.object r).IsInstanceOf c) (as : List Access) :
    (∀ h' ∈ h.states as, (h'.object r).slots.keys = (h.object r).slots.keys) ∧
      ∀ name s, (h.object r).slots.get? name = some s →
        (∀ a ∈ c.ancestors, a.name = s.declaringClass → ¬ a.TakesMutable t name) →
        ∃ i j v, v.isUndefined = false ∧ h.valuesOf r name as =
          List.replicate i (some .undefined) ++ List.replicate j (some v) := by
  constructor
  · intro h' hm
    rw [(isInstanceOf_of_mem_states ho hr as h' hm).keys_eq, ho.keys_eq]
  · intro name s hg hn
    obtain ⟨htype, hiff⟩ := slot_of_isInstanceOf ht hc hr ho hg
    have hs := hiff.2 hn
    exact exists_valuesOf_eq ho hr hg hs (htype hs) as

private theorem exists_instance (cs : List ClassDef) (name : String)
    (p : ClassDef → Heap → ObjectRef → Bool) (hcs : ∀ c ∈ cs, c.IsFresh)
    (h : ((ClassTable.declareAll {} {} cs).toOption.bind (·.1.get? name)).any (fun c =>
      c.isReadonly && (instantiate {} c).toOption.any fun (h, r) => p c h r) = true) :
    ∃ t : ClassTable, t.Reachable ∧ ∃ c ∈ t.classes.values, c.isReadonly = true ∧
      ∃ (h : Heap) (r : ObjectRef), (h.object r).IsInstanceOf c ∧ p c h r = true := by
  obtain ⟨t, ht, c, hc, hp⟩ := ClassTable.exists_of_declareAll cs name _ hcs h
  obtain ⟨hr, hp⟩ := (Bool.and_eq_true _ _ ▸ hp :)
  obtain ⟨⟨h, r⟩, hi, hp⟩ := (Option.any_eq_true _ _).1 hp
  have ho := (isInstanceOf_of_instantiate (eq_ok_of_toOption_eq_some hi)).1
  exact ⟨t, ht, c, hc, hr, h, r, ho, hp⟩

/-- A readonly class with a typed property: its instance keeps its slots, and the property is set
once. -/
theorem values_of_readonly_instance_point :
    ∃ t : ClassTable, t.Reachable ∧ ∃ c ∈ t.classes.values, c.isReadonly = true ∧
      ∃ (h : Heap) (r : ObjectRef), (h.object r).IsInstanceOf c ∧ ∃ as : List Access,
        (∀ h' ∈ h.states as, (h'.object r).slots.keys = (h.object r).slots.keys) ∧
        ∃ s, (h.object r).slots.get? "x" = some s ∧
          (∀ a ∈ c.ancestors, a.name = s.declaringClass → ¬ a.TakesMutable t "x") ∧
          (∃ i j v, v.isUndefined = false ∧ h.valuesOf r "x" as =
            List.replicate i (some .undefined) ++ List.replicate j (some v)) ∧
          h.valuesOf r "x" as = [some .undefined, some (.int 1), some (.int 1)] := by
  obtain ⟨t, ht, c, hc, hr, h, r, ho, hp⟩ := exists_instance
    [({ name := "Point", isReadonly := true } : ClassDef).addProperty
      { name := "x", default := .undefined, type? := some .int }]
    "Point"
    (fun c h r => c.ancestors.all (·.traitNames.isEmpty) &&
      h.valuesOf r "x" [.set r "x" (.int 1) (some c), .set r "x" (.int 2) (some c)] =
        [some .undefined, some (.int 1), some (.int 1)])
    (by
      simp only [List.forall_mem_cons]
      exact ⟨.addProperty (.of_memberless rfl rfl rfl) _, nofun⟩)
    (by decide)
  rw [Bool.and_eq_true, List.all_eq_true, decide_eq_true_eq] at hp
  obtain ⟨htraits, hvalues⟩ := hp
  have hm (a : ClassDef) (ha : a ∈ c.ancestors) : ¬ a.TakesMutable t "x" := by
    rintro ⟨traitName, hn, -⟩
    rw [List.isEmpty_iff.1 (htraits a ha)] at hn
    cases hn
  obtain ⟨hkeys, hslots⟩ := values_of_readonly_instance ht hc hr ho
    [.set r "x" (.int 1) (some c), .set r "x" (.int 2) (some c)]
  cases hg : (h.object r).slots.get? "x" with
  | none => simp [valuesOf, states, hg] at hvalues
  | some s =>
    exact ⟨t, ht, c, hc, hr, h, r, ho, _, hkeys, s, hg, fun a ha _ => hm a ha,
      hslots "x" s hg fun a ha _ => hm a ha, hvalues⟩

/-- A readonly class that takes a property from a trait in which it is not readonly: the property is
set twice. -/
theorem exists_readonly_instance_set_twice :
    ∃ t : ClassTable, t.Reachable ∧ ∃ c ∈ t.classes.values, c.isReadonly = true ∧
      ∃ (h : Heap) (r : ObjectRef), (h.object r).IsInstanceOf c ∧
        h.valuesOf r "x" [.set r "x" (.int 1) none, .set r "x" (.int 2) none] =
          [some .undefined, some (.int 1), some (.int 2)] := by
  obtain ⟨t, ht, c, hc, hr, h, r, ho, hp⟩ := exists_instance
    [({ name := "T", kind := .trait } : ClassDef).addProperty
      { name := "x", default := .undefined, type? := some .int },
      { name := "R", isReadonly := true, traitNames := ["T"] }]
    "R"
    (fun _ h r => h.valuesOf r "x" [.set r "x" (.int 1) none, .set r "x" (.int 2) none] =
      [some .undefined, some (.int 1), some (.int 2)])
    (by
      simp only [List.forall_mem_cons]
      exact ⟨.addProperty (.of_memberless rfl rfl rfl) _, .of_memberless rfl rfl rfl, nofun⟩)
    (by decide)
  exact ⟨t, ht, c, hc, hr, h, r, ho, of_decide_eq_true hp⟩

end Heap

end ObjectModel
