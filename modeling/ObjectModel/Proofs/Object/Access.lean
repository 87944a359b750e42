import ObjectModel.Object.Access
import ObjectModel.Proofs.Class.Linking
/-!
# What an access does to objects

Writing or unsetting a property replaces the one object it is made on, and may write to a reference
cell; `exists_of_setProperty` and `exists_of_unsetProperty` say what the new object is. Objects are
reached through `Heap.object` alone, so an access to another object cannot be seen there.
-/

namespace ObjectModel

namespace Heap

variable {h h' : Heap} {r r' : ObjectRef} {o : Object} {name : String} {v w : Val}
  {scope? : Option ClassDef}

theorem object_setObject_of_ne (o : Object) (hr : r' ≠ r) :
    (h.setObject r o).object r' = h.object r' := by
  have hi : r.index ≠ r'.index := fun he => hr (by cases r; cases r'; cases he; rfl)
  rw [object, object, setObject, Array.getElem?_setIfInBounds_ne hi]

theorem object_setObject_self (o : Object) (hr : r.index < h.objects.size) :
    (h.setObject r o).object r = o := by
  rw [object, setObject, Array.getElem?_setIfInBounds_self_of_lt hr, Option.getD_some]

/-- Replacing an object shows at its own handle at most. -/
theorem object_setObject_or (h : Heap) (r r' : ObjectRef) (o : Object) :
    r = r' ∧ (h.setObject r' o).object r = o ∨ (h.setObject r' o).object r = h.object r := by
  by_cases hr : r = r'
  · subst hr
    by_cases hlt : r.index < h.objects.size
    · exact .inl ⟨rfl, object_setObject_self o hlt⟩
    · right
      rw [setObject, Array.setIfInBounds_eq_of_size_le (Nat.le_of_not_lt hlt)]
  · exact .inr (object_setObject_of_ne o hr)

/-- What holds of an object, and of the one that may come in its place, holds afterwards. -/
theorem object_setObject_induction {P : Object → Prop} (hr : P (h.object r))
    (ho : r = r' → P o) : P ((h.setObject r' o).object r) := by
  obtain ⟨heq, hself⟩ | hother := object_setObject_or h r r' o
  · rw [hself]
    exact ho heq
  · rwa [hother]

/-- A handle that was never given out leads to an object without slots, of a class that says
nothing. -/
theorem lt_size_or_object_eq_default (h : Heap) (r : ObjectRef) :
    r.index < h.objects.size ∨ h.object r = default := by
  rw [object]
  cases hg : h.objects[r.index]? with
  | some o => exact .inl (Array.getElem?_eq_some_iff.1 hg).1
  | none => exact .inr rfl

theorem lt_size_of_isReadonly (hr : (h.object r).cls.isReadonly = true) :
    r.index < h.objects.size := by
  refine (lt_size_or_object_eq_default h r).resolve_right fun he => ?_
  rw [he] at hr
  cases hr

theorem lt_size_of_get? {s : Slot} (hg : (h.object r).slots.get? name = some s) :
    r.index < h.objects.size := by
  refine (lt_size_or_object_eq_default h r).resolve_right fun he => ?_
  rw [he] at hg
  cases hg

@[simp] theorem object_assign (old new : Val) (r : ObjectRef) :
    (h.assign old new).1.object r = h.object r := by
  cases old <;> rfl

@[simp] theorem size_objects_assign (old new : Val) :
    (h.assign old new).1.objects.size = h.objects.size := by
  cases old <;> rfl

theorem isInstance_congr (hcls : ∀ r, (h'.object r).cls = (h.object r).cls) (v : Val)
    (name : String) : h'.isInstance v name = h.isInstance v name := by
  cases v with
  | object r => rw [isInstance, isInstance, hcls]
  | _ => rfl

mutual

theorem conforms_undefined : ∀ t : TypeHint, h.conforms .undefined t = false
  | .int | .float | .string | .bool | .array | .object | .iterable | .mixed | .null => rfl
  | .cls _ => rfl
  | .nullable inner => by rw [conforms, conforms_undefined inner]; rfl
  | .union members => by rw [conforms, conformsToAny_undefined members]

theorem conformsToAny_undefined : ∀ ts : List TypeHint, h.conformsToAny .undefined ts = false
  | [] => rfl
  | t :: ts => by rw [conformsToAny, conforms_undefined t, conformsToAny_undefined ts]; rfl

end

mutual

/-- Whether a value conforms to a type depends on the classes of objects alone. -/
theorem conforms_congr (hcls : ∀ r, (h'.object r).cls = (h.object r).cls) (v : Val) :
    ∀ t : TypeHint, h'.conforms v t = h.conforms v t
  | .int | .float | .string | .bool | .array | .object | .mixed | .null => rfl
  | .iterable => by rw [conforms, conforms, isInstance_congr hcls]
  | .cls name => by rw [conforms, conforms, isInstance_congr hcls]
  | .nullable inner => by rw [conforms, conforms, conforms_congr hcls v inner]
  | .union members => by rw [conforms, conforms, conformsToAny_congr hcls v members]

theorem conformsToAny_congr (hcls : ∀ r, (h'.object r).cls = (h.object r).cls) (v : Val) :
    ∀ ts : List TypeHint, h'.conformsToAny v ts = h.conformsToAny v ts
  | [] => rfl
  | t :: ts => by
    rw [conformsToAny, conformsToAny, conforms_congr hcls v t, conformsToAny_congr hcls v ts]

end

/-- What is stored in a typed place depends on the cells and on the classes of objects alone. -/
theorem coerceIfTyped_congr (hc : h'.cells = h.cells)
    (hcls : ∀ r, (h'.object r).cls = (h.object r).cls) (t? : Option TypeHint) (v : Val)
    (cls name : String) : h'.coerceIfTyped t? v cls name = h.coerceIfTyped t? v cls name := by
  cases t? with
  | none => rfl
  | some t =>
    rw [coerceIfTyped, coerceIfTyped, coerce, coerce, accepts, accepts, deref_congr hc,
      conforms_congr hcls]

/-- A place with a type that holds no value gets one when it is assigned to. -/
theorem isUndefined_assign_of_coerceIfTyped {t? : Option TypeHint} (ht : t?.isSome)
    {cls : String} (hc : h.coerceIfTyped t? v cls name = .ok w) :
    (h.assign .undefined w).2.isUndefined = false := by
  obtain ⟨t, rfl⟩ := Option.isSome_iff_exists.1 ht
  change (h.deref w).isUndefined = false
  rw [coerceIfTyped, coerce] at hc
  split at hc
  next ha =>
    have hv : (h.deref v).isUndefined = false := by
      cases hd : h.deref v with
      | undefined => rw [accepts, hd, conforms_undefined] at ha; cases ha
      | _ => rfl
    split at hc
    next i hi =>
      cases hc
      split
      · rw [deref]
        cases h.cells.size <;> rfl
      · exact hv
    next =>
      cases hc
      exact hv
  next => cases hc

theorem get?_of_visibleSlot? {s? : Option Slot} (hs : o.visibleSlot? name scope? = .ok s?) :
    o.slots.get? name = s? := by
  rw [Object.visibleSlot?] at hs
  split at hs
  next hn =>
    cases hs
    exact hn
  next s hn =>
  split at hs
  · cases hs
    exact hn
  · cases hs

/-- A write adds a dynamic property, or assigns to a slot that may take a value. -/
theorem exists_of_setProperty (hs : h.setProperty r name v scope? = .ok h') :
    ((h.object r).slots.get? name = none ∧ (h.object r).allowsDynamic = true ∧
      h' = h.setObject r { h.object r with
        slots := (h.object r).slots.insert name (.dynamic (h.object r).cls.name (h.deref v)) }) ∨
    ∃ s w, (h.object r).slots.get? name = some s ∧ s.checkReadonly name scope? = .ok () ∧
      h.coerceIfTyped s.type? v s.declaringClass name = .ok w ∧
      h' = (h.assign s.value w).1.setObject r { h.object r with
        slots := (h.object r).slots.insert name { s with value := (h.assign s.value w).2 } } := by
  obtain ⟨s?, hv, hs⟩ := exists_of_bind_eq_ok hs
  have hg := get?_of_visibleSlot? hv
  cases s? with
  | none =>
    dsimp only at hs
    rw [createProperty] at hs
    split at hs
    next ha =>
      cases hs
      exact .inl ⟨hg, ha, rfl⟩
    next => cases hs
  | some s =>
    obtain ⟨_, hc, hs⟩ := exists_of_bind_eq_ok hs
    obtain ⟨w, hw, hs⟩ := exists_of_bind_eq_ok hs
    cases hs
    exact .inr ⟨s, w, hg, hc, hw, rfl⟩

/-- Unsetting a property changes nothing if there is none, and else removes or empties a slot that
is not readonly. -/
theorem exists_of_unsetProperty (hs : h.unsetProperty r name scope? = .ok h') :
    h' = h ∨ ∃ s, (h.object r).slots.get? name = some s ∧ s.isReadonly = false ∧
      h' = h.setObject r { h.object r with
        slots := if s.isDynamic then (h.object r).slots.erase name
          else (h.object r).slots.insert name { s with value := .undefined } } := by
  obtain ⟨s?, hv, hs⟩ := exists_of_bind_eq_ok hs
  have hg := get?_of_visibleSlot? hv
  cases s? with
  | none =>
    cases hs
    exact .inl rfl
  | some s =>
    dsimp only at hs
    split at hs
    · cases hs
    next hr =>
      cases hs
      exact .inr ⟨s, hg, by simpa using hr, rfl⟩

end Heap

/-- What lets a readonly slot take a value: it has none yet, and the scope is named like the class
that declares it. -/
theorem Slot.of_checkReadonly {s : Slot} {name : String} {scope? : Option ClassDef}
    (hc : s.checkReadonly name scope? = .ok ()) (hr : s.isReadonly = true) :
    s.value.isUndefined = true ∧
      ∃ scope, scope? = some scope ∧ scope.isNamed s.declaringClass = true := by
  rw [checkReadonly, hr, if_neg (by simp)] at hc
  split at hc
  · cases hc
  next hi =>
    split at hc
    next hs =>
      obtain ⟨scope, rfl, hn⟩ := (Option.any_eq_true _ _).1 hs
      exact ⟨by simpa [isInitialized] using hi, scope, rfl, hn⟩
    next => cases hc

end ObjectModel
