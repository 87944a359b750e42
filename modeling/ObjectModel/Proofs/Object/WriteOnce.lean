import ObjectModel.Proofs.Object.Immutability
/-!
# Readonly properties are written once

Whatever its class, an object starts with its readonly slots empty: a readonly property is typed and
has no default. `Access.Changes` says what one access can do to a slot of an object. A readonly slot
is never added or removed, and it changes only if it is empty, by a write from a scope that is named
like the class that declares it; what is stored then is what the type makes of the value, which is
never nothing. So in the course of any calls the slot stays empty, or it is filled by one of them
and stays as it is from then on, `Slot.IsWrittenOnce`.
-/

namespace ObjectModel

/-- What an access to objects can do to a slot of one of them, if there is one. -/
inductive Access.Changes (h : Heap) (r : ObjectRef) (name : String) (a : Access) :
    Option Slot → Option Slot → Prop
  | unchanged (s? : Option Slot) : Changes h r name a s? s?
  /-- What comes, goes or changes is not readonly. -/
  | mutable {s? s'? : Option Slot} : (∀ s, s? = some s → s.isReadonly = false) →
      (∀ s, s'? = some s → s.isReadonly = false) → Changes h r name a s? s'?
  | set {s : Slot} {v w : Val} {scope? : Option ClassDef} : a = .set r name v scope? →
      s.checkReadonly name scope? = .ok () →
      h.coerceIfTyped s.type? v s.declaringClass name = .ok w →
      Changes h r name a (some s) (some { s with value := (h.assign s.value w).2 })

namespace Heap

variable {h h' : Heap} {r r' : ObjectRef} {name name' : String} {s : Slot} {v : Val}
  {scope? : Option ClassDef}

theorem changes_of_setProperty (hs : h.setProperty r' name' v scope? = .ok h') :
    (Access.set r' name' v scope?).Changes h r name ((h.object r).slots.get? name)
      ((h'.object r).slots.get? name) := by
  obtain ⟨hg, hd, rfl⟩ | ⟨s, w, hg, hc, hw, rfl⟩ := exists_of_setProperty hs
  · by_cases hr : r = r'
    · subst hr
      have hlt : r.index < h.objects.size := by
        refine (lt_size_or_object_eq_default h r).resolve_right fun he => ?_
        rw [he] at hd
        cases hd
      rw [object_setObject_self _ hlt, OrderedMap.get?_insert]
      split
      next he =>
        rw [he, hg]
        refine .mutable ?_ ?_
        · rintro _ ⟨⟩
        · rintro _ ⟨⟩
          rfl
      next => exact .unchanged _
    · rw [object_setObject_of_ne _ hr]
      exact .unchanged _
  · by_cases hr : r = r'
    · subst hr
      have hlt : r.index < (h.assign s.value w).1.objects.size := by
        rw [size_objects_assign]
        exact lt_size_of_get? hg
      rw [object_setObject_self _ hlt, OrderedMap.get?_insert]
      split
      next he =>
        subst he
        rw [hg]
        exact .set rfl hc hw
      next => exact .unchanged _
    · rw [object_setObject_of_ne _ hr, object_assign]
      exact .unchanged _

theorem changes_of_unsetProperty (hs : h.unsetProperty r' name' scope? = .ok h') :
    (Access.unset r' name' scope?).Changes h r name ((h.object r).slots.get? name)
      ((h'.object r).slots.get? name) := by
  obtain rfl | ⟨s, hg, hro, rfl⟩ := exists_of_unsetProperty hs
  · exact .unchanged _
  by_cases hr : r = r'
  · subst hr
    rw [object_setObject_self _ (lt_size_of_get? hg)]
    -- a dynamic slot goes, another one is emptied; neither matters elsewhere
    by_cases he : name = name'
    · subst he
      rw [hg]
      refine .mutable (fun s' hs => Option.some.inj hs ▸ hro) ?_
      intro s' hs
      dsimp only at hs
      split at hs
      · rw [OrderedMap.get?_erase, if_pos rfl] at hs
        cases hs
      · rw [OrderedMap.get?_insert, if_pos rfl] at hs
        cases hs
        exact hro
    · dsimp only
      split
      · rw [OrderedMap.get?_erase, if_neg he]
        exact .unchanged _
      · rw [OrderedMap.get?_insert, if_neg he]
        exact .unchanged _
  · rw [object_setObject_of_ne _ hr]
    exact .unchanged _

theorem changes_access (h : Heap) (r : ObjectRef) (name : String) (a : Access) :
    a.Changes h r name ((h.object r).slots.get? name)
      (((h.access a).object r).slots.get? name) := by
  rw [access_eq]
  split
  next h' ha =>
    cases a with
    | set => exact changes_of_setProperty ha
    | unset => exact changes_of_unsetProperty ha
  next => exact .unchanged _

end Heap

inductive PropertyCall where
  | get (r : ObjectRef) (name : String) (scope? : Option ClassDef)
  | access (a : Access)

namespace Heap

/-- Performs a call: the heap after it, and what it returns. Only a read returns a value. -/
def perform (h : Heap) : PropertyCall → Heap × Except Error (Option Val)
  | .get r name scope? => (h, (h.getProperty r name scope?).map some)
  | .access a => ((h.attempt a.program).1, (h.attempt a.program).2.map fun _ => none)

def afterCalls (h : Heap) (calls : List PropertyCall) : Heap :=
  calls.foldl (fun h c => (h.perform c).1) h

def slotsOf (h : Heap) (r : ObjectRef) (name : String) : List PropertyCall → List (Option Slot)
  | [] => [(h.object r).slots.get? name]
  | c :: calls => (h.object r).slots.get? name :: (h.perform c).1.slotsOf r name calls

end Heap

/-- Whether an empty slot of an object stays empty in the course of some calls, or is filled by one
of them, from a scope that is named like the class that declares it, and keeps what is stored
then. -/
def Slot.IsWrittenOnce (s : Slot) (h : Heap) (r : ObjectRef) (name : String)
    (calls : List PropertyCall) : Prop :=
  h.slotsOf r name calls = List.replicate (calls.length + 1) (some s) ∨
    ∃ before v scope after w, calls = before ++ .access (.set r name v (some scope)) :: after ∧
      scope.isNamed s.declaringClass = true ∧
      (h.afterCalls before).coerceIfTyped s.type? v s.declaringClass name = .ok w ∧
      ((h.afterCalls before).deref w).isUndefined = false ∧
      h.slotsOf r name calls = List.replicate (before.length + 1) (some s) ++
        List.replicate (after.length + 1)
          (some { s with value := (h.afterCalls before).deref w })

namespace Heap

variable {h h' : Heap} {r : ObjectRef} {name : String} {s : Slot} {c : PropertyCall}

/-- A call that fails changes nothing. -/
theorem perform_fst_of_error {e : Error} (he : (h.perform c).2 = .error e) :
    (h.perform c).1 = h := by
  cases c with
  | get => rfl
  | access a =>
    dsimp only [perform] at he ⊢
    cases hx : (h.attempt a.program).2 with
    | error e' => exact (Realizes.access h a).fst_of_error hx
    | ok u =>
      rw [hx] at he
      cases he

/-- A readonly slot is left alone by a call, or was empty and is filled. -/
theorem slot_perform_of_isReadonly (hg : (h.object r).slots.get? name = some s)
    (hs : s.isReadonly = true) (ht : s.type?.isSome) :
    ((h.perform c).1.object r).slots.get? name = some s ∨
      s.value.isUndefined = true ∧ ∃ v scope w, c = .access (.set r name v (some scope)) ∧
        scope.isNamed s.declaringClass = true ∧
        h.coerceIfTyped s.type? v s.declaringClass name = .ok w ∧
        (h.deref w).isUndefined = false ∧
        ((h.perform c).1.object r).slots.get? name = some { s with value := h.deref w } := by
  cases c with
  | get => exact .inl hg
  | access a =>
    have hchange := changes_access h r name a
    rw [hg] at hchange
    change ((h.access a).object r).slots.get? name = some s ∨ s.value.isUndefined = true ∧ _
    generalize hg' : ((h.access a).object r).slots.get? name = s'? at hchange
    cases hchange with
    | unchanged => exact .inl rfl
    | mutable hm =>
      rw [hm s rfl] at hs
      cases hs
    | @set _ v w scope? ha hc hw =>
      subst ha
      obtain ⟨hu, scope, rfl, hn⟩ := Slot.of_checkReadonly hc hs
      have hstored : (h.assign s.value w).2 = h.deref w := by
        rw [Val.eq_undefined_of_isUndefined hu]
        rfl
      rw [hstored] at hg'
      exact .inr ⟨hu, v, scope, w, rfl, hn, hw, isUndefined_assign_of_coerceIfTyped ht hw, hg'⟩

/-- A slot that is readonly after a call was readonly before. -/
theorem isReadonly_of_slot_perform {s' : Slot}
    (hg : ((h.perform c).1.object r).slots.get? name = some s') (hs : s'.isReadonly = true) :
    ∃ s, (h.object r).slots.get? name = some s ∧ s.isReadonly = true := by
  cases c with
  | get => exact ⟨s', hg, hs⟩
  | access a =>
    have hchange := changes_access h r name a
    rw [show ((h.access a).object r).slots.get? name = some s' from hg] at hchange
    generalize (h.object r).slots.get? name = s? at hchange ⊢
    cases hchange with
    | unchanged => exact ⟨s', rfl, hs⟩
    | mutable _ hm =>
      rw [hm s' rfl] at hs
      cases hs
    | @set s => exact ⟨s, rfl, hs⟩

/-- The readonly slots of an object are those that it starts with. -/
theorem isReadonly_of_slot_afterCalls {s' : Slot} {calls : List PropertyCall}
    (hg : ((h.afterCalls calls).object r).slots.get? name = some s') (hs : s'.isReadonly = true) :
    ∃ s, (h.object r).slots.get? name = some s ∧ s.isReadonly = true := by
  induction calls generalizing h with
  | nil => exact ⟨s', hg, hs⟩
  | cons c calls ih =>
    obtain ⟨s, hg, hs⟩ := ih hg
    exact isReadonly_of_slot_perform hg hs

/-- A readonly slot that has a value stays as it is. -/
theorem slotsOf_of_initialized (hg : (h.object r).slots.get? name = some s)
    (hs : s.isReadonly = true) (ht : s.type?.isSome) (hv : s.value.isUndefined = false)
    (calls : List PropertyCall) :
    h.slotsOf r name calls = List.replicate (calls.length + 1) (some s) := by
  induction calls generalizing h with
  | nil => rw [slotsOf, hg]; rfl
  | cons c calls ih =>
    obtain hg' | ⟨hu, -⟩ := slot_perform_of_isReadonly (c := c) hg hs ht
    · rw [slotsOf, hg, ih hg']
      rfl
    · cases hu.symm.trans hv

/-- A readonly slot is written once if at all. -/
theorem isWrittenOnce (hg : (h.object r).slots.get? name = some s) (hs : s.isReadonly = true)
    (ht : s.type?.isSome) (calls : List PropertyCall) : s.IsWrittenOnce h r name calls := by
  induction calls generalizing h with
  | nil =>
    left
    rw [slotsOf, hg]
    rfl
  | cons c calls ih =>
    obtain hg' | ⟨-, v, scope, w, rfl, hn, hw, hv, hg'⟩ :=
      slot_perform_of_isReadonly (c := c) hg hs ht
    · obtain hsame | ⟨before, v, scope, after, w, rfl, hn, hw, hv, hsplit⟩ := ih hg'
      · left
        rw [slotsOf, hg, hsame]
        rfl
      · right
        refine ⟨c :: before, v, scope, after, w, rfl, hn, hw, hv, ?_⟩
        rw [slotsOf, hg, hsplit]
        rfl
    · right
      refine ⟨[], v, scope, calls, w, rfl, hn, hw, hv, ?_⟩
      rw [slotsOf, hg, slotsOf_of_initialized hg' hs ht hv]
      rfl

variable {t : ClassTable} {c : ClassDef}

/-- A readonly property is typed, not static and without a default. Consequently the readonly slots
of a new object are empty, and whatever is read, set and unset, each is written once if at all, from
a scope that is named like the class that declares it. No others come in, and a call that fails
changes nothing. -/
theorem isWrittenOnce_of_instantiate (ht : t.Reachable) (hc : c ∈ t.classes.values) :
    (∀ name p, c.properties.get? name = some p → p.isReadonly = true →
      p.type?.isSome ∧ p.isStatic = false ∧ p.default = .undefined) ∧
    ∀ (h h' : Heap) (r : ObjectRef), h.instantiate c = .ok (h', r) → ∀ calls : List PropertyCall,
      (∀ name s, (h'.object r).slots.get? name = some s → s.isReadonly = true →
        s.value = .undefined ∧ s.IsWrittenOnce h' r name calls) ∧
      (∀ name s, ((h'.afterCalls calls).object r).slots.get? name = some s → s.isReadonly = true →
        ∃ s₀, (h'.object r).slots.get? name = some s₀ ∧ s₀.isReadonly = true) ∧
      ∀ call e, ((h'.afterCalls calls).perform call).2 = .error e →
        ((h'.afterCalls calls).perform call).1 = h'.afterCalls calls := by
  constructor
  · intro name p hp hr
    obtain ⟨hs, htype, hd⟩ := (ht.isSound c hc name p hp).of_isReadonly hr
    exact ⟨htype, hs, Val.eq_undefined_of_isUndefined hd⟩
  · intro h h' r hi calls
    refine ⟨?_, fun name s => isReadonly_of_slot_afterCalls, fun call e => perform_fst_of_error⟩
    intro name s hg hs
    have ho := (isInstanceOf_of_instantiate hi).1
    have hempty := isUndefined_of_instantiate ht hc hi hg hs
    have htype := isSome_type?_of_isInstanceOf ht hc ho hg hs
    exact ⟨Val.eq_undefined_of_isUndefined hempty, isWrittenOnce hg hs htype calls⟩

/-- A readonly property that a class has from its parent: a write from the class itself fails, the
first from its parent, whose name may be written in any case, fills the slot, and nothing that
follows changes it. -/
theorem isWrittenOnce_of_instantiate_below :
    ∃ t : ClassTable, t.Reachable ∧ ∃ c ∈ t.classes.values, ∃ (h : Heap) (r : ObjectRef),
      instantiate {} c = .ok (h, r) ∧ ∃ (s : Slot) (calls : List PropertyCall),
        (h.object r).slots.get? "id" = some s ∧ s.isReadonly = true ∧ s.value = .undefined ∧
          s.IsWrittenOnce h r "id" calls ∧
          (h.slotsOf r "id" calls).map (·.map (·.value)) =
            [some .undefined, some .undefined, some (.int 7), some (.int 7), some (.int 7)] := by
  obtain ⟨t, ht, c, hc, hp⟩ := ClassTable.exists_of_declareAll
    [({ name := "Entity" } : ClassDef).addProperty
        { name := "id", default := .undefined, isReadonly := true, type? := some .int },
      { name := "User", parentName? := some "Entity" }]
    "User"
    (fun c => (instantiate {} c).toOption.any fun s =>
      ((s.1.object s.2).slots.get? "id").any (·.isReadonly) &&
      (s.1.slotsOf s.2 "id" [.access (.set s.2 "id" (.int 6) (some c)),
        .access (.set s.2 "id" (.int 7) (some { name := "ENTITY" })),
        .access (.set s.2 "id" (.int 8) (some { name := "ENTITY" })),
        .access (.unset s.2 "id" none)]).map (·.map (·.value)) =
        [some .undefined, some .undefined, some (.int 7), some (.int 7), some (.int 7)])
    (by
      simp only [List.forall_mem_cons]
      exact ⟨.addProperty (.of_memberless rfl rfl rfl) _, .of_memberless rfl rfl rfl, nofun⟩)
    (by decide)
  obtain ⟨⟨h, r⟩, hi, hp⟩ := (Option.any_eq_true _ _).1 hp
  rw [Bool.and_eq_true, decide_eq_true_eq] at hp
  obtain ⟨s, hg, hs⟩ := (Option.any_eq_true _ _).1 hp.1
  have hi := eq_ok_of_toOption_eq_some hi
  obtain ⟨hslots, -⟩ := (isWrittenOnce_of_instantiate ht hc).2 {} h r hi _
  obtain ⟨hempty, honce⟩ := hslots "id" s hg hs
  exact ⟨t, ht, c, hc, h, r, hi, s, _, hg, hs, hempty, honce, hp.2⟩

end Heap

end ObjectModel
