import ObjectModel.Proofs.Heap.Assignment
import ObjectModel.Proofs.Heap.Copying
/-!
# Values in typed slots

A type names the values of its own kinds, `Heap.Names`: an integer is no double. What a slot of a
type takes besides are the integers, if the type has `float` among its members, and these become
doubles where the type is `float` or `?float`. The check looks through any nesting of unions and
nullable types while the conversion looks at the outermost type, so that the other types with
`float` but neither `int` nor `mixed` keep integers, `TypeHint.KeepsInts`. That is the only way in
which a slot comes to hold a value that its type does not name, and every such type is a way.
-/

namespace ObjectModel

/-- Whether a type is another or has it as a member, at any depth of nullable types and unions. -/
inductive TypeHint.Has : TypeHint → TypeHint → Prop
  | self (t : TypeHint) : TypeHint.Has t t
  | nullable {inner t : TypeHint} : TypeHint.Has inner t → TypeHint.Has (.nullable inner) t
  | union {members : List TypeHint} {m t : TypeHint} :
      m ∈ members → TypeHint.Has m t → TypeHint.Has (.union members) t

/-- Whether a type takes integers without naming them, and does not convert them. -/
def TypeHint.KeepsInts (t : TypeHint) : Prop :=
  t.Has .float ∧ ¬t.Has .int ∧ ¬t.Has .mixed ∧ t.widens = false

/-- Whether a type names the kind of a value. In contrast to `conforms`, only doubles are of the
kind `float`. -/
inductive Heap.Names (h : Heap) : TypeHint → Val → Prop
  | int (i : Int64) : Names h .int (.int i)
  | float (d : Double) : Names h .float (.float d)
  | string (s : Text) : Names h .string (.str s)
  | bool (b : Bool) : Names h .bool (.bool b)
  | array (r : ArrayRef) : Names h .array (.array r)
  | object (r : ObjectRef) : Names h .object (.object r)
  | iterableArray (r : ArrayRef) : Names h .iterable (.array r)
  | iterableObject {r : ObjectRef} : (h.object r).cls.instanceOf "Traversable" = true →
      Names h .iterable (.object r)
  | mixed {v : Val} : v.isUndefined = false → Names h .mixed v
  | null : Names h .null .null
  | cls {name : String} {r : ObjectRef} : (h.object r).cls.instanceOf name = true →
      Names h (.cls name) (.object r)
  | nullableNull (inner : TypeHint) : Names h (.nullable inner) .null
  | nullable {inner : TypeHint} {v : Val} : Names h inner v → Names h (.nullable inner) v
  | union {members : List TypeHint} {m : TypeHint} {v : Val} :
      m ∈ members → Names h m v → Names h (.union members) v

/-- Whether a type names a value or keeps it as an integer. -/
def Heap.NamesOrKeeps (h : Heap) (t : TypeHint) (v : Val) : Prop :=
  h.Names t v ∨ (∃ i, v = .int i) ∧ t.KeepsInts

/-- Whether a slot holds no reference and, if it has a type, nothing or a value that the type is
related to. -/
structure Slot.Obeys (R : TypeHint → Val → Prop) (s : Slot) : Prop where
  plain : s.value.isReference = false
  typed : ∀ t, s.type? = some t → s.value = .undefined ∨ R t s.value

def Object.Obeys (R : TypeHint → Val → Prop) (o : Object) : Prop :=
  ∀ name s, o.slots.get? name = some s → s.Obeys R

theorem Slot.Obeys.mono {R R' : TypeHint → Val → Prop} {s : Slot} (hs : s.Obeys R)
    (hR : ∀ t v, R t v → R' t v) : s.Obeys R' :=
  ⟨hs.plain, fun t ht => (hs.typed t ht).imp_right (hR t s.value)⟩

theorem Object.Obeys.mono {R R' : TypeHint → Val → Prop} {o : Object} (ho : o.Obeys R)
    (hR : ∀ t v, R t v → R' t v) : o.Obeys R' :=
  fun name s hg => (ho name s hg).mono hR

theorem Object.Obeys.insert {R : TypeHint → Val → Prop} {o : Object} {name : String} {s : Slot}
    (ho : o.Obeys R) (hs : s.Obeys R) : { o with slots := o.slots.insert name s }.Obeys R := by
  intro name' s' hg
  obtain ⟨-, rfl⟩ | hold := OrderedMap.of_get?_insert hg
  · exact hs
  · exact ho name' s' hold

theorem Object.Obeys.erase {R : TypeHint → Val → Prop} {o : Object} (ho : o.Obeys R)
    (name : String) : { o with slots := o.slots.erase name }.Obeys R :=
  fun name' s' hg => ho name' s' (OrderedMap.of_get?_erase hg)

namespace Heap

variable {h h' : Heap} {t : TypeHint} {v v' w : Val} {r r' : ObjectRef} {c : ClassDef}
  {name : String} {s : Slot} {scope? : Option ClassDef} {i : Int64}

/-- A type names what a type names that it has. -/
theorem names_of_has {u : TypeHint} (ht : t.Has u) (hn : h.Names u v) : h.Names t v := by
  induction ht with
  | self => exact hn
  | nullable _ ih => exact .nullable (ih hn)
  | union hm _ ih => exact .union hm (ih hn)

/-- Integers are named by `int` and `mixed` only. -/
theorem names_int_iff : h.Names t (.int i) ↔ t.Has .int ∨ t.Has .mixed := by
  constructor
  · intro hn
    generalize hv : Val.int i = v at hn
    induction hn with
    | int => exact .inl (.self _)
    | mixed => exact .inr (.self _)
    | nullable _ ih => exact (ih hv).imp .nullable .nullable
    | union hm _ ih => exact (ih hv).imp (.union hm) (.union hm)
    | _ => cases hv
  · rintro (hint | hmixed)
    · exact names_of_has hint (.int i)
    · exact names_of_has hmixed (.mixed rfl)

/-- A type accepts what a type accepts that it has. -/
theorem conforms_of_has {u : TypeHint} (ht : t.Has u) (hc : h.conforms v u = true) :
    h.conforms v t = true := by
  induction ht with
  | self => exact hc
  | nullable _ ih =>
    rw [conforms, ih hc, Bool.or_true]
  | @union members m _ hm _ ih =>
    rw [conforms]
    induction hm with
    | head => rw [conformsToAny, ih hc, Bool.true_or]
    | tail _ _ ih' => rw [conformsToAny, ih', Bool.or_true]

mutual

/-- What passes the check is named by the type, or an integer that passes for a double. -/
theorem names_of_conforms : ∀ {t : TypeHint}, h.conforms v t = true →
    h.Names t v ∨ (∃ i, v = .int i) ∧ t.Has .float
  | .int, hc => by cases v <;> first | exact .inl (.int _) | cases hc
  | .float, hc => by
    cases v with
    | float d => exact .inl (.float d)
    | int i => exact .inr ⟨⟨i, rfl⟩, .self _⟩
    | _ => cases hc
  | .string, hc => by cases v <;> first | exact .inl (.string _) | cases hc
  | .bool, hc => by cases v <;> first | exact .inl (.bool _) | cases hc
  | .array, hc => by cases v <;> first | exact .inl (.array _) | cases hc
  | .object, hc => by cases v <;> first | exact .inl (.object _) | cases hc
  | .null, hc => by cases v <;> first | exact .inl .null | cases hc
  | .mixed, hc => .inl (.mixed (by simpa [conforms] using hc))
  | .iterable, hc => by
    cases v with
    | array r => exact .inl (.iterableArray r)
    | object r => exact .inl (.iterableObject hc)
    | _ => cases hc
  | .cls _, hc => by
    cases v with
    | object r => exact .inl (.cls hc)
    | _ => cases hc
  | .nullable inner, hc => by
    rw [conforms, Bool.or_eq_true] at hc
    obtain hnull | hinner := hc
    · cases v with
      | null => exact .inl (.nullableNull inner)
      | _ => cases hnull
    · exact (names_of_conforms hinner).imp .nullable (And.imp_right .nullable)
  | .union members, hc => by
    rw [conforms] at hc
    obtain ⟨m, hm, hn⟩ := names_of_conformsToAny hc
    exact hn.imp (.union hm) (And.imp_right (.union hm))

theorem names_of_conformsToAny : ∀ {ts : List TypeHint}, h.conformsToAny v ts = true →
    ∃ t ∈ ts, h.Names t v ∨ (∃ i, v = .int i) ∧ t.Has .float
  | [], hc => by cases hc
  | t :: ts, hc => by
    rw [conformsToAny, Bool.or_eq_true] at hc
    obtain hhead | htail := hc
    · exact ⟨t, List.mem_cons_self, names_of_conforms hhead⟩
    · obtain ⟨u, hu, hn⟩ := names_of_conformsToAny htail
      exact ⟨u, List.mem_cons_of_mem _ hu, hn⟩

end

theorem names_of_widens (ht : t.widens = true) (d : Double) : h.Names t (.float d) := by
  rw [TypeHint.widens.eq_def] at ht
  split at ht
  · exact .float d
  · exact .nullable (.float d)
  · cases ht

/-- What is stored for a value is named by the type, or an integer that the type keeps. -/
theorem namesOrKeeps_of_coerce {cls : String} (hc : h.coerce t v cls name = .ok w)
    (hv : (h.deref v).isReference = false) :
    (h.deref w).isReference = false ∧ h.NamesOrKeeps t (h.deref w) := by
  rw [coerce] at hc
  split at hc
  next ha =>
    have hn := names_of_conforms ha
    split at hc
    next i hi =>
      cases hc
      split
      next hw =>
        rw [deref_eq_self h rfl]
        exact ⟨rfl, .inl (names_of_widens hw _)⟩
      next hw =>
        rw [hi] at hn ⊢
        refine ⟨rfl, Classical.or_iff_not_imp_left.2 fun hnot => ⟨⟨i, rfl⟩, ?_⟩⟩
        rw [names_int_iff, not_or] at hnot
        have hfloat := (hn.resolve_left (names_int_iff.not.2 (not_or.2 hnot))).2
        exact ⟨hfloat, hnot.1, hnot.2, Bool.eq_false_iff.2 hw⟩
    next hi =>
      cases hc
      refine ⟨hv, .inl (hn.resolve_right ?_)⟩
      rintro ⟨⟨i, hint⟩, -⟩
      exact hi i hint
  next => cases hc

/-- An integer is stored as it is in a slot of a type that keeps integers. -/
theorem coerce_of_keepsInts (ht : t.KeepsInts) (hv : h.deref v = .int i) (cls name : String) :
    h.coerce t v cls name = .ok v := by
  have hc : h.conforms (.int i) t = true := conforms_of_has ht.1 rfl
  rw [coerce, accepts, hv, hc]
  simp [ht.2.2.2]

/-- Whether no type tells a value of one heap from a value of another: they are the same, or both
are arrays, or objects of one class. -/
inductive Alike (h h' : Heap) : Val → Val → Prop
  | same {v : Val} : v.isObject = false → Alike h h' v v
  | array (r r' : ArrayRef) : Alike h h' (.array r) (.array r')
  | object {r r' : ObjectRef} : (h'.object r').cls = (h.object r).cls →
      Alike h h' (.object r) (.object r')

theorem Alike.isReference_eq (ha : h.Alike h' v v') : v'.isReference = v.isReference := by
  cases ha <;> rfl

theorem Alike.eq_undefined (ha : h.Alike h' .undefined v) : v = .undefined := by
  cases ha
  rfl

theorem alike_self (hcls : ∀ r, (h'.object r).cls = (h.object r).cls) (v : Val) :
    h.Alike h' v v := by
  cases v with
  | object r => exact .object (hcls r)
  | _ => exact .same rfl

theorem Names.alike (hn : h.Names t v) (ha : h.Alike h' v v') : h'.Names t v' := by
  induction hn with
  | int i => cases ha; exact .int i
  | float d => cases ha; exact .float d
  | string s => cases ha; exact .string s
  | bool b => cases ha; exact .bool b
  | null => cases ha; exact .null
  | array => cases ha <;> exact .array _
  | iterableArray => cases ha <;> exact .iterableArray _
  | object =>
    cases ha with
    | same hv => cases hv
    | object => exact .object _
  | iterableObject hi =>
    cases ha with
    | same hv => cases hv
    | object hcls => exact .iterableObject (hcls ▸ hi)
  | cls hi =>
    cases ha with
    | same hv => cases hv
    | object hcls => exact .cls (hcls ▸ hi)
  | mixed hv => cases ha <;> exact .mixed (by assumption)
  | nullableNull inner => cases ha; exact .nullableNull inner
  | nullable _ ih => exact .nullable (ih ha)
  | union hm _ ih => exact .union hm (ih ha)

theorem NamesOrKeeps.of_cls (hcls : ∀ r, (h'.object r).cls = (h.object r).cls)
    (hn : h.NamesOrKeeps t v) : h'.NamesOrKeeps t v :=
  hn.imp_left fun hn => hn.alike (alike_self hcls v)

/-- Copying a default that is no reference makes a value that no type tells from it, if the object
that it is, if it is one, is there. -/
theorem alike_deepCopy {h₀ : Heap} (hv : v.isReference = false)
    (hexists : ∀ r, v = .object r → r.index < h.objects.size) (hbefore : h.KeepsObjects h₀)
    (hafter : (deepCopy h₀ v).1.KeepsObjects h') : h.Alike h' v (deepCopy h₀ v).2 := by
  cases v with
  | reference c => cases hv
  | array r =>
    obtain ⟨n, hn⟩ : ∃ n, h₀.copyDepth = n + 1 := ⟨_, rfl⟩
    rw [deepCopy, hn, copyWithin]
    exact .array _ _
  | object r =>
    obtain ⟨r', slots, heq, hlt, hcopy⟩ := h₀.exists_deepCopy_object r
    rw [heq]
    refine .object ?_
    rw [hafter.object_eq hlt, hcopy, ← hbefore.object_eq (hexists r rfl)]
  | _ => exact .same rfl

/-- The slots of a new object hold what their types name if the defaults do. -/
theorem obeys_of_instantiate (hi : h.instantiate c = .ok (h', r))
    (hdefaults : ∀ name p, c.instanceProperties.get? name = some p →
      (Slot.ofProperty p p.default).Obeys h.Names ∧
        ∀ r, p.default = .object r → r.index < h.objects.size) :
    (h'.object r).Obeys h'.Names := by
  intro name s hs
  obtain ⟨p, h₀, hp, rfl, hbefore, hafter⟩ := exists_between_of_get?_instantiate hi hs
  obtain ⟨hd, hexists⟩ := hdefaults name p hp
  have ha := alike_deepCopy hd.plain hexists hbefore hafter
  refine ⟨ha.isReference_eq.trans hd.plain, fun t ht => (hd.typed t ht).imp ?_ (·.alike ha)⟩
  intro hu
  rw [show p.default = .undefined from hu] at ha ⊢
  exact ha.eq_undefined

/-- Creating an object writes to no cell. -/
theorem cells_of_instantiate (hi : h.instantiate c = .ok (h', r)) : h'.cells = h.cells := by
  have hcopies : (h.initialSlots c).1.cells = h.cells := by
    refine OrderedMap.mapAccum_induction (P := fun h₀ : Heap => h₀.cells = h.cells) ?_ rfl _
    intro h₀ p hc
    obtain ⟨_, _, heq⟩ := h₀.exists_deepCopy p.default
    exact (congrArg Heap.cells heq).trans hc
  rw [← hcopies]
  exact congrArg (·.1.cells) (allocObject_of_instantiate hi).symm

/-- Whether a heap has the classes of the objects of another one and as many cells, and references
still lead to older cells. -/
structure Continues (h h' : Heap) : Prop where
  cls_eq : ∀ r, (h'.object r).cls = (h.object r).cls
  size_eq : h'.cells.size = h.cells.size
  descends : h.Descends → h'.Descends

theorem Continues.refl (h : Heap) : h.Continues h := ⟨fun _ => rfl, rfl, id⟩

theorem Continues.knows (hc : h.Continues h') (hv : h.Knows v) : h'.Knows v := by
  intro c hr
  rw [hc.size_eq]
  exact hv c hr

/-- Giving an object other slots changes neither its class nor a cell. -/
theorem Continues.setObject (hc : h.Continues h') (r : ObjectRef)
    (slots : OrderedMap String Slot) :
    h.Continues (h'.setObject r { h'.object r with slots }) := by
  refine ⟨fun r' => ?_, hc.size_eq, hc.descends⟩
  rw [← hc.cls_eq r']
  obtain ⟨rfl, hself⟩ | hother := object_setObject_or h' r' r { h'.object r with slots }
  · rw [hself]
  · rw [hother]

theorem continues_assign (old : Val) (hv : h.Descends → (h.deref v).isReference = false) :
    h.Continues (h.assign old v).1 := by
  refine ⟨fun r => by rw [object_assign], ?_, fun hd => ?_⟩
  · cases old with
    | reference c => exact size_cells_setCell _ _ _
    | _ => rfl
  · cases old with
    | reference c => exact hd.setCell (hd.isReference_lastCell c) (hv hd)
    | _ => exact hd

/-- What is stored for a value is no reference, and it is as the type of the place says, if the
place has one. -/
theorem namesOrKeeps_of_coerceIfTyped {t? : Option TypeHint} {cls : String}
    (hc : h.coerceIfTyped t? v cls name = .ok w) (hv : (h.deref v).isReference = false) :
    (h.deref w).isReference = false ∧ ∀ t, t? = some t → h.NamesOrKeeps t (h.deref w) := by
  cases t? with
  | none =>
    cases hc
    exact ⟨hv, nofun⟩
  | some t =>
    obtain ⟨hplain, hn⟩ := namesOrKeeps_of_coerce hc hv
    exact ⟨hplain, fun _ ht => Option.some.inj ht ▸ hn⟩

/-- A write stores what the type of the slot makes of the value. The slot held no reference, so that
the value goes to the slot itself and not to a cell. -/
theorem obeys_of_setProperty (hs : h.setProperty r' name v scope? = .ok h')
    (hv : (h.deref v).isReference = false) :
    h.Continues h' ∧ ((h.object r).Obeys h.NamesOrKeeps → (h'.object r).Obeys h.NamesOrKeeps) := by
  obtain ⟨-, -, rfl⟩ | ⟨s, w, hg, -, hw, rfl⟩ := exists_of_setProperty hs
  · refine ⟨(Continues.refl h).setObject r' _, fun ho => object_setObject_induction ho ?_⟩
    rintro rfl
    exact ho.insert ⟨hv, nofun⟩
  · obtain ⟨hplain, hn⟩ := namesOrKeeps_of_coerceIfTyped hw hv
    constructor
    · have hc := (continues_assign s.value fun _ => hplain).setObject r'
        ((h.object r').slots.insert name { s with value := (h.assign s.value w).2 })
      rwa [object_assign] at hc
    · intro ho
      refine object_setObject_induction (by rwa [object_assign]) ?_
      rintro rfl
      rw [assign_of_plain w (ho name s hg).plain]
      exact ho.insert ⟨hplain, fun t ht => .inr (hn t ht)⟩

theorem obeys_of_unsetProperty (hs : h.unsetProperty r' name scope? = .ok h') :
    h.Continues h' ∧ ((h.object r).Obeys h.NamesOrKeeps → (h'.object r).Obeys h.NamesOrKeeps) := by
  obtain rfl | ⟨s, -, -, rfl⟩ := exists_of_unsetProperty hs
  · exact ⟨.refl _, id⟩
  · refine ⟨(Continues.refl h).setObject r' _, fun ho => object_setObject_induction ho ?_⟩
    rintro rfl
    split
    · exact ho.erase name
    · exact ho.insert ⟨rfl, fun _ _ => .inl rfl⟩

/-- An access keeps to the types, and later ones start from where this one did. -/
theorem obeys_access (hd : h.Descends) {a : Access}
    (hv : ∀ r name v scope?, a = .set r name v scope? → h.Knows v) :
    h.Continues (h.access a) ∧ ((h.object r).Obeys h.NamesOrKeeps →
      ((h.access a).object r).Obeys (h.access a).NamesOrKeeps) := by
  have hstep : h.Continues (h.access a) ∧ ((h.object r).Obeys h.NamesOrKeeps →
      ((h.access a).object r).Obeys h.NamesOrKeeps) := by
    rw [access_eq]
    split
    next h' ha =>
      cases a with
      | set r' name v scope? =>
        exact obeys_of_setProperty ha (hd.chainEnds (hv r' name v scope? rfl)).isReference_deref
      | unset r' name scope? => exact obeys_of_unsetProperty ha
    next => exact ⟨.refl h, id⟩
  obtain ⟨hc, ho⟩ := hstep
  exact ⟨hc, fun hr => (ho hr).mono fun _ _ => NamesOrKeeps.of_cls hc.cls_eq⟩

/-- So does every sequence of accesses. -/
theorem obeys_of_mem_states {as : List Access} (hd : h.Descends)
    (ho : (h.object r).Obeys h.NamesOrKeeps)
    (hv : ∀ r name v scope?, .set r name v scope? ∈ as → h.Knows v) :
    ∀ h' ∈ h.states as, (h'.object r).Obeys h'.NamesOrKeeps := by
  induction as generalizing h with
  | nil => simpa [states] using ho
  | cons a as ih =>
    rw [states, List.forall_mem_cons]
    obtain ⟨hc, hstep⟩ := obeys_access (r := r) hd (a := a) fun r name v scope? ha =>
      hv r name v scope? (ha ▸ List.mem_cons_self)
    exact ⟨ho, ih (hc.descends hd) (hstep ho) fun r name v scope? ha =>
      hc.knows (hv r name v scope? (List.mem_cons_of_mem _ ha))⟩

/-- A write of an integer to a slot whose type keeps integers stores it, although the type does not
name it. -/
theorem exists_setProperty_of_keepsInts (hg : (h.object r).slots.get? name = some s)
    (ht : s.type? = some t) (hkeeps : t.KeepsInts) (hplain : s.value.isReference = false)
    (hvisible : s.isVisibleFrom scope? = true) (hready : s.checkReadonly name scope? = .ok ())
    (hv : h.deref v = .int i) :
    ∃ h', h.setProperty r name v scope? = .ok h' ∧
      (h'.object r).slots.get? name = some { s with value := .int i } ∧ ¬h'.Names t (.int i) := by
  have hassign : h.assign s.value v = (h, .int i) := by rw [assign_of_plain v hplain, hv]
  refine ⟨h.setObject r { h.object r with
    slots := (h.object r).slots.insert name { s with value := .int i } }, ?_, ?_, ?_⟩
  · rw [setProperty, Object.visibleSlot?, hg]
    simp only [hvisible, if_true, hready, ht, coerceIfTyped, coerce_of_keepsInts hkeeps hv,
      bind, Except.bind, hassign]
    rfl
  · rw [object_setObject_self _ (lt_size_of_get? hg), OrderedMap.get?_insert, if_pos rfl]
  · rw [names_int_iff, not_or]
    exact ⟨hkeeps.2.1, hkeeps.2.2.1⟩

/-- In a new object every typed slot holds nothing or a value that its type names, if this is so of
the defaults, and creating it writes to no cell. Whatever is set and unset afterwards, on whatever
objects and from whatever scopes, with values that are there: no slot of the object comes to hold a
reference, and every typed slot holds nothing, a value that its type names, or an integer that it
keeps. A type does keep integers if it is none of `float` and `?float` but has `float` and neither
`int` nor `mixed`: an integer that is written to a slot of the type is stored, and is of no kind
that the type names. -/
theorem slots_hold_declared_types (h : Heap) (r : ObjectRef) :
    (∀ c h', h.instantiate c = .ok (h', r) →
      (∀ name p, c.instanceProperties.get? name = some p →
        (Slot.ofProperty p p.default).Obeys h.Names ∧
          ∀ r₀, p.default = .object r₀ → r₀.index < h.objects.size) →
      (h'.object r).Obeys h'.Names ∧ h'.cells = h.cells) ∧
    (h.Descends → (h.object r).Obeys h.NamesOrKeeps → ∀ as : List Access,
      (∀ r' name v scope?, .set r' name v scope? ∈ as → h.Knows v) →
      ∀ h' ∈ h.states as, (h'.object r).Obeys h'.NamesOrKeeps) ∧
    ∀ name s t v i scope?, (h.object r).slots.get? name = some s → s.type? = some t →
      t.KeepsInts → s.value.isReference = false → s.isVisibleFrom scope? = true →
      s.checkReadonly name scope? = .ok () → h.deref v = .int i →
      ∃ h', h.setProperty r name v scope? = .ok h' ∧
        (h'.object r).slots.get? name = some { s with value := .int i } ∧
        ¬h'.Names t (.int i) := by
  refine ⟨fun c h' hi hdefaults => ⟨obeys_of_instantiate hi hdefaults, cells_of_instantiate hi⟩,
    fun hd ho as hv => obeys_of_mem_states hd ho hv, ?_⟩
  intro name s t v i scope?
  exact exists_setProperty_of_keepsInts

/-- A class with properties of the types `?float` and `float|string`, without values, and one of
type `?string`, which is null. -/
def itemClass : ClassDef :=
  [{ name := "weight", default := .undefined, type? := some (.nullable .float) },
    { name := "price", default := .undefined, type? := some (.union [.float, .string]) },
    { name := "label", default := .null, type? := some (.nullable .string) }].foldl
    ClassDef.addProperty { name := "Item" }

theorem obeys_itemClass (h : Heap) (name : String) (p : PropertyDef)
    (hp : itemClass.instanceProperties.get? name = some p) :
    (Slot.ofProperty p p.default).Obeys h.Names ∧
      ∀ r, p.default = .object r → r.index < h.objects.size := by
  have hall : ∀ p ∈ itemClass.instanceProperties.values, p.default = .undefined ∨
      p.default = .null ∧ p.type? = some (.nullable .string) := by
    rw [show itemClass.instanceProperties.values = [_, _, _] from rfl]
    exact List.forall_mem_cons.2 ⟨.inl rfl, List.forall_mem_cons.2 ⟨.inl rfl,
      List.forall_mem_singleton.2 (.inr ⟨rfl, rfl⟩)⟩⟩
  obtain hd | ⟨hd, htype⟩ := hall p (OrderedMap.mem_values_iff.2 ⟨name, hp⟩)
  · rw [hd]
    exact ⟨⟨rfl, fun _ _ => .inl rfl⟩, nofun⟩
  · rw [hd]
    refine ⟨⟨rfl, fun t ht => .inr ?_⟩, nofun⟩
    cases htype.symm.trans ht
    exact .nullableNull _

def priceSlot : Slot where
  value := .undefined
  visibility := .isPublic
  isReadonly := false
  type? := some (.union [.float, .string])
  declaringClass := "Item"
  isDynamic := false

theorem get?_price {h : Heap} {r : ObjectRef} (hi : instantiate {} itemClass = .ok (h, r)) :
    (h.object r).slots.get? "price" = some priceSlot := by
  rw [object_of_instantiate hi]
  rfl

theorem keepsInts_float_or_string : (TypeHint.union [.float, .string]).KeepsInts := by
  have hlacks (t : TypeHint) (hfloat : t ≠ .float) (hstring : t ≠ .string)
      (hunion : t ≠ .union [.float, .string]) : ¬(TypeHint.union [.float, .string]).Has t := by
    intro ht
    cases ht with
    | self => exact hunion rfl
    | union hm ht =>
      simp only [List.mem_cons, List.not_mem_nil, or_false] at hm
      obtain rfl | rfl := hm
      · cases ht
        exact hfloat rfl
      · cases ht
        exact hstring rfl
  exact ⟨.union List.mem_cons_self (.self _), hlacks _ nofun nofun nofun,
    hlacks _ nofun nofun nofun, rfl⟩

/-- A new item keeps to its types. An integer becomes a double as a weight, and it is stored as it
is as a price. -/
theorem slots_hold_declared_types_itemClass :
    ∃ h r, instantiate {} itemClass = .ok (h, r) ∧ (h.object r).Obeys h.Names ∧ h.Descends ∧
      (∀ h' ∈ h.states [.set r "weight" (.int 2) none, .unset r "label" none],
        (h'.object r).Obeys h'.NamesOrKeeps) ∧
      (((h.access (.set r "weight" (.int 2) none)).object r).slots.get? "weight").map (·.value) =
        some (.float (.ofInt 2)) ∧
      ∃ h', h.setProperty r "price" (.int 1) none = .ok h' ∧
        (h'.object r).slots.get? "price" = some { priceSlot with value := .int 1 } ∧
        ¬h'.Names (.union [.float, .string]) (.int 1) := by
  obtain ⟨h, r, hi⟩ : ∃ h r, instantiate {} itemClass = .ok (h, r) := ⟨_, _, rfl⟩
  obtain ⟨ho, hcells⟩ := (slots_hold_declared_types {} r).1 itemClass h hi (obeys_itemClass {})
  obtain ⟨-, hlater, hkept⟩ := slots_hold_declared_types h r
  have hd : h.Descends := (Built.empty.store hcells).descends
  refine ⟨h, r, hi, ho, hd, ?_, ?_, ?_⟩
  · refine hlater hd (ho.mono fun _ _ => .inl) _ ?_
    rintro r name v scope? hm c rfl
    simp at hm
  · cases hi
    rfl
  · exact hkept "price" priceSlot _ (.int 1) 1 none (get?_price hi) rfl keepsInts_float_or_string
      rfl rfl rfl (deref_int h 1)

/-- An item whose price is set to an integer: it was of its declared types, and it is not then. -/
theorem exists_set_of_other_type :
    ∃ h r, instantiate {} itemClass = .ok (h, r) ∧ (h.object r).Obeys h.Names ∧
      ∃ h' ∈ h.states [.set r "price" (.int 1) none], ¬(h'.object r).Obeys h'.Names := by
  obtain ⟨h, r, hi⟩ : ∃ h r, instantiate {} itemClass = .ok (h, r) := ⟨_, _, rfl⟩
  obtain ⟨h', hset, hg, hnot⟩ : ∃ h', h.setProperty r "price" (.int 1) none = .ok h' ∧
      (h'.object r).slots.get? "price" = some { priceSlot with value := .int 1 } ∧
      ¬h'.Names (.union [.float, .string]) (.int 1) :=
    exists_setProperty_of_keepsInts (get?_price hi) rfl keepsInts_float_or_string rfl rfl rfl
      (deref_int h 1)
  have haccess : h.access (.set r "price" (.int 1) none) = h' := by rw [access_eq, tryAccess, hset]
  refine ⟨h, r, hi, obeys_of_instantiate hi (obeys_itemClass {}), h', ?_, fun ho => ?_⟩
  · rw [← haccess]
    exact List.mem_cons_of_mem _ List.mem_cons_self
  · obtain hu | hn := (ho "price" _ hg).typed _ rfl
    · cases hu
    · exact hnot hn

end Heap

end ObjectModel
