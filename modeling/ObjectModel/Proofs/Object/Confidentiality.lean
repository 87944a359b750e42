import ObjectModel.Json.Encoder
import ObjectModel.Proofs.Object.InPlace
/-!
# Hidden values stay hidden

Every access to a property looks at the visibility of the slot before it looks at its value, so code
that runs in a scope cannot tell apart two states of an object that differ in slots not seen from
there. The argument compares two runs: one access gives the same reply in both and leaves states
that differ in no other slots (`LookAlike.serve`), hence so does a sequence of accesses. What is
public is seen from every scope, so neither the public properties of the object nor the JSON text of
any value depend on what is hidden.
-/

namespace ObjectModel

namespace Slot

variable {scope? : Option ClassDef} {s s' : Slot}

/-- Whether two slots differ in their values at most, and in nothing if they are seen from a
scope. -/
structure AgreesFrom (scope? : Option ClassDef) (s s' : Slot) : Prop where
  eq_withValue : s' = { s with value := s'.value }
  value_eq : s.isVisibleFrom scope? = true → s'.value = s.value

theorem AgreesFrom.refl (scope? : Option ClassDef) (s : Slot) : s.AgreesFrom scope? s :=
  ⟨rfl, fun _ => rfl⟩

theorem AgreesFrom.eq (h : s.AgreesFrom scope? s') (hs : s.isVisibleFrom scope? = true) :
    s' = s := by
  rw [h.eq_withValue, h.value_eq hs]

theorem AgreesFrom.isVisibleFrom_eq (h : s.AgreesFrom scope? s') :
    s'.isVisibleFrom scope? = s.isVisibleFrom scope? := by
  rw [h.eq_withValue]
  rfl

theorem AgreesFrom.hiddenError_eq (h : s.AgreesFrom scope? s') (cls name : String) :
    s'.hiddenError cls name = s.hiddenError cls name := by
  rw [h.eq_withValue]
  rfl

/-- What is public is seen from every scope. -/
theorem isVisibleFrom_of_isPublic (hs : s.visibility = .isPublic) :
    s.isVisibleFrom scope? = true := by
  rw [isVisibleFrom, hs]
  rfl

end Slot

namespace Object

variable {scope? : Option ClassDef} {o o' : Object} {name : String}

/-- Whether two states of an object differ only in the values of slots that are not seen from a
scope. -/
structure AgreesFrom (scope? : Option ClassDef) (o o' : Object) : Prop where
  cls_eq : o'.cls = o.cls
  slots : o.slots.Corresponds (Slot.AgreesFrom scope?) o'.slots

theorem AgreesFrom.refl (scope? : Option ClassDef) (o : Object) : o.AgreesFrom scope? o :=
  ⟨rfl, List.forall₂_same.2 fun _ _ => ⟨rfl, .refl scope? _⟩⟩

/-- The slot that an access finds, or the complaint that there is one but hidden. -/
theorem AgreesFrom.visibleSlot?_eq (h : o.AgreesFrom scope? o') (name : String) :
    o'.visibleSlot? name scope? = o.visibleSlot? name scope? := by
  have hrel := h.slots.get? name
  rw [visibleSlot?, visibleSlot?, h.cls_eq]
  generalize o.slots.get? name = s?, o'.slots.get? name = s'? at hrel
  cases hrel with
  | none => rfl
  | some hs =>
    dsimp only
    rw [hs.isVisibleFrom_eq, hs.hiddenError_eq]
    split
    next hv => rw [hs.eq hv]
    next => rfl

theorem AgreesFrom.hasProperty_eq (h : o.AgreesFrom scope? o') (name : String) :
    o'.hasProperty name scope? = o.hasProperty name scope? := by
  have hrel := h.slots.get? name
  rw [hasProperty, hasProperty]
  generalize o.slots.get? name = s?, o'.slots.get? name = s'? at hrel
  cases hrel with
  | none => rfl
  | @some s s' hs =>
    rw [Option.any_some, Option.any_some, hs.isVisibleFrom_eq]
    cases hv : s.isVisibleFrom scope? with
    | true => rw [hs.eq hv]
    | false => rw [Bool.and_false, Bool.and_false]

theorem AgreesFrom.allowsDynamic_eq (h : o.AgreesFrom scope? o') :
    o'.allowsDynamic = o.allowsDynamic := by
  rw [allowsDynamic, allowsDynamic, h.cls_eq]

/-- Writing one slot into both states leaves the others as they are. -/
theorem AgreesFrom.insert (h : o.AgreesFrom scope? o') (name : String) (s : Slot) :
    AgreesFrom scope? { o with slots := o.slots.insert name s }
      { o' with slots := o'.slots.insert name s } :=
  ⟨h.cls_eq, h.slots.insert name (.refl scope? s)⟩

theorem AgreesFrom.erase (h : o.AgreesFrom scope? o') (name : String) :
    AgreesFrom scope? { o with slots := o.slots.erase name }
      { o' with slots := o'.slots.erase name } :=
  ⟨h.cls_eq, h.slots.erase name⟩

end Object

namespace Heap

variable {scope? : Option ClassDef} {h h' : Heap} {r : ObjectRef} {o o' : Object} {name : String}
  {v w : Val}

theorem setObject_setObject (h : Heap) (r : ObjectRef) (o o' : Object) :
    (h.setObject r o).setObject r o' = h.setObject r o' := by
  simp [setObject]

theorem assign_setObject (h : Heap) (r : ObjectRef) (o : Object) (old new : Val) :
    (h.setObject r o).assign old new =
      ((h.assign old new).1.setObject r o, (h.assign old new).2) := by
  have hc : (h.setObject r o).cells = h.cells := rfl
  cases old with
  | reference c =>
    rw [assign, assign, deref_congr hc, lastCell_congr hc]
    rfl
  | _ => exact congrArg (Prod.mk _) (deref_congr hc new)

/-- Whether two heaps look alike from a scope: they are equal but for the state of one object, which
differs only in the values of slots that are not seen from there. -/
inductive LookAlike (scope? : Option ClassDef) (r : ObjectRef) : Heap → Heap → Prop
  | intro (h : Heap) {o o' : Object} (ho : o.AgreesFrom scope? o') :
      LookAlike scope? r (h.setObject r o) (h.setObject r o')

namespace LookAlike

theorem cells_eq (hl : LookAlike scope? r h h') : h'.cells = h.cells := by
  cases hl
  rfl

theorem array_eq (hl : LookAlike scope? r h h') (a : ArrayRef) : h'.array a = h.array a := by
  cases hl
  rfl

theorem size_eq (hl : LookAlike scope? r h h') :
    h'.arrays.size = h.arrays.size ∧ h'.objects.size = h.objects.size := by
  cases hl
  simp [setObject]

/-- Every object is in the same state, or in states that differ in hidden values. -/
theorem object (hl : LookAlike scope? r h h') (r' : ObjectRef) :
    (h.object r').AgreesFrom scope? (h'.object r') := by
  obtain ⟨k, ho⟩ := hl
  by_cases hr : r' = r
  · subst hr
    by_cases hlt : r'.index < k.objects.size
    · rwa [object_setObject_self _ hlt, object_setObject_self _ hlt]
    · -- a handle that was never given out leads to the same object in both
      rw [setObject, setObject, Array.setIfInBounds_eq_of_size_le (Nat.le_of_not_lt hlt),
        Array.setIfInBounds_eq_of_size_le (Nat.le_of_not_lt hlt)]
      exact .refl scope? _
  · rw [object_setObject_of_ne _ hr, object_setObject_of_ne _ hr]
    exact .refl scope? _

theorem deref_eq (hl : LookAlike scope? r h h') (v : Val) : h'.deref v = h.deref v :=
  deref_congr hl.cells_eq v

theorem coerceIfTyped_eq (hl : LookAlike scope? r h h') (t? : Option TypeHint) (v : Val)
    (cls name : String) : h'.coerceIfTyped t? v cls name = h.coerceIfTyped t? v cls name :=
  coerceIfTyped_congr hl.cells_eq (fun r' => (hl.object r').cls_eq) t? v cls name

end LookAlike

theorem LookAlike.getProperty_eq (hl : LookAlike scope? r h h') (name : String) :
    h'.getProperty r name scope? = h.getProperty r name scope? := by
  have ho := hl.object r
  rw [getProperty, getProperty, ho.visibleSlot?_eq, ho.cls_eq]
  cases (h.object r).visibleSlot? name scope? with
  | error e => rfl
  | ok s? =>
    cases s? with
    | none => rfl
    | some s =>
      change (if s.isInitialized then Except.ok (h'.deref s.value) else _) = _
      rw [hl.deref_eq]
      rfl

/-- Whether two attempts to change a heap fail alike, or both succeed and leave heaps that look
alike. -/
inductive EndAlike (scope? : Option ClassDef) (r : ObjectRef) :
    Except Error Heap → Except Error Heap → Prop
  | error (e : Error) : EndAlike scope? r (.error e) (.error e)
  | ok {h h' : Heap} (hl : LookAlike scope? r h h') : EndAlike scope? r (.ok h) (.ok h')

/-- A write that finds a slot assigns to it, unless the slot does not take the value. -/
theorem setProperty_of_visibleSlot? {s : Slot}
    (hs : (h.object r).visibleSlot? name scope? = .ok (some s)) (v : Val) :
    h.setProperty r name v scope? = (do
      s.checkReadonly name scope?
      let w ← h.coerceIfTyped s.type? v s.declaringClass name
      return (h.assign s.value w).1.setObject r { h.object r with
        slots := (h.object r).slots.insert name { s with value := (h.assign s.value w).2 } }) := by
  rw [setProperty, hs]
  rfl

theorem LookAlike.createProperty (hl : LookAlike scope? r h h') (name : String) (v : Val) :
    EndAlike scope? r (h.createProperty r name v) (h'.createProperty r name v) := by
  have ho := hl.object r
  rw [Heap.createProperty, Heap.createProperty, ho.allowsDynamic_eq, ho.cls_eq, hl.deref_eq]
  split
  · have hi := ho.insert name (.dynamic (h.object r).cls.name (h.deref v))
    rw [ho.cls_eq] at hi
    obtain ⟨k, -⟩ := hl
    rw [setObject_setObject, setObject_setObject]
    exact .ok (.intro k hi)
  · exact .error _

theorem LookAlike.setProperty (hl : LookAlike scope? r h h') (name : String) (v : Val) :
    EndAlike scope? r (h.setProperty r name v scope?) (h'.setProperty r name v scope?) := by
  have ho := hl.object r
  have hslot := ho.visibleSlot?_eq name
  cases hs : (h.object r).visibleSlot? name scope? with
  | error e =>
    rw [Heap.setProperty, Heap.setProperty, hslot, hs]
    exact .error e
  | ok s? =>
    cases s? with
    | none =>
      rw [Heap.setProperty, Heap.setProperty, hslot, hs]
      exact hl.createProperty name v
    | some s =>
      rw [setProperty_of_visibleSlot? hs, setProperty_of_visibleSlot? (hslot.trans hs),
        hl.coerceIfTyped_eq]
      cases s.checkReadonly name scope? with
      | error e => exact .error e
      | ok _ =>
        cases h.coerceIfTyped s.type? v s.declaringClass name with
        | error e => exact .error e
        | ok w =>
          have hi := ho.insert name { s with value := (h.assign s.value w).2 }
          obtain ⟨k, -⟩ := hl
          simp only [assign_setObject] at hi
          simp only [assign_setObject, setObject_setObject]
          exact .ok (.intro _ hi)

theorem LookAlike.unsetProperty (hl : LookAlike scope? r h h') (name : String) :
    EndAlike scope? r (h.unsetProperty r name scope?) (h'.unsetProperty r name scope?) := by
  have ho := hl.object r
  rw [Heap.unsetProperty, Heap.unsetProperty, ho.visibleSlot?_eq]
  cases (h.object r).visibleSlot? name scope? with
  | error e => exact .error e
  | ok s? =>
    cases s? with
    | none => exact .ok hl
    | some s =>
      change EndAlike scope? r (if s.isReadonly then .error _ else .ok _)
        (if s.isReadonly then .error _ else .ok _)
      by_cases hr : s.isReadonly = true
      · rw [if_pos hr, if_pos hr]
        exact .error _
      · rw [if_neg hr, if_neg hr]
        have hi := ho.insert name { s with value := .undefined }
        have he := ho.erase name
        obtain ⟨k, -⟩ := hl
        rw [setObject_setObject, setObject_setObject]
        by_cases hd : s.isDynamic = true
        · rw [if_pos hd, if_pos hd]
          exact .ok (.intro k he)
        · rw [if_neg hd, if_neg hd]
          exact .ok (.intro k hi)

end Heap

inductive Request where
  | get (name : String)
  | set (name : String) (v : Val)
  | unset (name : String)
  | has (name : String)

inductive Reply where
  | value (v : Val)
  | done
  | answer (b : Bool)
  | failure (e : Error)

namespace Heap

variable {scope? : Option ClassDef} {h h' : Heap} {r : ObjectRef}

/-- The heap as a program leaves it, and the reply to the request for it. -/
def settle (h : Heap) (p : Program Unit) : Heap × Reply :=
  ((h.attempt p).1, match (h.attempt p).2 with
    | .ok _ => .done
    | .error e => .failure e)

/-- Serves a request that is made to an object from a scope. -/
def serve (scope? : Option ClassDef) (r : ObjectRef) (h : Heap) : Request → Heap × Reply
  | .get name =>
    (h, match h.getProperty r name scope? with
      | .ok v => .value v
      | .error e => .failure e)
  | .set name v => h.settle (setPropertyInPlace r name v scope?)
  | .unset name => h.settle (unsetPropertyInPlace r name scope?)
  | .has name => (h, .answer ((h.object r).hasProperty name scope?))

def serveAll (scope? : Option ClassDef) (r : ObjectRef) (h : Heap) (qs : List Request) :
    Heap × List Reply :=
  mapAccum (serve scope? r) h qs

namespace LookAlike

theorem settle {p p' : Program Unit} {x x' : Except Error Heap} (hl : LookAlike scope? r h h')
    (hp : h.Realizes p x) (hp' : h'.Realizes p' x') (hx : EndAlike scope? r x x') :
    (h'.settle p').2 = (h.settle p).2 ∧ LookAlike scope? r (h.settle p).1 (h'.settle p').1 := by
  rw [Heap.settle, Heap.settle, hp, hp']
  cases hx with
  | error e => exact ⟨rfl, hl⟩
  | ok hl' => exact ⟨rfl, hl'⟩

/-- A request gets the same reply in heaps that look alike, and they look alike afterwards. -/
theorem serve (hl : LookAlike scope? r h h') (q : Request) :
    (h'.serve scope? r q).2 = (h.serve scope? r q).2 ∧
      LookAlike scope? r (h.serve scope? r q).1 (h'.serve scope? r q).1 := by
  cases q with
  | get name =>
    refine ⟨?_, hl⟩
    rw [Heap.serve, Heap.serve, hl.getProperty_eq]
  | set name v => exact hl.settle .setProperty .setProperty (hl.setProperty name v)
  | unset name => exact hl.settle .unsetProperty .unsetProperty (hl.unsetProperty name)
  | has name =>
    refine ⟨?_, hl⟩
    rw [Heap.serve, Heap.serve, (hl.object r).hasProperty_eq]

theorem serveAll (hl : LookAlike scope? r h h') (qs : List Request) :
    (h'.serveAll scope? r qs).2 = (h.serveAll scope? r qs).2 ∧
      LookAlike scope? r (h.serveAll scope? r qs).1 (h'.serveAll scope? r qs).1 := by
  induction qs generalizing h h' with
  | nil => exact ⟨rfl, hl⟩
  | cons q qs ih =>
    obtain ⟨hreply, hnext⟩ := hl.serve q
    obtain ⟨hreplies, hlast⟩ := ih hnext
    exact ⟨congrArg₂ List.cons hreply hreplies, hlast⟩

theorem publicProperties_eq (hl : LookAlike scope? r h h') (r' : ObjectRef) :
    h'.publicProperties (h'.object r') = h.publicProperties (h.object r') := by
  have hslots := (hl.object r').slots
  rw [OrderedMap.Corresponds] at hslots
  rw [publicProperties, publicProperties]
  generalize (h.object r').slots.entries = l, (h'.object r').slots.entries = l' at hslots
  induction hslots with
  | nil => rfl
  | @cons e e' l l' he _ ih =>
    obtain ⟨name, s⟩ := e
    obtain ⟨name', s'⟩ := e'
    obtain ⟨rfl, hs⟩ := he
    dsimp only at hs
    rw [List.filterMap_cons, List.filterMap_cons, ih]
    by_cases hp : s.visibility = .isPublic
    · rw [hs.eq (Slot.isVisibleFrom_of_isPublic hp)]
      simp only [hl.deref_eq]
    · have hp' : ¬ s'.visibility = .isPublic := by
        rw [hs.eq_withValue]
        exact hp
      simp [hp, hp']

end LookAlike

end Heap

namespace Json

namespace Writer

variable {w w' : Writer}

/-- Whether two writers go by the same choices, and by heaps in which references lead to the same
values, arrays are the same, and objects have the same public properties. -/
structure SeesAs (w w' : Writer) : Prop where
  style_eq : w'.style = w.style
  precision_eq : w'.precision = w.precision
  maxDepth_eq : w'.maxDepth = w.maxDepth
  deref_eq : ∀ v, w'.heap.deref v = w.heap.deref v
  array_eq : ∀ r, w'.heap.array r = w.heap.array r
  publicProperties_eq : ∀ r, w'.heap.publicProperties (w'.heap.object r) =
    w.heap.publicProperties (w.heap.object r)

namespace SeesAs

theorem enter_eq (hw : w.SeesAs w') (outer : List Val) (v : Val) :
    w'.enter outer v = w.enter outer v := by
  rw [enter, enter, hw.maxDepth_eq]

theorem writeMembers_eq (hw : w.SeesAs w') (write : Val → Except JsonError (List Char))
    (depth : Nat) (members : List (Bytes × Val)) :
    w'.writeMembers write depth members = w.writeMembers write depth members := by
  rw [writeMembers, writeMembers, hw.style_eq]

theorem writeItems_eq (hw : w.SeesAs w') (write : Val → Except JsonError (List Char))
    (depth : Nat) (items : List Val) :
    w'.writeItems write depth items = w.writeItems write depth items := by
  rw [writeItems, writeItems, hw.style_eq]

theorem write_eq (hw : w.SeesAs w') (n : Nat) (outer : List Val) (v : Val) :
    w'.write n outer v = w.write n outer v := by
  induction n generalizing outer v with
  | zero =>
    rw [write.eq_def w', write.eq_def w]
    simp only [hw.deref_eq, hw.style_eq, hw.precision_eq]
    cases w.heap.deref v with
    | bool b => cases b <;> rfl
    | _ => rfl
  | succ n ih =>
    have hn : w'.write n = w.write n := funext₂ ih
    rw [write.eq_def w', write.eq_def w]
    simp only [hw.deref_eq, hw.style_eq, hw.precision_eq]
    cases w.heap.deref v with
    | array r => simp only [hw.enter_eq, hw.array_eq, hw.writeMembers_eq, hw.writeItems_eq, hn]
    | object r => simp only [hw.enter_eq, hw.publicProperties_eq, hw.writeMembers_eq, hn]
    | bool b => cases b <;> rfl
    | _ => rfl

end SeesAs

end Writer

/-- Values have the same text in heaps that look alike. -/
theorem encode_of_lookAlike {scope? : Option ClassDef} {r : ObjectRef} {h h' : Heap}
    (hl : Heap.LookAlike scope? r h h') (settings : Settings) (style : JsonStyle) (maxDepth : Nat)
    (v : Val) : encode h' settings style maxDepth v = encode h settings style maxDepth v := by
  have hw : Writer.SeesAs ⟨h, style, settings.serializePrecision, maxDepth⟩
      ⟨h', style, settings.serializePrecision, maxDepth⟩ :=
    ⟨rfl, rfl, rfl, hl.deref_eq, hl.array_eq, hl.publicProperties_eq⟩
  rw [encode, encode, hl.size_eq.1, hl.size_eq.2, hw.write_eq]

end Json

namespace Heap

/-- What is hidden from a scope does not show there. Let two states of an object differ only in the
values of slots that are not seen from a scope. Then any sequence of accesses from this scope gets
the same replies in both runs; afterwards the states still differ only in such slots, the object has
the same public properties, and every value the same JSON text. -/
theorem serveAll_of_agreesFrom {scope? : Option ClassDef} {o o' : Object}
    (ho : o.AgreesFrom scope? o') (h : Heap) (r : ObjectRef) (qs : List Request) :
    let run := (h.setObject r o).serveAll scope? r qs
    let run' := (h.setObject r o').serveAll scope? r qs
    run'.2 = run.2 ∧ LookAlike scope? r run.1 run'.1 ∧
      (run.1.object r).AgreesFrom scope? (run'.1.object r) ∧
      run'.1.publicProperties (run'.1.object r) = run.1.publicProperties (run.1.object r) ∧
      ∀ settings style maxDepth v, Json.encode run'.1 settings style maxDepth v =
        Json.encode run.1 settings style maxDepth v := by
  obtain ⟨hreplies, hl⟩ := (LookAlike.intro h ho).serveAll qs
  exact ⟨hreplies, hl, hl.object r, hl.publicProperties_eq r, Json.encode_of_lookAlike hl⟩

private def accountSlot (visibility : Visibility) (value : Val) : Slot where
  value := value
  visibility := visibility
  isReadonly := false
  type? := none
  declaringClass := "Account"
  isDynamic := false

private def account (pin : Val) : Object where
  cls := { name := "Account" }
  slots := ⟨[("owner", accountSlot .isPublic (.int 1)), ("pin", accountSlot .isPrivate pin)],
    by simp⟩

/-- Code outside the class of an object can use its public property but not tell its secret. -/
theorem serveAll_of_different_pins :
    (account (.int 1111)).AgreesFrom none (account (.int 2222)) ∧
      let h : Heap := { objects := #[default] }
      let qs : List Request := [.get "pin", .set "owner" (.int 2), .has "pin", .get "owner"]
      ((h.setObject ⟨0⟩ (account (.int 2222))).serveAll none ⟨0⟩ qs).2 =
        ((h.setObject ⟨0⟩ (account (.int 1111))).serveAll none ⟨0⟩ qs).2 := by
  have ho : (account (.int 1111)).AgreesFrom none (account (.int 2222)) :=
    ⟨rfl, .cons ⟨rfl, .refl none _⟩ (.cons ⟨rfl, rfl, nofun⟩ .nil)⟩
  exact ⟨ho, (serveAll_of_agreesFrom ho { objects := #[default] } ⟨0⟩ _).1⟩

end Heap

end ObjectModel
