import ObjectModel.Proofs.Json.Correctness
import ObjectModel.Proofs.Json.Layout
import ObjectModel.Proofs.Json.ObjectDecoding
import ObjectModel.Proofs.Json.Refusals
import ObjectModel.Proofs.Session
/-!
# Validating and decoding

Validating a text reads it and forgets the document. Decoding reads it in the same way and makes a
value of the document, so it can only fail where validating does or while making the value. Arrays
can always be made. An object can be made of an open class, and stays open while members are added
to it: it takes every property whose name does not start with a zero character. So the names of the
members alone decide whether the document has a value.
-/

namespace ObjectModel

/-- Whether a slot takes any value from everywhere, any number of times. -/
structure Slot.IsFree (s : Slot) : Prop where
  visibility_eq : s.visibility = .isPublic
  isReadonly_eq : s.isReadonly = false
  type?_eq : s.type? = none

structure Object.IsOpen (o : Object) : Prop where
  allowsDynamic : o.allowsDynamic = true
  isFree : ∀ name s, o.slots.get? name = some s → s.IsFree

theorem ClassDef.IsOpen.object {c : ClassDef} (hc : c.IsOpen) : Object.IsOpen ⟨c, ∅⟩ :=
  ⟨hc.allowsDynamic, nofun⟩

/-- An open object with one more free slot, or with a free slot in the place of one, is open. -/
theorem Object.IsOpen.insert {o : Object} (ho : o.IsOpen) (name : String) {s : Slot}
    (hs : s.IsFree) : Object.IsOpen { o with slots := o.slots.insert name s } := by
  refine ⟨ho.allowsDynamic, fun name' s' h => ?_⟩
  obtain ⟨-, rfl⟩ | hold := OrderedMap.of_get?_insert h
  · exact hs
  · exact ho.isFree name' s' hold

namespace Heap

variable {h h' : Heap} {r : ObjectRef} {name : String} {v : Val}

/-- An open object takes every property. -/
theorem exists_setProperty_eq_ok (ho : (h.object r).IsOpen) (name : String) (v : Val) :
    ∃ h', h.setProperty r name v none = .ok h' := by
  rw [setProperty]
  dsimp only
  rw [Object.visibleSlot?]
  cases hs : (h.object r).slots.get? name with
  | none => exact ⟨_, if_pos ho.allowsDynamic⟩
  | some s =>
    obtain ⟨hvisibility, hreadonly, htype⟩ := ho.isFree name s hs
    have hvisible : s.isVisibleFrom none = true := by
      rw [Slot.isVisibleFrom, hvisibility]
      rfl
    have hcheck : s.checkReadonly name none = .ok () := by
      rw [Slot.checkReadonly, hreadonly]
      rfl
    dsimp only
    rw [if_pos hvisible]
    simp only [bind, Except.bind, hcheck, htype, coerceIfTyped]
    exact ⟨_, rfl⟩

theorem Keeps.assign (p : Nat → Prop) (h : Heap) (old new : Val) :
    h.Keeps p (h.assign old new).1 := by
  cases old <;> exact ⟨fun _ _ => id, fun _ _ _ => id⟩

/-- Writing a property of an open object leaves it open and no other object changed. -/
theorem of_setProperty_of_isOpen (ho : (h.object r).IsOpen) (hr : r.index < h.objects.size)
    (hs : h.setProperty r name v none = .ok h') :
    h.Keeps (· ≠ r.index) h' ∧ r.index < h'.objects.size ∧ (h'.object r).IsOpen := by
  obtain ⟨-, -, rfl⟩ | ⟨s, w, hg, -, -, rfl⟩ := exists_of_setProperty hs
  · refine ⟨.setObject .., ?_, ?_⟩
    · rw [setObject, Array.size_setIfInBounds]
      exact hr
    · rw [object_setObject_self _ hr]
      exact ho.insert name ⟨rfl, rfl, rfl⟩
  · obtain ⟨hvisibility, hreadonly, htype⟩ := ho.isFree name s hg
    have hr' : r.index < (h.assign s.value w).1.objects.size := by
      rwa [size_objects_assign]
    refine ⟨(Keeps.assign _ h s.value w).trans (.setObject ..), ?_, ?_⟩
    · rwa [setObject, Array.size_setIfInBounds]
    · rw [object_setObject_self _ hr']
      exact ho.insert name ⟨hvisibility, hreadonly, htype⟩

/-- An object that is kept stays open. -/
theorem Keeps.isOpen_object {p : Nat → Prop} (hk : h.Keeps p h') (hp : p r.index)
    (hr : r.index < h.objects.size) (ho : (h.object r).IsOpen) :
    r.index < h'.objects.size ∧ (h'.object r).IsOpen := by
  have hsome := Array.getElem?_eq_getElem hr
  have hsome' := hk.objects _ _ hp hsome
  refine ⟨(Array.getElem?_eq_some_iff.1 hsome').1, ?_⟩
  rw [object, hsome, Option.getD_some] at ho
  rwa [object, hsome', Option.getD_some]

end Heap

namespace Json

/-- Whether a document is no object, or an object none of whose names starts with a zero
character. -/
def hasPropertyNames : Json → Bool
  | object members => members.all fun e => e.1.head? ≠ some '\x00'
  | _ => true

theorem hasPropertyNames_object_iff {members : List (List Char × Json)} :
    (object members).hasPropertyNames ↔ ∀ e ∈ members, e.1.head? ≠ some '\x00' := by
  simp [hasPropertyNames]

/-- Whether a computation succeeds just if `p` holds and complains about a name otherwise. If it
succeeds, then it keeps the arrays and those objects whose number satisfies `q`, and yields what
satisfies `r`. -/
def Decoding.Decides {α : Type} (x : Decoding α) (w : Workspace) (p : Prop) (q : Nat → Prop)
    (r : Heap → α → Prop) : Prop :=
  match x w with
  | .ok a w' => p ∧ w.heap.Keeps q w'.heap ∧ r w'.heap a
  | .error e _ => ¬p ∧ e = .invalidPropertyName

namespace Decoding.Decides

variable {α β : Type} {x : Decoding α} {f : α → Decoding β} {w : Workspace} {p p' : Prop}
  {q t : Nat → Prop} {r : Heap → α → Prop} {r' : Heap → β → Prop}

theorem pure {a : α} (hp : p) (hr : r w.heap a) : Decides (Pure.pure a) w p q r :=
  ⟨hp, .refl _ _, hr⟩

/-- A computation of two parts succeeds where both do. -/
theorem bind (hx : Decides x w p q r) (hq : ∀ i, t i → q i)
    (hf : ∀ a w', w.heap.Keeps q w'.heap → r w'.heap a → Decides (f a) w' p' t r') :
    Decides (x >>= f) w (p ∧ p') t r' := by
  rw [Decides] at hx ⊢
  change match EStateM.bind x f w with
    | .ok b w' => (p ∧ p') ∧ w.heap.Keeps t w'.heap ∧ r' w'.heap b
    | .error e _ => ¬(p ∧ p') ∧ e = .invalidPropertyName
  rw [EStateM.bind]
  cases hw : x w with
  | error e w₁ =>
    rw [hw] at hx
    exact ⟨fun h => hx.1 h.1, hx.2⟩
  | ok a w₁ =>
    rw [hw] at hx
    obtain ⟨hp, hk, hr⟩ := hx
    have hrest := hf a w₁ hk hr
    rw [Decides] at hrest
    dsimp only
    cases hw' : f a w₁ with
    | error e w₂ =>
      rw [hw'] at hrest
      exact ⟨fun h => hrest.1 h.2, hrest.2⟩
    | ok b w₂ =>
      rw [hw'] at hrest
      exact ⟨⟨hp, hrest.1⟩, (hk.mono hq).trans hrest.2.1, hrest.2.2⟩

theorem of_iff (hx : Decides x w p q r) (hp : p ↔ p') : Decides x w p' q r :=
  propext hp ▸ hx

theorem mono (hx : Decides x w p q r) (hq : ∀ h', w.heap.Keeps q h' → w.heap.Keeps t h') :
    Decides x w p t r := by
  rw [Decides] at hx ⊢
  cases hw : x w with
  | error e w' =>
    rw [hw] at hx
    exact hx
  | ok a w' =>
    rw [hw] at hx
    exact ⟨hx.1, hq _ hx.2.1, hx.2.2⟩

end Decoding.Decides

open Decoding

variable {d : Decoder} {w : Workspace} {r : ObjectRef}

theorem Decoding.get_bind {β : Type} (f : Workspace → Decoding β) (w : Workspace) :
    ((get : Decoding Workspace) >>= f) w = f w w := rfl

theorem decides_newString (s : Bytes) :
    Decides (newString s) w True (fun _ => True) fun _ _ => True :=
  ⟨trivial, .allocText _ w.heap s, trivial⟩

theorem decides_newArray (a : OrderedArray Val) :
    Decides (newArray a) w True (fun _ => True) fun _ _ => True :=
  ⟨trivial, .allocArray _ w.heap a, trivial⟩

/-- A new object of an open class is open, and it is none of those that were there before. -/
theorem decides_newObject (hd : ∃ c, d.objectClass? = some c ∧ c.IsOpen) :
    Decides (newObject d) w True (fun _ => True) fun h r =>
      w.heap.objects.size ≤ r.index ∧ r.index < h.objects.size ∧ (h.object r).IsOpen := by
  obtain ⟨c, hc, hopen⟩ := hd
  have hok : newObject d w = .ok ⟨w.heap.objects.size⟩
      { w with heap := (w.heap.allocObject ⟨c, ∅⟩).1 } := by
    rw [newObject.eq_def, hc]
    dsimp only
    rw [get_bind, Heap.instantiate, initialSlots_of_eq_empty hopen.instanceProperties_eq,
      if_pos hopen.isInstantiable]
    rfl
  have hnew : (w.heap.allocObject ⟨c, ∅⟩).1.object ⟨w.heap.objects.size⟩ = ⟨c, ∅⟩ := by
    rw [Heap.object, Heap.allocObject, Array.getElem?_push_size, Option.getD_some]
  rw [Decides, hok]
  refine ⟨trivial, .allocObject _ _ _, Nat.le_refl _, ?_, ?_⟩
  · rw [Heap.allocObject, Array.size_push]
    exact Nat.lt_succ_self _
  · rw [hnew]
    exact hopen.object

/-- An open object takes every member. -/
theorem decides_setMember (hr : r.index < w.heap.objects.size) (ho : (w.heap.object r).IsOpen)
    (name : List Char) (v : Val) :
    Decides (setMember r name v) w True (· ≠ r.index) fun h _ =>
      r.index < h.objects.size ∧ (h.object r).IsOpen := by
  obtain ⟨h', hs⟩ := Heap.exists_setProperty_eq_ok ho (String.ofList name) v
  have hok : setMember r name v w = .ok () { w with heap := h' } := by
    rw [setMember, get_bind, hs]
    rfl
  rw [Decides, hok]
  exact ⟨trivial, Heap.of_setProperty_of_isOpen ho hr hs⟩

/-- Whether decoding a document keeps what is there, and succeeds just if all names in the document
can be names of properties. -/
def Decoder.IsDecidedByNames (d : Decoder) (document : Json) : Prop :=
  ∀ w, Decides (d.value document) w (document.all hasPropertyNames = true) (fun _ => True)
    fun _ _ => True

theorem decides_items {items : List Json} (hi : ∀ v ∈ items, d.IsDecidedByNames v) :
    Decides (d.items items) w (∀ v ∈ items, v.all hasPropertyNames = true) (fun _ => True)
      fun _ _ => True := by
  induction items generalizing w with
  | nil => exact .pure (List.forall_mem_nil _) trivial
  | cons v items ih =>
    obtain ⟨hv, hi⟩ := List.forall_mem_cons.1 hi
    rw [Decoder.items]
    have hboth := (hv w).bind (fun _ => id) fun v w₁ _ _ =>
      (ih (w := w₁) hi).bind (fun _ => id) fun vs _ _ _ =>
        Decides.pure (a := v :: vs) (r := fun _ _ => True) trivial trivial
    exact hboth.of_iff (by rw [List.forall_mem_cons, and_true])

/-- Members are added to an open object up to the first one with a wrong name in it. -/
theorem decides_properties {members : List (List Char × Json)}
    (hm : ∀ e ∈ members, d.IsDecidedByNames e.2) (hr : r.index < w.heap.objects.size)
    (ho : (w.heap.object r).IsOpen) :
    Decides (d.properties r members) w
      (∀ e ∈ members, e.1.head? ≠ some '\x00' ∧ e.2.all hasPropertyNames = true) (· ≠ r.index)
      fun _ _ => True := by
  induction members generalizing w with
  | nil => exact .pure (List.forall_mem_nil _) trivial
  | cons e members ih =>
    obtain ⟨hv, hm⟩ := List.forall_mem_cons.1 hm
    rw [Decoder.properties]
    by_cases hzero : e.1.head? = some '\x00'
    · rw [if_pos hzero]
      exact ⟨fun h => (h e List.mem_cons_self).1 hzero, rfl⟩
    rw [if_neg hzero]
    -- the value of the member is made without touching the object, which is then still open
    have hall := (hv w).bind (t := (· ≠ r.index)) (fun _ _ => trivial) fun v w₁ hk _ => by
      obtain ⟨hr₁, ho₁⟩ := hk.isOpen_object trivial hr ho
      exact (decides_setMember hr₁ ho₁ e.1 v).bind (fun _ => id) fun _ w₂ _ hopen =>
        ih hm hopen.1 hopen.2
    exact hall.of_iff (by
      rw [List.forall_mem_cons, true_and, and_iff_right (a := e.1.head? ≠ some '\x00') hzero])

/-- A decoder that makes objects of an open class fails just where a name starts with a zero
character, and says so. -/
theorem isDecidedByNames (harrays : d.objectsAsArrays = false)
    (hclass : ∃ c, d.objectClass? = some c ∧ c.IsOpen) (document : Json) :
    d.IsDecidedByNames document := by
  induction document using Json.induction with
  | null | bool | float => exact fun w => .pure rfl trivial
  | int i =>
    intro w
    rw [Decoder.value]
    split
    · exact .pure rfl trivial
    · split
      · exact (decides_newString _).of_iff (iff_of_true trivial rfl)
      · exact .pure rfl trivial
  | string s => exact fun w => (decides_newString _).of_iff (iff_of_true trivial rfl)
  | array items ih =>
    intro w
    rw [Decoder.value]
    refine ((decides_items ih).bind (fun _ => id) fun vs w₁ _ _ =>
      decides_newArray (.ofList vs)).of_iff ?_
    rw [all_array_iff, and_true, and_iff_right]
    rfl
  | object members ih =>
    intro w
    rw [Decoder.value, harrays, if_neg Bool.false_ne_true]
    -- filling the new object changes none of those that were there before it
    have hall := (decides_newObject (w := w) hclass).bind (t := (· < w.heap.objects.size))
      (fun _ _ => trivial) fun r w₁ _ hr =>
        ((decides_properties ih hr.2.1 hr.2.2).mono fun h hk =>
          hk.mono fun i hi => Nat.ne_of_lt (Nat.lt_of_lt_of_le hi hr.1)).bind (fun _ => id)
            fun _ _ _ _ => Decides.pure (a := Val.object r) (r := fun _ _ => True) trivial trivial
    refine (hall.mono fun h hk => ?_).of_iff ?_
    · exact ⟨hk.arrays, fun i o _ ho => hk.objects i o (Array.getElem?_eq_some_iff.1 ho).1 ho⟩
    · rw [true_and, and_true, all_object_iff, hasPropertyNames_object_iff]
      exact forall₂_and

/-- Whether no object that a parser reads of a text has a name that starts with a zero character. Of
several members of one object with one name only one is read. -/
def Parser.namesProperties (p : Parser) (text : Bytes) : Bool :=
  ((Bytes.Utf8.decode? text).bind fun cs => (p.read cs).toOption).all (·.all hasPropertyNames)

theorem namesProperties_eq {p : Parser} {text : Bytes} {maxDepth : Nat} {document : Json}
    (h : p.parse text maxDepth = .ok document) :
    p.namesProperties text = document.all hasPropertyNames := by
  rw [Parser.parse] at h
  rw [Parser.namesProperties]
  split at h
  · cases h
  next cs hcs =>
    split at h
    · cases h
    next v hv =>
      split at h
      · cases h
      cases h
      rw [hcs, Option.bind_some, hv]
      rfl

end Json

namespace Session

open Json

variable {p : Parser} {s : Session} {text : Bytes} {depth? : Option Nat} {flags : Int64}
  {document : Json}

/-- Every decoder of a reachable session has the class of plain objects. -/
theorem Reachable.exists_objectClass? (hs : s.Reachable) (objectsAsArrays : Bool) (flags : Int64) :
    ∃ c, (s.decoder objectsAsArrays flags).objectClass? = some c ∧ c.IsOpen :=
  hs.exists_stdClass

/-- A text that cannot be read is refused by validating and decoding for the same reason. -/
theorem of_parse_eq_error {e : JsonError} (hr : p.parse text (s.jsonDepth depth?) = .error e) :
    (s.jsonValidate p text depth?).2 = false ∧
      (s.jsonValidate p text depth?).1.jsonError? = some e ∧
      ∀ objectsAsArrays flags,
        (s.jsonDecode p text objectsAsArrays depth? flags).2 = .error e ∧
          (s.jsonDecode p text objectsAsArrays depth? flags).1.jsonError? = some e := by
  refine ⟨?_, ?_, fun objectsAsArrays flags => ?_⟩
  · rw [jsonValidate, hr]
    rfl
  · rw [jsonValidate, hr]
    rfl
  · rw [jsonDecode, hr]
    exact ⟨rfl, rfl⟩

theorem jsonValidate_of_parse_eq_ok (hr : p.parse text (s.jsonDepth depth?) = .ok document) :
    (s.jsonValidate p text depth?).2 = true := by
  rw [jsonValidate, hr]
  rfl

/-- Every document can be read into arrays. -/
theorem isOk_jsonDecode_arrays (hr : p.parse text (s.jsonDepth depth?) = .ok document)
    (flags : Int64) : (s.jsonDecode p text true depth? flags).2.isOk = true := by
  have hfails := failsWith_value (P := fun _ => False) (d := s.decoder true flags) nofun document
  rw [jsonDecode, hr]
  dsimp only
  cases hd : (s.decoder true flags).value document ⟨s.heap, s.interner⟩ with
  | ok v w => rfl
  | error e w => exact (hfails _ e w hd).elim

/-- A document can be read into objects just if its names can be names of properties. -/
theorem jsonDecode_objects (hs : s.Reachable)
    (hr : p.parse text (s.jsonDepth depth?) = .ok document) (hf : flags &&& 1 = 0) :
    if document.all hasPropertyNames then (s.jsonDecode p text false depth? flags).2.isOk = true
    else (s.jsonDecode p text false depth? flags).2 = .error .invalidPropertyName ∧
      (s.jsonDecode p text false depth? flags).1.jsonError? = some .invalidPropertyName := by
  have harrays : (s.decoder false flags).objectsAsArrays = false := by
    rw [decoder, hf]
    rfl
  have hdecides := isDecidedByNames harrays (hs.exists_objectClass? false flags) document
    ⟨s.heap, s.interner⟩
  rw [Decoding.Decides] at hdecides
  rw [jsonDecode, hr]
  dsimp only
  cases hd : (s.decoder false flags).value document ⟨s.heap, s.interner⟩ with
  | ok v w =>
    rw [hd] at hdecides
    rw [if_pos hdecides.1]
    rfl
  | error e w =>
    rw [hd] at hdecides
    obtain ⟨hn, rfl⟩ := hdecides
    rw [if_neg hn]
    exact ⟨rfl, rfl⟩

/-- Decoding into arrays succeeds just if the text is valid, and fails with the same error. -/
theorem jsonDecode_arrays_agrees (s : Session) (p : Parser) (text : Bytes) (depth? : Option Nat)
    (flags : Int64) :
    ((s.jsonDecode p text true depth? flags).2.isOk = true ↔
      (s.jsonValidate p text depth?).2 = true) ∧
    ((s.jsonDecode p text true depth? flags).2.isOk = false → ∃ e,
      (s.jsonDecode p text true depth? flags).2 = .error e ∧
        (s.jsonDecode p text true depth? flags).1.jsonError? = some e ∧
        (s.jsonValidate p text depth?).1.jsonError? = some e) := by
  cases hr : p.parse text (s.jsonDepth depth?) with
  | error e =>
    obtain ⟨hinvalid, hlast, hrefused⟩ := of_parse_eq_error hr
    obtain ⟨hdecode, hdecodeLast⟩ := hrefused true flags
    refine ⟨iff_of_false ?_ (Bool.eq_false_iff.1 hinvalid), fun _ => ⟨e, hdecode, hdecodeLast, hlast⟩⟩
    rw [hdecode]
    exact Bool.false_ne_true
  | ok document =>
    have hdecode := isOk_jsonDecode_arrays hr flags
    exact ⟨iff_of_true hdecode (jsonValidate_of_parse_eq_ok hr),
      fun h => absurd (hdecode.symm.trans h) nofun⟩

/-- Decoding into objects succeeds just if the text is valid and the names can be names of
properties. A text that is not valid is refused with the same error. -/
theorem jsonDecode_objects_agrees (hs : s.Reachable) (p : Parser) (text : Bytes)
    (depth? : Option Nat) (hf : flags &&& 1 = 0) :
    ((s.jsonDecode p text false depth? flags).2.isOk = true ↔
      (s.jsonValidate p text depth?).2 = true ∧ p.namesProperties text = true) ∧
    ((s.jsonValidate p text depth?).2 = false → ∃ e,
      (s.jsonDecode p text false depth? flags).2 = .error e ∧
        (s.jsonDecode p text false depth? flags).1.jsonError? = some e ∧
        (s.jsonValidate p text depth?).1.jsonError? = some e) ∧
    ((s.jsonValidate p text depth?).2 = true → p.namesProperties text = false →
      (s.jsonDecode p text false depth? flags).2 = .error .invalidPropertyName ∧
        (s.jsonDecode p text false depth? flags).1.jsonError? = some .invalidPropertyName) := by
  cases hr : p.parse text (s.jsonDepth depth?) with
  | error e =>
    obtain ⟨hinvalid, hlast, hrefused⟩ := of_parse_eq_error hr
    obtain ⟨hdecode, hdecodeLast⟩ := hrefused false flags
    have hnot := Bool.eq_false_iff.1 hinvalid
    refine ⟨iff_of_false ?_ fun h => hnot h.1, fun _ => ⟨e, hdecode, hdecodeLast, hlast⟩,
      fun h => absurd h hnot⟩
    rw [hdecode]
    exact Bool.false_ne_true
  | ok document =>
    have hvalid := jsonValidate_of_parse_eq_ok hr
    have hnot : ¬(s.jsonValidate p text depth?).2 = false := (Bool.not_eq_false _).symm ▸ hvalid
    have hdecode := jsonDecode_objects hs hr hf
    rw [← namesProperties_eq hr] at hdecode
    cases hn : p.namesProperties text with
    | true =>
      rw [hn, if_pos rfl] at hdecode
      exact ⟨iff_of_true hdecode ⟨hvalid, rfl⟩, fun h => absurd h hnot, nofun⟩
    | false =>
      rw [hn, if_neg Bool.false_ne_true] at hdecode
      refine ⟨iff_of_false ?_ nofun, fun h => absurd h hnot, fun _ _ => hdecode⟩
      rw [hdecode.1]
      exact Bool.false_ne_true

/-- What a correct parser reads of a valid text of a document is the document with the last of
several members that have one name. -/
theorem namesProperties_eq_all_collapsed (hp : p.IsCorrect) {chars : List Char} {u : Json}
    (ht : text = Bytes.Utf8.encode chars) (hw : p.Writes chars u)
    (hvalid : (s.jsonValidate p text depth?).2 = true) :
    p.namesProperties text = u.collapsed.all hasPropertyNames := by
  cases hr : p.parse text (s.jsonDepth depth?) with
  | error e => exact absurd hvalid (Bool.eq_false_iff.1 (of_parse_eq_error hr).1)
  | ok document =>
    obtain ⟨-, -, hunique⟩ := hp.of_parse_eq_ok hr
    rw [namesProperties_eq hr, hunique chars u ht hw]

/-- Decoding and validating agree, whatever the parser is. Decoding into arrays succeeds just if the
text is valid; decoding into objects succeeds just if, moreover, no object that is read has a name
that starts with a zero character. A text that is not valid is refused by both with the same error,
and a valid one only because of a name. What a correct parser reads of a valid text of a document is
this document with the last of several members that have one name. -/
theorem jsonDecode_agrees_with_jsonValidate (hs : s.Reachable) (p : Parser) (text : Bytes)
    (depth? : Option Nat) (flags : Int64) :
    let validated := s.jsonValidate p text depth?
    let asArrays := s.jsonDecode p text true depth? flags
    let asObjects := s.jsonDecode p text false depth? flags
    ((asArrays.2.isOk = true ↔ validated.2 = true) ∧
      (asArrays.2.isOk = false → ∃ e, asArrays.2 = .error e ∧
        asArrays.1.jsonError? = some e ∧ validated.1.jsonError? = some e)) ∧
    (flags &&& 1 = 0 →
      (asObjects.2.isOk = true ↔ validated.2 = true ∧ p.namesProperties text = true) ∧
      (validated.2 = false → ∃ e, asObjects.2 = .error e ∧
        asObjects.1.jsonError? = some e ∧ validated.1.jsonError? = some e) ∧
      (validated.2 = true → p.namesProperties text = false →
        asObjects.2 = .error .invalidPropertyName ∧
          asObjects.1.jsonError? = some .invalidPropertyName)) ∧
    (p.IsCorrect → ∀ chars u, text = Bytes.Utf8.encode chars → p.Writes chars u →
      validated.2 = true → p.namesProperties text = u.collapsed.all hasPropertyNames) := by
  intro validated asArrays asObjects
  exact ⟨jsonDecode_arrays_agrees s p text depth? flags,
    fun hf => jsonDecode_objects_agrees hs p text depth? hf,
    fun hp _ _ ht hw hvalid => namesProperties_eq_all_collapsed hp ht hw hvalid⟩

/-- A list with an object whose only name is a zero character, after a reset. -/
theorem jsonDecode_agrees_with_jsonValidate_zero_name :
    let s : Session := (Session.start {}).reset
    let p := Parser.standard
    let text := Bytes.ofString "[\x7b\"\\u0000\":1\x7d]"
    s.Reachable ∧ (0 : Int64) &&& 1 = 0 ∧ (s.jsonValidate p text none).2 = true ∧
      (s.jsonDecode p text true none 0).2.isOk = true ∧
      (s.jsonDecode p text false none 0).2 = .error .invalidPropertyName := by
  intro s p text
  have hs : s.Reachable := .reset (.start {})
  have hflags : (0 : Int64) &&& 1 = 0 := by decide
  have hvalid : (s.jsonValidate p text none).2 = true := by decide +kernel
  obtain ⟨⟨harrays, -⟩, hobjects, -⟩ := jsonDecode_agrees_with_jsonValidate hs p text none 0
  obtain ⟨-, -, hname⟩ := hobjects hflags
  exact ⟨hs, hflags, hvalid, harrays.2 hvalid, (hname hvalid (by decide +kernel)).1⟩

/-- A text with a member that is not read: an object with such a name, in a member whose name comes
again. -/
theorem exists_decoded_with_zero_name : ∃ (s : Session) (p : Parser) (chars : List Char) (u : Json),
    s.Reachable ∧ p.IsCorrect ∧ p.Writes chars u ∧ u.all hasPropertyNames = false ∧
      (s.jsonValidate p (Bytes.Utf8.encode chars) (some 512)).2 = true ∧
      (s.jsonDecode p (Bytes.Utf8.encode chars) false (some 512) 0).2.isOk = true := by
  have hp := Parser.isCorrect_standard
  -- the two members, the first of which is an object with one member
  have hzero := spellsAll_member {} ['\x00', 'b'] (spells_decimalText hp 1).all
  have hinner : Parser.standard.SpellsAll (bracket {} 2 '\x7b' '\x7d' _) _ :=
    spellsAll_bracket {} 2 rfl rfl (.cons hzero .nil)
  have hfirst := spellsAll_member {} ['a'] hinner
  have hsecond := spellsAll_member {} ['a'] (spells_decimalText hp 2).all
  have hw : Parser.standard.SpellsAll (bracket {} 1 '\x7b' '\x7d' _) _ :=
    spellsAll_bracket {} 1 rfl rfl (.cons hfirst (.cons hsecond .nil))
  refine ⟨.start {}, .standard, _,
    .object [(['a'], .object [(['\x00', 'b'], .int 1)]), (['a'], .int 2)], .start {}, hp, hw,
    ?_, ?_, ?_⟩
  all_goals decide +kernel

end Session

end ObjectModel
