import ObjectModel.Proofs.Class.Lookup
import ObjectModel.Proofs.Heap.Copying
import ObjectModel.Proofs.Object.InPlace
/-!
# Shared static properties

Two walks along the chain of parents decide about a static property: one through the definitions
that classes hold, copies of their parents' among them, and one through the storage, where a class
has exactly the static properties that it declared or composed itself
(`ReachableWith.hasLawfulStatics`). They end at the same class. So a write is seen through every
class for which the walk through the storage ends at the class that was written to, and through no
other, `ReachableWith.staticSharing`.
-/

namespace ObjectModel

namespace Heap

variable {h h' : Heap} {c d : ClassDef} {name : String} {v w : Val} {scope? : Option ClassDef}

theorem statics_of_storage? {id : StorageId} (hc : c.storage? = some id) :
    h.statics c = (h.storages.get? id).getD ∅ := by
  rw [statics, hc, Option.bind_some]

theorem statics_congr (hs : h'.storages = h.storages) (c : ClassDef) : h'.statics c = h.statics c := by
  rw [statics, statics, hs]

theorem statics_setStatics_self (hc : c.storage?.isSome) (values : OrderedMap String Val) :
    (h.setStatics c values).statics c = values := by
  obtain ⟨id, hid⟩ := Option.isSome_iff_exists.1 hc
  rw [statics_of_storage? hid, setStatics, hid]
  simp

theorem statics_setStatics_of_ne (hne : d.storage? ≠ c.storage?) (values : OrderedMap String Val) :
    (h.setStatics c values).statics d = h.statics d := by
  rw [setStatics]
  split
  next id hid =>
    cases hd : d.storage? with
    | none => rw [statics, statics, hd]; rfl
    | some id' =>
      have hid' : id' ≠ id := fun he => hne (by rw [hd, hid, he])
      rw [statics_of_storage? hd, statics_of_storage? hd, OrderedMap.get?_insert, if_neg hid']
  next => rfl

/-- The static properties that go into the storage of a new class, and the heap once their defaults
are copied. -/
def copiedStatics (h : Heap) (c : ClassDef) : Heap × OrderedMap String Val :=
  (c.properties.filter fun _ p => p.isStatic && p.declaringClass == c.name).mapAccum
    (fun h p => h.deepCopy p.default) h

theorem initializeStatics_eq (h : Heap) (c : ClassDef) :
    h.initializeStatics c = (h.copiedStatics c).1.setStatics c (h.copiedStatics c).2 := rfl

/-- Copying the defaults of a class changes arrays and objects only. -/
theorem exists_copiedStatics (h : Heap) (c : ClassDef) :
    ∃ arrays objects, (h.copiedStatics c).1 = { h with arrays, objects } := by
  refine OrderedMap.mapAccum_induction
    (P := fun k : Heap => ∃ arrays objects, k = { h with arrays, objects }) ?_ ⟨_, _, rfl⟩ _
  rintro k p ⟨as, os, rfl⟩
  obtain ⟨as', os', he⟩ := exists_deepCopy { h with arrays := as, objects := os } p.default
  exact ⟨as', os', he⟩

theorem storages_copiedStatics (h : Heap) (c : ClassDef) :
    (h.copiedStatics c).1.storages = h.storages := by
  obtain ⟨as, os, he⟩ := h.exists_copiedStatics c
  rw [he]

/-- The storage of a new class has the static properties that are its own. -/
theorem contains_copiedStatics (h : Heap) (c : ClassDef) (name : String) :
    (h.copiedStatics c).2.contains name = (c.ownProperty? name).any (·.isStatic) := by
  rw [Bool.eq_iff_iff, OrderedMap.contains_iff, copiedStatics, OrderedMap.keys_mapAccum,
    ← OrderedMap.isSome_get?_iff, OrderedMap.get?_filter, ClassDef.ownProperty?]
  cases c.properties.get? name with
  | none => rfl
  | some p =>
    cases hs : p.isStatic <;> cases hd : p.declaringClass == c.name <;> simp [Option.filter, hs, hd]

theorem exists_of_get?_copiedStatics (hv : (h.copiedStatics c).2.get? name = some v) :
    ∃ p, c.properties.get? name = some p ∧ p.isStatic = true ∧
      v.isReference = p.default.isReference := by
  obtain ⟨k, p, hp, rfl⟩ := OrderedMap.exists_of_get?_mapAccum hv
  rw [OrderedMap.get?_filter, Option.filter_eq_some_iff] at hp
  obtain ⟨hp, hown⟩ := hp
  exact ⟨p, hp, (Bool.and_eq_true_iff.1 hown).1, isReference_copyWithin _ _ _⟩

/-- What a place holds once a value is assigned to it: what the value stands for, an integer as a
double where the type asks for that. -/
def assigned (h : Heap) (type? : Option TypeHint) (v : Val) : Val :=
  match h.deref v with
  | .int i => if type?.any (·.widens) then .float (.ofInt i.toInt) else .int i
  | w => w

theorem deref_of_coerceIfTyped {type? : Option TypeHint} {cls : String}
    (hw : h.coerceIfTyped type? v cls name = .ok w) : h.deref w = h.assigned type? v := by
  cases type? with
  | none =>
    cases hw
    rw [assigned]
    split
    next i hi => rw [hi]; rfl
    next => rfl
  | some t =>
    rw [coerceIfTyped, coerce] at hw
    split at hw
    next =>
      cases hv : h.deref v with
      | int i =>
        rw [hv] at hw
        cases hw
        rw [assigned, hv]
        cases ht : t.widens with
        | true => simpa [ht] using h.deref_eq_self rfl
        | false => simpa [ht] using hv
      | _ =>
        rw [hv] at hw
        cases hw
        rw [assigned, hv]
    next => cases hw

theorem isReference_assigned {type? : Option TypeHint} (hv : (h.deref v).isReference = false) :
    (h.assigned type? v).isReference = false := by
  rw [assigned]
  split
  next => split <;> rfl
  next => exact hv

/-- A write goes to the class that stores the property, if it is seen from the scope. -/
theorem exists_of_setStatic (hs : h.setStatic c name v scope? = .ok h') :
    ∃ owner p, c.staticDef h name scope? = .ok (owner, p) ∧
      ((((h.statics owner).get? name).getD .undefined).isReference = false →
        h' = h.setStatics owner ((h.statics owner).insert name (h.assigned p.type? v))) := by
  obtain ⟨⟨owner, p⟩, hdef, hs⟩ := exists_of_bind_eq_ok hs
  obtain ⟨w, hw, hs⟩ := exists_of_bind_eq_ok hs
  refine ⟨owner, p, hdef, fun hold => ?_⟩
  rw [← deref_of_coerceIfTyped hw]
  cases hs
  generalize ((h.statics owner).get? name).getD .undefined = old at hold
  cases old with
  | reference r => cases hold
  | _ => rfl

/-- The heap after a write to a static property, whether or not it failed. -/
def writeStatic (h : Heap) (c : ClassDef) (name : String) (v : Val) (scope? : Option ClassDef) :
    Heap :=
  (h.attempt (setStaticInPlace c name v scope?)).1

end Heap

namespace ClassTable

variable {t t' : ClassTable} {h h' : Heap} {c d : ClassDef} {name : String} {v : Val}
  {scope? : Option ClassDef}

/-- A class that has just been declared is given the storage of its key, with its own static
properties in it. -/
theorem storage_of_declare (hd : t.declare h c = .ok (t', h', d)) :
    t'.generation = t.generation ∧ d.storage? = some ⟨t.generation, Name.classKey d.name⟩ ∧
      h' = h.initializeStatics d := by
  obtain ⟨l, -, hd⟩ := exists_of_bind_eq_ok hd
  cases hd
  exact ⟨rfl, rfl, rfl⟩

theorem Reachable.storage?_eq (ht : t.Reachable) :
    ∀ c ∈ t.classes.values, c.storage? = some ⟨t.generation, Name.classKey c.name⟩ := by
  induction ht with
  | empty => exact nofun
  | declare _ _ hd ih =>
    obtain ⟨hg, hs, -⟩ := storage_of_declare hd
    intro e he
    rw [hg]
    obtain rfl | he := mem_values_of_declare hd he
    · exact hs
    · exact ih e he

/-- No two classes share their storage. -/
theorem Reachable.eq_of_storage? (ht : t.Reachable) (hc : c ∈ t.classes.values)
    (hd : d ∈ t.classes.values) (hs : c.storage? = d.storage?) : c = d := by
  rw [ht.storage?_eq c hc, ht.storage?_eq d hd, Option.some.injEq, StorageId.mk.injEq] at hs
  have hgc := ht.get?_name c hc
  rw [get?, hs.2] at hgc
  exact Option.some.inj (hgc.symm.trans (ht.get?_name d hd))

/-- Whether a table and a heap come about together: from an empty table by declaring fresh classes
and by writing static properties, while the heap may change in any way that leaves the storage of
the classes alone. A written value may be a reference if the chain that it starts has an end. -/
inductive ReachableWith : ClassTable → Heap → Prop
  | empty (generation : Nat) (allowsDynamic : Bool) (h : Heap) :
      ReachableWith { generation, allowsDynamic } h
  | declare {t t' : ClassTable} {h h' : Heap} {c d : ClassDef} : ReachableWith t h → c.IsFresh →
      t.declare h c = .ok (t', h', d) → ReachableWith t' h'
  | writeStatic {t : ClassTable} {h : Heap} {c : ClassDef} {v : Val} : ReachableWith t h →
      c ∈ t.classes.values → (h.deref v).isReference = false →
      (name : String) → (scope? : Option ClassDef) →
      ReachableWith t (h.writeStatic c name v scope?)
  | frame {t : ClassTable} {h h' : Heap} : ReachableWith t h →
      (∀ id, id.generation = t.generation → h'.storages.get? id = h.storages.get? id) →
      ReachableWith t h'

theorem ReachableWith.reachable (ht : t.ReachableWith h) : t.Reachable := by
  induction ht with
  | empty generation allowsDynamic => exact .empty generation allowsDynamic
  | declare _ hc hd ih => exact ih.declare hc hd
  | writeStatic _ _ _ _ _ ih => exact ih
  | frame _ _ ih => exact ih

def HasPlainStatics (t : ClassTable) : Prop :=
  ∀ c ∈ t.classes.values, ∀ p ∈ c.properties.values, p.isStatic = true →
    p.default.isReference = false

theorem HasPlainStatics.of_declare (ht : t.Reachable) (hp : t'.HasPlainStatics)
    (hd : t.declare h c = .ok (t', h', d)) : t.HasPlainStatics :=
  fun e he => hp e (mem_values_of_get? (extends_of_declare hd _ _ (ht.get?_name e he)))

/-- Whether the storage of a class has exactly its own static properties, none of which holds a
reference. -/
structure HasLawfulStatics (h : Heap) (c : ClassDef) : Prop where
  contains_eq : ∀ name, (h.statics c).contains name = (c.ownProperty? name).any (·.isStatic)
  isPlain : ∀ name v, (h.statics c).get? name = some v → v.isReference = false

theorem HasLawfulStatics.congr (hc : HasLawfulStatics h c) (hs : h'.statics c = h.statics c) :
    HasLawfulStatics h' c := by
  constructor
  · rw [hs]
    exact hc.contains_eq
  · rw [hs]
    exact hc.isPlain

/-- Writing another plain value under a name that is stored keeps the storage lawful. -/
theorem HasLawfulStatics.insert (hl : HasLawfulStatics h c) (hc : c.storage?.isSome)
    (hn : (h.statics c).contains name = true) (hv : v.isReference = false) :
    HasLawfulStatics (h.setStatics c ((h.statics c).insert name v)) c := by
  constructor
  · intro m
    rw [Heap.statics_setStatics_self hc, OrderedMap.contains_insert, ← hl.contains_eq]
    by_cases hm : m = name
    · simp [hm, hn]
    · simp [hm]
  · intro m w hw
    rw [Heap.statics_setStatics_self hc] at hw
    obtain ⟨-, rfl⟩ | hold := OrderedMap.of_get?_insert hw
    · exact hv
    · exact hl.isPlain m w hold

end ClassTable

namespace ClassDef

variable {h h' : Heap} {c owner : ClassDef} {name : String} {p : PropertyDef}
  {scope? : Option ClassDef}

theorem of_staticOwner? (ho : c.staticOwner? h name = some owner) :
    owner ∈ c.ancestors ∧ (h.statics owner).contains name = true := by
  exact ⟨List.mem_of_find?_eq_some ho,
    List.find?_some (p := fun a => (h.statics a).contains name) ho⟩

/-- What the definition behind an access to a static property is. -/
theorem of_staticDef (hd : c.staticDef h name scope? = .ok (owner, p)) :
    c.staticOwner? h name = some owner ∧ owner.properties.get? name = some p ∧
      p.isStatic = true ∧ p.isVisibleFrom scope? = true := by
  rw [staticDef] at hd
  split at hd
  · cases hd
  next o q hf =>
    obtain ⟨o', ho, hf⟩ := Option.bind_eq_some_iff.1 hf
    obtain ⟨q', hq, hf⟩ := Option.bind_eq_some_iff.1 hf
    cases hf
    rw [Option.filter_eq_some_iff] at hq
    split at hd
    next hv =>
      cases hd
      exact ⟨ho, hq.1, hq.2, hv⟩
    next => cases hd

/-- The definition behind an access depends on the heap through the owner alone. -/
theorem staticDef_congr (ho : c.staticOwner? h' name = c.staticOwner? h name) :
    c.staticDef h' name scope? = c.staticDef h name scope? := by
  rw [staticDef, staticDef, ho]

end ClassDef

/-- A write to a static property finds it in the storage of its owner, and only the checks before
can fail. -/
theorem Heap.Realizes.setStatic {h : Heap} {c : ClassDef} {name : String} {v : Val}
    {scope? : Option ClassDef} :
    h.Realizes (setStaticInPlace c name v scope?) (h.setStatic c name v scope?) := by
  refine get_bind (checked_bind fun found hd => get_bind (checked_bind fun w _ => get_bind ?_))
  have hstored := (ClassDef.of_staticOwner? (ClassDef.of_staticDef hd).1).2
  obtain ⟨old, hold⟩ := Option.isSome_iff_exists.1 hstored
  dsimp only
  rw [hold]
  exact modifyGet_bind (modify _)

namespace ClassTable

variable {t t' : ClassTable} {h h' : Heap} {c d owner : ClassDef} {name : String} {v : Val}
  {p : PropertyDef} {scope? : Option ClassDef}

/-- Where storage is lawful, the owner of a static property is the nearest class with a static
property of the name that is its own, whatever the heap holds. -/
theorem Reachable.staticOwner?_eq (ht : t.Reachable)
    (hl : ∀ e ∈ t.classes.values, HasLawfulStatics h e) (hc : c ∈ t.classes.values) :
    c.staticOwner? h name = c.ancestors.find? fun a => (a.ownProperty? name).any (·.isStatic) := by
  rw [ClassDef.staticOwner?]
  refine find?_congr fun a ha => ?_
  exact (hl a (ht.mem_of_mem_ancestors c hc a ha)).contains_eq name

/-- If a look-up finds a static property, the owner is the class that declared it. -/
theorem Reachable.exists_staticOwner? (ht : t.Reachable)
    (hl : ∀ e ∈ t.classes.values, HasLawfulStatics h e) (hc : c ∈ t.classes.values)
    (hf : c.findProperty? name = some p) (hp : p.isStatic = true) :
    ∃ owner, c.staticOwner? h name = some owner ∧ owner.name = p.declaringClass ∧
      t.get? p.declaringClass = some owner := by
  rw [ht.findProperty?_eq_nearestProperty? hc, ClassDef.nearestProperty?,
    List.findSome?_eq_some_iff] at hf
  obtain ⟨as, owner, bs, he, hown, hnone⟩ := hf
  have hname : owner.name = p.declaringClass := by
    rw [ClassDef.ownProperty?, Option.filter_eq_some_iff, beq_iff_eq] at hown
    exact hown.2.symm
  have hm : owner ∈ c.ancestors := by
    rw [he]
    exact List.mem_append_right as List.mem_cons_self
  refine ⟨owner, ?_, hname, ?_⟩
  · rw [ht.staticOwner?_eq hl hc, List.find?_eq_some_iff_append]
    refine ⟨by rw [hown]; exact hp, as, bs, he, fun a ha => ?_⟩
    rw [hnone a ha]
    rfl
  · rw [← hname]
    exact ht.get?_name owner (ht.mem_of_mem_ancestors c hc owner hm)

/-- A write replaces one value in the storage of the owner. -/
theorem Reachable.exists_of_setStatic (ht : t.Reachable)
    (hl : ∀ e ∈ t.classes.values, HasLawfulStatics h e) (hc : c ∈ t.classes.values)
    (hs : h.setStatic c name v scope? = .ok h') :
    ∃ owner p, c.staticDef h name scope? = .ok (owner, p) ∧ owner ∈ t.classes.values ∧
      (h.statics owner).contains name = true ∧
      h' = h.setStatics owner ((h.statics owner).insert name (h.assigned p.type? v)) := by
  obtain ⟨owner, p, hdef, he⟩ := Heap.exists_of_setStatic hs
  obtain ⟨ho, -, -, -⟩ := ClassDef.of_staticDef hdef
  obtain ⟨hm, hn⟩ := ClassDef.of_staticOwner? ho
  have hot := ht.mem_of_mem_ancestors c hc owner hm
  refine ⟨owner, p, hdef, hot, hn, he ?_⟩
  obtain ⟨old, hold⟩ := Option.isSome_iff_exists.1 hn
  rw [hold]
  exact (hl owner hot).isPlain name old hold

theorem Reachable.hasLawfulStatics_of_setStatic (ht : t.Reachable)
    (hl : ∀ e ∈ t.classes.values, HasLawfulStatics h e) (hc : c ∈ t.classes.values)
    (hv : (h.deref v).isReference = false) (hs : h.setStatic c name v scope? = .ok h') :
    ∀ e ∈ t.classes.values, HasLawfulStatics h' e := by
  obtain ⟨owner, p, -, hot, hn, rfl⟩ := ht.exists_of_setStatic hl hc hs
  intro e he
  by_cases heo : e = owner
  · subst heo
    refine (hl e he).insert ?_ hn (Heap.isReference_assigned hv)
    rw [ht.storage?_eq e he]
    rfl
  · have hne : e.storage? ≠ owner.storage? := fun hs => heo (ht.eq_of_storage? he hot hs)
    exact (hl e he).congr (Heap.statics_setStatics_of_ne hne _)

/-- A new class gets its static properties, and the storage of the others stays. -/
theorem Reachable.hasLawfulStatics_of_declare (ht : t.Reachable)
    (hl : ∀ e ∈ t.classes.values, HasLawfulStatics h e) (hc : c.IsFresh)
    (hp : t'.HasPlainStatics) (hd : t.declare h c = .ok (t', h', d)) :
    ∀ e ∈ t'.classes.values, HasLawfulStatics h' e := by
  obtain ⟨-, hstorage, rfl⟩ := storage_of_declare hd
  have hdt := mem_values_of_get? (get?_self_of_declare hd)
  intro e he
  rw [Heap.initializeStatics_eq]
  by_cases hed : e = d
  · subst hed
    constructor
    · rw [Heap.statics_setStatics_self (by rw [hstorage]; rfl)]
      exact h.contains_copiedStatics e
    · intro name v hv
      rw [Heap.statics_setStatics_self (by rw [hstorage]; rfl)] at hv
      obtain ⟨p, hg, hs, hr⟩ := Heap.exists_of_get?_copiedStatics hv
      rw [hr]
      exact hp e he p (OrderedMap.mem_values_iff.2 ⟨name, hg⟩) hs
  · refine (hl e ((mem_values_of_declare hd he).resolve_left hed)).congr ?_
    rw [Heap.statics_setStatics_of_ne fun hs => hed ((ht.declare hc hd).eq_of_storage? he hdt hs)]
    exact Heap.statics_congr (h.storages_copiedStatics d) e

theorem ReachableWith.hasLawfulStatics (ht : t.ReachableWith h) (hp : t.HasPlainStatics) :
    ∀ e ∈ t.classes.values, HasLawfulStatics h e := by
  induction ht with
  | empty => exact nofun
  | declare ht hc hd ih =>
    have hr := ht.reachable
    exact hr.hasLawfulStatics_of_declare (ih (hp.of_declare hr hd)) hc hp hd
  | writeStatic ht hc hv name scope? ih =>
    rw [Heap.writeStatic, Heap.Realizes.setStatic]
    cases hs : Heap.setStatic _ _ name _ scope? with
    | ok h' => exact ht.reachable.hasLawfulStatics_of_setStatic (ih hp) hc hv hs
    | error e => exact ih hp
  | frame ht hs ih =>
    intro e he
    refine (ih hp e he).congr ?_
    have hid := ht.reachable.storage?_eq e he
    rw [Heap.statics_of_storage? hid, Heap.statics_of_storage? hid, hs _ rfl]

/-- A write changes no owner. -/
theorem Reachable.staticOwner?_of_setStatic (ht : t.Reachable)
    (hl : ∀ e ∈ t.classes.values, HasLawfulStatics h e) (hc : c ∈ t.classes.values)
    (hv : (h.deref v).isReference = false) (hs : h.setStatic c name v scope? = .ok h')
    (hd : d ∈ t.classes.values) (m : String) : d.staticOwner? h' m = d.staticOwner? h m := by
  rw [ht.staticOwner?_eq hl hd,
    ht.staticOwner?_eq (ht.hasLawfulStatics_of_setStatic hl hc hv hs) hd]

/-- A read that comes to another place than a write gives what it gave before. -/
theorem Reachable.getStatic_of_setStatic_of_ne (ht : t.Reachable)
    (hl : ∀ e ∈ t.classes.values, HasLawfulStatics h e) (hc : c ∈ t.classes.values)
    (hv : (h.deref v).isReference = false) (hs : h.setStatic c name v scope? = .ok h')
    (hd : d ∈ t.classes.values) {m : String}
    (hne : m ≠ name ∨ d.staticOwner? h m ≠ c.staticOwner? h name) (reader? : Option ClassDef) :
    d.getStatic h' m reader? = d.getStatic h m reader? := by
  rw [ClassDef.getStatic, ClassDef.getStatic,
    ClassDef.staticDef_congr (ht.staticOwner?_of_setStatic hl hc hv hs hd m)]
  cases hread : d.staticDef h m reader? with
  | error e => rfl
  | ok found =>
    obtain ⟨place, q⟩ := found
    obtain ⟨owner, p, hwrite, hot, -, rfl⟩ := ht.exists_of_setStatic hl hc hs
    have hplace := (ClassDef.of_staticDef hread).1
    have howner := (ClassDef.of_staticDef hwrite).1
    have hget : ((h.setStatics owner ((h.statics owner).insert name (h.assigned p.type? v))).statics
        place).get? m = (h.statics place).get? m := by
      by_cases he : place = owner
      · subst he
        have hm : m ≠ name := hne.resolve_right fun hne => hne (hplace.trans howner.symm)
        rw [Heap.statics_setStatics_self (by rw [ht.storage?_eq place hot]; rfl),
          OrderedMap.get?_insert, if_neg hm]
      · have hpt := ht.mem_of_mem_ancestors d hd place (ClassDef.of_staticOwner? hplace).1
        rw [Heap.statics_setStatics_of_ne fun hs => he (ht.eq_of_storage? hpt hot hs)]
    change (if (((Heap.statics _ place).get? m).getD .undefined).isUndefined then _ else _) = _
    rw [hget]
    rfl

/-- A read that comes to the place of a write gives what was written, unless that is no value. -/
theorem Reachable.getStatic_of_setStatic_of_eq (ht : t.Reachable)
    (hl : ∀ e ∈ t.classes.values, HasLawfulStatics h e) (hc : c ∈ t.classes.values)
    (hv : (h.deref v).isReference = false) (hs : h.setStatic c name v scope? = .ok h')
    (hd : d ∈ t.classes.values) (he : d.staticOwner? h name = c.staticOwner? h name)
    (reader? : Option ClassDef) :
    d.getStatic h' name reader? = (do
      let (owner, p) ← d.staticDef h name reader?
      if (h.assigned p.type? v).isUndefined then .error (.uninitializedStatic owner.name name)
      else .ok (h.assigned p.type? v)) := by
  rw [ClassDef.getStatic,
    ClassDef.staticDef_congr (ht.staticOwner?_of_setStatic hl hc hv hs hd name)]
  cases hread : d.staticDef h name reader? with
  | error e => rfl
  | ok found =>
    obtain ⟨place, q⟩ := found
    obtain ⟨owner, p, hwrite, hot, -, rfl⟩ := ht.exists_of_setStatic hl hc hs
    obtain ⟨hplace, hq, -, -⟩ := ClassDef.of_staticDef hread
    obtain ⟨howner, hp, -, -⟩ := ClassDef.of_staticDef hwrite
    obtain rfl : place = owner := Option.some.inj (hplace.symm.trans (he.trans howner))
    obtain rfl : q = p := Option.some.inj (hq.symm.trans hp)
    change (if (((Heap.statics _ place).get? name).getD .undefined).isUndefined then _ else _) = _
    rw [Heap.statics_setStatics_self (by rw [ht.storage?_eq place hot]; rfl),
      OrderedMap.get?_insert, if_pos rfl]
    rfl

/-- How classes share static properties, after any declarations and writes. The owner of a static
property is the class that declares the one that a look-up finds. A write is seen through exactly
the classes with the same owner: where a read is permitted it gives what was written, and all other
reads give what they gave before. A write that fails changes nothing. -/
theorem ReachableWith.sharesStatics (ht : t.ReachableWith h) (hp : t.HasPlainStatics) :
    (∀ d ∈ t.classes.values, ∀ name p, d.findProperty? name = some p → p.isStatic = true →
      ∃ owner, d.staticOwner? h name = some owner ∧ owner.name = p.declaringClass ∧
        t.get? p.declaringClass = some owner) ∧
    (∀ c ∈ t.classes.values, ∀ name v scope? h', (h.deref v).isReference = false →
      h.setStatic c name v scope? = .ok h' → ∀ d ∈ t.classes.values, ∀ m reader?,
        (m ≠ name ∨ d.staticOwner? h m ≠ c.staticOwner? h name →
          d.getStatic h' m reader? = d.getStatic h m reader?) ∧
        (m = name → d.staticOwner? h m = c.staticOwner? h name →
          d.getStatic h' m reader? = (do
            let (owner, p) ← d.staticDef h m reader?
            if (h.assigned p.type? v).isUndefined then .error (.uninitializedStatic owner.name m)
            else .ok (h.assigned p.type? v)))) ∧
    ∀ c ∈ t.classes.values, ∀ name v scope? e, h.setStatic c name v scope? = .error e →
      h.writeStatic c name v scope? = h := by
  have hr := ht.reachable
  have hl := ht.hasLawfulStatics hp
  refine ⟨fun d hd name p => hr.exists_staticOwner? hl hd, ?_, ?_⟩
  · intro c hc name v scope? h' hv hs d hd m reader?
    refine ⟨fun hne => hr.getStatic_of_setStatic_of_ne hl hc hv hs hd hne reader?, ?_⟩
    rintro rfl he
    exact hr.getStatic_of_setStatic_of_eq hl hc hv hs hd he reader?
  · intro c _ name v scope? e he
    rw [Heap.writeStatic, Heap.Realizes.setStatic, he]
    rfl

theorem ReachableWith.declareAll (ht : t.ReachableWith h) {cs : List ClassDef}
    (hc : ∀ c ∈ cs, c.IsFresh) (hd : t.declareAll h cs = .ok (t', h')) : t'.ReachableWith h' := by
  induction cs generalizing t h with
  | nil =>
    cases hd
    exact ht
  | cons c cs ih =>
    obtain ⟨⟨t₁, h₁, d⟩, hd₁, hd⟩ := exists_of_bind_eq_ok hd
    exact ih (ht.declare (hc c List.mem_cons_self) hd₁)
      (fun e he => hc e (List.mem_cons_of_mem c he)) hd

/-- The name of the class that declares the static property that a look-up finds. -/
private def staticHome? (c : ClassDef) (name : String) : Option String :=
  ((c.findProperty? name).filter (·.isStatic)).map (·.declaringClass)

private theorem exists_of_staticHome? {home : String} (hc : staticHome? c name = some home) :
    ∃ p, c.findProperty? name = some p ∧ p.isStatic = true ∧ p.declaringClass = home := by
  obtain ⟨p, hp, he⟩ := Option.map_eq_some_iff.1 hc
  obtain ⟨hp, hs⟩ := Option.filter_eq_some_iff.1 hp
  exact ⟨p, hp, hs, he⟩

/-- A subclass shares the counter of its parent, and another has one of its own. -/
theorem sharesStatics_with_two_subclasses :
    ∃ (t : ClassTable) (h : Heap), t.ReachableWith h ∧ t.HasPlainStatics ∧
      ∃ counter ∈ t.classes.values, ∃ clicks ∈ t.classes.values, ∃ visits ∈ t.classes.values,
      ∃ h', h.setStatic clicks "count" (.int 5) none = .ok h' ∧
        counter.getStatic h' "count" none = .ok (.int 5) ∧
        visits.getStatic h' "count" none = visits.getStatic h "count" none := by
  let count : PropertyDef := { name := "count", default := .int 0, isStatic := true }
  let cs : List ClassDef :=
    [({ name := "Counter" } : ClassDef).addProperty count,
      { name := "Clicks", parentName? := some "Counter" },
      ({ name := "Visits", parentName? := some "Counter" } : ClassDef).addProperty count]
  have hcs : ∀ c ∈ cs, c.IsFresh := by
    simp only [cs, List.forall_mem_cons]
    exact ⟨.addProperty (.of_memberless rfl rfl rfl) _, .of_memberless rfl rfl rfl,
      .addProperty (.of_memberless rfl rfl rfl) _, nofun⟩
  have heval : (declareAll {} {} cs).toOption.any (fun s =>
      s.1.classes.values.all (fun c => c.properties.values.all fun p => !p.default.isReference) &&
      (s.1.get? "Counter").any fun counter => (s.1.get? "Clicks").any fun clicks =>
        (s.1.get? "Visits").any fun visits => staticHome? counter "count" == some "Counter" &&
          staticHome? clicks "count" == some "Counter" &&
          staticHome? visits "count" == some "Visits" &&
          (counter.staticDef s.2 "count" none).toOption.any (·.2.type?.isNone) &&
          (s.2.setStatic clicks "count" (.int 5) none).toOption.isSome) = true := by
    decide +kernel
  obtain ⟨⟨t, h⟩, htable, heval⟩ := (Option.any_eq_true _ _).1 heval
  have ht : t.ReachableWith h :=
    ReachableWith.declareAll (.empty 0 true {}) hcs (eq_ok_of_toOption_eq_some htable)
  simp only [Bool.and_eq_true, List.all_eq_true, Option.any_eq_true, beq_iff_eq] at heval
  obtain ⟨hplain, counter, hcounter, clicks, hclicks, visits, hvisits,
    ⟨⟨⟨hhome, hhome'⟩, hhome''⟩, ⟨owner, p⟩, hdef, htype⟩, hset⟩ := heval
  have hp : t.HasPlainStatics := fun c hc p hp _ => by simpa using hplain c hc p hp
  have hct := mem_values_of_get? hcounter
  have hkt := mem_values_of_get? hclicks
  have hvt := mem_values_of_get? hvisits
  obtain ⟨h', hset⟩ := Option.isSome_iff_exists.1 hset
  have hset := eq_ok_of_toOption_eq_some hset
  have hdef := eq_ok_of_toOption_eq_some hdef
  obtain ⟨howners, hwrites, -⟩ := ht.sharesStatics hp
  have howner (d : ClassDef) (hd : d ∈ t.classes.values) (home : String)
      (hh : staticHome? d "count" = some home) :
      ∃ o, d.staticOwner? h "count" = some o ∧ o.name = home ∧ t.get? home = some o := by
    obtain ⟨p, hf, hs, rfl⟩ := exists_of_staticHome? hh
    exact howners d hd "count" p hf hs
  obtain ⟨o, ho, hn, hg⟩ := howner counter hct "Counter" hhome
  obtain ⟨o', ho', -, hg'⟩ := howner clicks hkt "Counter" hhome'
  obtain ⟨o'', ho'', hn'', -⟩ := howner visits hvt "Visits" hhome''
  obtain rfl : o = o' := Option.some.inj (hg.symm.trans hg')
  have hne : visits.staticOwner? h "count" ≠ clicks.staticOwner? h "count" := by
    intro he
    rw [ho'', ho', Option.some.injEq] at he
    exact absurd (hn''.symm.trans (he ▸ hn)) (by decide)
  have hv : (h.deref (.int 5)).isReference = false := by
    rw [h.deref_int]
    rfl
  have hwrite := hwrites clicks hkt "count" (.int 5) none h' hv hset
  refine ⟨t, h, ht, hp, counter, hct, clicks, hkt, visits, hvt, h', hset, ?_,
    (hwrite visits hvt "count" none).1 (.inr hne)⟩
  rw [(hwrite counter hct "count" none).2 rfl (ho.trans ho'.symm), hdef]
  have hassigned : h.assigned p.type? (.int 5) = .int 5 := by
    rw [Option.isNone_iff_eq_none.1 htype, Heap.assigned, h.deref_int]
    rfl
  change (if (h.assigned p.type? (.int 5)).isUndefined then _ else _) = _
  rw [hassigned]
  rfl

end ClassTable

end ObjectModel
