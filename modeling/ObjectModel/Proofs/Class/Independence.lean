import ObjectModel.Proofs.Class.Locality
import ObjectModel.Proofs.Class.StaticSharing
import ObjectModel.Proofs.Heap.Renumbering
import ObjectModel.Proofs.Session
/-!
# Independent declarations

Two classes of different names, of which neither names the other, may be declared in either order.
An attempt to declare a class changes the table under the name of the class alone, and not at all if
it fails; so the attempt to declare the other one sees the same classes as before, and has the same
result. The interfaces of enumerations are looked up without being named, but they are built in, so
no declaration changes what their names stand for.

The defaults of static properties are copied into the heap. In which order that happens shows in the
numbers of the copies and in nothing else, for which see `Heap.Paired`.
-/

namespace ObjectModel

/-- Whether the defaults of the static properties that go into the storage of a class can be
copied. -/
def ClassDef.HasCopyableStatics (h : Heap) (c : ClassDef) : Prop :=
  ∀ p ∈ c.properties.values, p.isStatic = true → p.declaringClass = c.name → h.IsCopyable p.default

namespace Heap

variable {h k k' l l' : Heap} {π : Pairing} {c : ClassDef}

/-- Static properties do not matter to how arrays and objects are paired. -/
theorem Paired.withStorages (hp : Paired h k k' π l l')
    (ss ss' : OrderedMap StorageId (OrderedMap String Val)) :
    Paired h k k' π { l with storages := ss } { l' with storages := ss' } where
  left := { hp.left with }
  right := { hp.right with }
  arrays_left := hp.arrays_left
  arrays_right := hp.arrays_right
  objects_left := hp.objects_left
  objects_right := hp.objects_right
  array := hp.array
  object := hp.object

theorem exists_setStatics (h : Heap) (c : ClassDef) (values : OrderedMap String Val) :
    ∃ storages, h.setStatics c values = { h with storages } := by
  rw [setStatics]
  split
  · exact ⟨_, rfl⟩
  · exact ⟨_, rfl⟩

theorem cells_initializeStatics (h : Heap) (c : ClassDef) :
    (h.initializeStatics c).cells = h.cells := by
  obtain ⟨ss, hs⟩ := exists_setStatics (h.copiedStatics c).1 c (h.copiedStatics c).2
  obtain ⟨as, os, hc⟩ := h.exists_copiedStatics c
  rw [initializeStatics_eq, hs, hc]

theorem storages_initializeStatics_of_ne {id : StorageId} (hid : c.storage? ≠ some id) :
    (h.initializeStatics c).storages.get? id = h.storages.get? id := by
  rw [← h.storages_copiedStatics c, initializeStatics_eq, setStatics]
  split
  next id' hc =>
    rw [OrderedMap.get?_insert, if_neg]
    rintro rfl
    exact hid hc
  next => rfl

/-- Copies of the same defaults in two heaps are equal up to the numbers of new containers. -/
theorem exists_paired_copiedStatics (hk : h.IsPrefixOf k) (hk' : h.IsPrefixOf k')
    (hc : c.HasCopyableStatics h) :
    ∃ π, Paired h k k' π (k.copiedStatics c).1 (k'.copiedStatics c).1 ∧
      (k.copiedStatics c).2.Corresponds (Val.SameUpTo h π) (k'.copiedStatics c).2 := by
  let own := c.properties.filter fun _ p => p.isStatic && p.declaringClass == c.name
  have hown (p : PropertyDef) (hp : p ∈ own.values) : h.IsCopyable p.default := by
    obtain ⟨name, hp⟩ := OrderedMap.mem_values_iff.1 hp
    rw [OrderedMap.get?_filter, Option.filter_eq_some_iff, Bool.and_eq_true, beq_iff_eq] at hp
    exact hc p (OrderedMap.mem_values_iff.2 ⟨name, hp.1⟩) hp.2.1 hp.2.2
  obtain ⟨π, -, hp, hvs⟩ := exists_lockstep_mapAccum (h := h) (I := Paired h k k')
    (f := fun h (p : PropertyDef) => h.deepCopy p.default) (l := own.values)
    (fun p hm _ _ _ hp => exists_paired_deepCopy hk hk' hp (hown p hm)) (.refl h k k')
  refine ⟨π, ?_, ?_⟩
  · rw [copiedStatics, copiedStatics, OrderedMap.mapAccum_fst, OrderedMap.mapAccum_fst]
    exact hp
  · rw [OrderedMap.Corresponds, copiedStatics, copiedStatics, OrderedMap.entries_mapAccum,
      OrderedMap.entries_mapAccum]
    exact forall₂_zipWith_zipWith (fun _ _ _ hv => ⟨rfl, hv⟩) own.entries hvs

theorem exists_paired_initializeStatics (hk : h.IsPrefixOf k) (hk' : h.IsPrefixOf k')
    (hc : c.HasCopyableStatics h) (hs : c.storage?.isSome) :
    ∃ π, Paired h k k' π (k.initializeStatics c) (k'.initializeStatics c) ∧
      ((k.initializeStatics c).statics c).Corresponds (Val.SameUpTo h π)
        ((k'.initializeStatics c).statics c) := by
  obtain ⟨π, hp, hvs⟩ := exists_paired_copiedStatics hk hk' hc
  rw [initializeStatics_eq, initializeStatics_eq, statics_setStatics_self hs,
    statics_setStatics_self hs]
  obtain ⟨ss, he⟩ := exists_setStatics (k.copiedStatics c).1 c (k.copiedStatics c).2
  obtain ⟨ss', he'⟩ := exists_setStatics (k'.copiedStatics c).1 c (k'.copiedStatics c).2
  rw [he, he']
  exact ⟨π, hp.withStorages ss ss', hvs⟩

end Heap

structure Attempt where
  table : ClassTable
  heap : Heap
  /-- The declared class, or what is wrong with it. -/
  result : Except Error ClassDef

namespace ClassTable

/-- Attempts to declare a class. One that is refused changes nothing. -/
def attempt (t : ClassTable) (h : Heap) (c : ClassDef) : Attempt :=
  match t.declare h c with
  | .ok (table, heap, d) => { table, heap, result := .ok d }
  | .error e => { table := t, heap := h, result := .error e }

end ClassTable

def Attempt.andThen (s : Attempt) (c : ClassDef) : Attempt := s.table.attempt s.heap c

namespace ClassTable

variable {t t' : ClassTable} {h h' k k' : Heap} {a b c d : ClassDef}

/-- An attempt is refused, or the class is declared. -/
theorem attempt_cases (t : ClassTable) (h : Heap) (c : ClassDef) :
    (∃ e, t.attempt h c = ⟨t, h, .error e⟩) ∨
      ∃ t' h' d, t.declare h c = .ok (t', h', d) ∧ t.attempt h c = ⟨t', h', .ok d⟩ := by
  rw [attempt]
  split
  next t' h' d hd => exact .inr ⟨t', h', d, hd, rfl⟩
  next e _ => exact .inl ⟨e, rfl⟩

theorem extends_attempt (t : ClassTable) (h : Heap) (c : ClassDef) :
    t.Extends (t.attempt h c).table := by
  obtain ⟨e, he⟩ | ⟨t', h', d, hd, he⟩ := t.attempt_cases h c
  · rw [he]
    exact .refl t
  · rw [he]
    exact extends_of_declare hd

/-- A declared class has the storage of its key. -/
theorem storage?_of_result_attempt (hd : (t.attempt h c).result = .ok d) :
    d.storage? = some ⟨t.generation, Name.classKey c.name⟩ := by
  obtain ⟨e, he⟩ | ⟨t', h', d', hd', he⟩ := t.attempt_cases h c
  · rw [he] at hd
    cases hd
  · rw [he] at hd
    cases hd
    rw [← (frame_of_declare hd').1]
    exact (storage_of_declare hd').2.1

/-- A table is changed under the name of the class alone. -/
theorem get?_attempt (t : ClassTable) (h : Heap) (c : ClassDef) (key : String) :
    (t.attempt h c).table.classes.get? key =
      if key = Name.classKey c.name then (t.attempt h c).result.toOption.or (t.classes.get? key)
      else t.classes.get? key := by
  obtain ⟨e, he⟩ | ⟨t', h', d, hd, he⟩ := t.attempt_cases h c
  · rw [he]
    exact (ite_self _).symm
  · rw [he]
    change t'.classes.get? key = if _ then some d else _
    rw [(exists_of_declare hd).2.2.1, OrderedMap.get?_insert, (frame_of_declare hd).1]

theorem get?_attempt_of_ne (t : ClassTable) (h : Heap) {name : String}
    (hn : Name.classKey name ≠ Name.classKey c.name) :
    (t.attempt h c).table.get? name = t.get? name :=
  (t.get?_attempt h c _).trans (if_neg hn)

@[simp] theorem generation_attempt (t : ClassTable) (h : Heap) (c : ClassDef) :
    (t.attempt h c).table.generation = t.generation := by
  obtain ⟨e, he⟩ | ⟨t', h', d, hd, he⟩ := t.attempt_cases h c
  · rw [he]
  · rw [he]
    exact (storage_of_declare hd).1

@[simp] theorem allowsDynamic_attempt (t : ClassTable) (h : Heap) (c : ClassDef) :
    (t.attempt h c).table.allowsDynamic = t.allowsDynamic := by
  obtain ⟨e, he⟩ | ⟨t', h', d, hd, he⟩ := t.attempt_cases h c
  · rw [he]
  · rw [he]
    obtain ⟨l, -, hd⟩ := exists_of_bind_eq_ok hd
    cases hd
    rfl

/-- All that an attempt does to the heap is to set up the storage of the class. -/
theorem heap_attempt (t : ClassTable) (h : Heap) (c : ClassDef) :
    (t.attempt h c).heap =
      match (t.attempt h c).result with
      | .ok d => h.initializeStatics d
      | .error _ => h := by
  obtain ⟨e, he⟩ | ⟨t', h', d, hd, he⟩ := t.attempt_cases h c
  · rw [he]
  · rw [he]
    exact (storage_of_declare hd).2.2

@[simp] theorem cells_attempt (t : ClassTable) (h : Heap) (c : ClassDef) :
    (t.attempt h c).heap.cells = h.cells := by
  rw [heap_attempt]
  split
  · exact h.cells_initializeStatics _
  · rfl

theorem storages_attempt_of_ne {id : StorageId}
    (hid : ∀ d, (t.attempt h c).result = .ok d → d.storage? ≠ some id) :
    (t.attempt h c).heap.storages.get? id = h.storages.get? id := by
  rw [heap_attempt]
  split
  next d hd => exact Heap.storages_initializeStatics_of_ne (hid d hd)
  next => rfl

/-- The result of an attempt depends on what linking looks at and on the settings of the table. -/
theorem AgreesOn.result_attempt (ha : t.AgreesOn t' c) (hc : h'.cells = h.cells)
    (hg : t'.generation = t.generation) (hd : t'.allowsDynamic = t.allowsDynamic) :
    (t'.attempt h' c).result = (t.attempt h c).result := by
  rw [attempt, attempt, declare, declare, ha.link_eq hc]
  cases t.link h c with
  | error e => rfl
  | ok l =>
    change Except.ok (t'.register h' l).2.2 = Except.ok (t.register h l).2.2
    rw [register, register, hg, hd]

/-- A class without constants may implement any interface. -/
theorem exists_of_implement {i : ClassDef} (hc : c.constants = ∅) (hi : i.kind = .interface) :
    ∃ ks is, c.implement i = .ok { c with constants := ks, interfaces := is } := by
  have hcheck : c.checkInterfaceConstants i.inheritedConstants = .ok () := by
    refine forM_eq_ok_iff.2 fun k _ => ?_
    rw [hc, OrderedMap.get?_empty]
  rw [ClassDef.implement, if_neg (fun hn => hn hi)]
  simp only [hcheck]
  exact ⟨_, _, rfl⟩

/-- An interface without members that extends at most one interface of the table can be linked under
a name that is free. -/
theorem exists_link_interface (h : Heap) {name : String} (hn : t.get? name = none)
    (base? : Option String)
    (hb : ∀ base ∈ base?, ∃ i, t.get? base = some i ∧ i.kind = .interface) :
    ∃ l, t.link h { name, kind := .interface, interfaceNames := base?.toList } = .ok l ∧
      l.kind = .interface := by
  let c : ClassDef := { name, kind := .interface, interfaceNames := base?.toList }
  have hfree : t.contains c.name = false := by
    rw [contains, hn]
    rfl
  have hlinked : ∃ ks is, t.linkInterfaces (markReadonly c) =
      .ok { markReadonly c with constants := ks, interfaces := is } := by
    cases base? with
    | none => exact ⟨_, _, rfl⟩
    | some base =>
      obtain ⟨i, hi, hk⟩ := hb base rfl
      obtain ⟨ks, is, he⟩ := exists_of_implement (c := markReadonly c) rfl hk
      have hnamed : [base].mapM (t.lookup .undefinedInterface) = .ok [i] := by
        rw [List.mapM_cons, lookup, hi]
        rfl
      refine ⟨ks, is, ?_⟩
      rw [← he]
      change ([base].mapM (t.lookup .undefinedInterface) >>= fun named =>
        (named ++ []).foldlM ClassDef.implement (markReadonly c)) = _
      rw [hnamed]
      change ([i].foldlM ClassDef.implement (markReadonly c)) = _
      rw [List.foldlM_cons, he]
      rfl
  obtain ⟨ks, is, hlinked⟩ := hlinked
  refine ⟨{ markReadonly c with constants := ks, interfaces := is }, ?_, rfl⟩
  rw [link]
  change (if t.contains c.name = true then _ else t.linkInterfaces (markReadonly c) >>= _) = _
  rw [hfree, hlinked]
  rfl

theorem exists_get?_attempt_interface (h : Heap) {name : String} (hn : t.get? name = none)
    (base? : Option String)
    (hb : ∀ base ∈ base?, ∃ i, t.get? base = some i ∧ i.kind = .interface) :
    ∃ i, (t.attempt h { name, kind := .interface, interfaceNames := base?.toList }).table.get? name =
      some i ∧ i.kind = .interface := by
  obtain ⟨l, hl, hk⟩ := exists_link_interface h hn base? hb
  refine ⟨(t.register h l).2.2, ?_, hk⟩
  have hr : (t.attempt h { name, kind := .interface, interfaceNames := base?.toList }).result =
      .ok (t.register h l).2.2 := by
    rw [attempt, declare, hl]
    rfl
  rw [get?, get?_attempt, if_pos rfl, hr]
  rfl

/-- Whether the interfaces that every enumeration has are in a table. -/
def HasEnumInterfaces (t : ClassTable) : Prop := t.contains "UnitEnum" ∧ t.contains "BackedEnum"

theorem HasEnumInterfaces.of_extends (ht : t.HasEnumInterfaces) (he : t.Extends t') :
    t'.HasEnumInterfaces := by
  have hkeep {name : String} (hn : t.contains name) : t'.contains name := by
    obtain ⟨c, hc⟩ := Option.isSome_iff_exists.1 hn
    rw [contains, he name c hc]
    rfl
  exact ⟨hkeep ht.1, hkeep ht.2⟩

theorem initial_eq_foldl (generation : Nat) (allowsDynamic : Bool) (h : Heap) :
    initial generation allowsDynamic h = builtins.foldl
      (fun s c => ((s.1.attempt s.2 c).table, (s.1.attempt s.2 c).heap))
      ({ generation, allowsDynamic }, h) := by
  rw [initial]
  congr 1
  funext s c
  dsimp only
  rw [attempt]
  cases s.1.declare s.2 c <;> rfl

/-- Both interfaces are declared where their names are free, since the second finds the first. -/
theorem hasEnumInterfaces_of_free (hu : t.get? "UnitEnum" = none)
    (hb : t.get? "BackedEnum" = none) :
    ((t.attempt h { name := "UnitEnum", kind := .interface }).andThen
      { name := "BackedEnum", kind := .interface, interfaceNames := ["UnitEnum"] }).table
      |>.HasEnumInterfaces := by
  obtain ⟨i, hi, hk⟩ := exists_get?_attempt_interface h hu none nofun
  rw [← t.get?_attempt_of_ne h (c := { name := "UnitEnum", kind := .interface }) (by decide)] at hb
  have hbase : ∀ base ∈ some "UnitEnum", ∃ i,
      (t.attempt h { name := "UnitEnum", kind := .interface }).table.get? base = some i ∧
        i.kind = .interface := by
    rintro _ ⟨⟩
    exact ⟨i, hi, hk⟩
  obtain ⟨i', hi', -⟩ := exists_get?_attempt_interface
    (t.attempt h { name := "UnitEnum", kind := .interface }).heap hb (some "UnitEnum") hbase
  exact ⟨Option.isSome_of_eq_some (extends_attempt _ _ _ _ _ hi), Option.isSome_of_eq_some hi'⟩

theorem hasEnumInterfaces_initial (generation : Nat) (allowsDynamic : Bool) (h : Heap) :
    (initial generation allowsDynamic h).1.HasEnumInterfaces := by
  rw [initial_eq_foldl, builtins]
  refine hasEnumInterfaces_of_free ?_ ?_
  · rw [get?_attempt_of_ne _ _ (by decide), get?_attempt_of_ne _ _ (by decide),
      get?_attempt_of_ne _ _ (by decide)]
    rfl
  · rw [get?_attempt_of_ne _ _ (by decide), get?_attempt_of_ne _ _ (by decide),
      get?_attempt_of_ne _ _ (by decide)]
    rfl

/-- Whether a table comes from one with the built-in classes only by declaring others, at any
heaps. -/
inductive FromInitial : ClassTable → Prop
  | initial (generation : Nat) (allowsDynamic : Bool) (h : Heap) :
      FromInitial (initial generation allowsDynamic h).1
  | declare {t t' : ClassTable} {h h' : Heap} {c d : ClassDef} : FromInitial t →
      t.declare h c = .ok (t', h', d) → FromInitial t'

theorem FromInitial.hasEnumInterfaces (ht : t.FromInitial) : t.HasEnumInterfaces := by
  induction ht with
  | initial generation allowsDynamic h => exact hasEnumInterfaces_initial generation allowsDynamic h
  | declare _ hd ih => exact ih.of_extends (extends_of_declare hd)

/-- After an attempt to declare a class, linking one that does not name it finds all as it was. -/
theorem FromInitial.agreesOn_attempt (ht : t.FromInitial) (h : Heap)
    (hne : Name.classKey a.name ≠ Name.classKey b.name) (hb : ¬ b.Names a) :
    t.AgreesOn (t.attempt h a).table b where
  name := t.get?_attempt_of_ne h hne.symm
  links name hn := t.get?_attempt_of_ne h fun hk => hb ⟨name, hn, hk⟩
  unitEnum := by
    obtain ⟨c, hc⟩ := Option.isSome_iff_exists.1 ht.hasEnumInterfaces.1
    rw [hc, t.extends_attempt h a _ c hc]
  backedEnum := by
    obtain ⟨c, hc⟩ := Option.isSome_iff_exists.1 ht.hasEnumInterfaces.2
    rw [hc, t.extends_attempt h a _ c hc]

/-- An attempt that comes after another has the result that it would have had before it. -/
theorem FromInitial.result_andThen (ht : t.FromInitial) (h : Heap)
    (hne : Name.classKey a.name ≠ Name.classKey b.name) (hb : ¬ b.Names a) :
    ((t.attempt h a).andThen b).result = (t.attempt h b).result :=
  (ht.agreesOn_attempt h hne hb).result_attempt (t.cells_attempt h a) (t.generation_attempt h a)
    (t.allowsDynamic_attempt h a)

/-- Whether two tables have the same settings and the same classes under the same keys. -/
structure SameAs (t t' : ClassTable) : Prop where
  generation_eq : t'.generation = t.generation
  allowsDynamic_eq : t'.allowsDynamic = t.allowsDynamic
  classes_perm : t.classes.entries.Perm t'.classes.entries

/-- Attempts of the same result in two heaps set up the same storage, up to the numbers of new
containers. -/
theorem exists_paired_attempt (hk : h.IsPrefixOf k) (hk' : h.IsPrefixOf k')
    (hr : (t'.attempt k' c).result = (t.attempt k c).result)
    (hs : ∀ d, (t.attempt k c).result = .ok d → d.HasCopyableStatics h) :
    ∃ π, Heap.Paired h k k' π (t.attempt k c).heap (t'.attempt k' c).heap ∧
      ∀ d, (t.attempt k c).result = .ok d →
        ((t.attempt k c).heap.statics d).Corresponds (Val.SameUpTo h π)
          ((t'.attempt k' c).heap.statics d) := by
  rw [heap_attempt, heap_attempt, hr]
  cases hd : (t.attempt k c).result with
  | error e => exact ⟨{}, .refl h k k', nofun⟩
  | ok d =>
    have hstorage : d.storage?.isSome := by
      rw [storage?_of_result_attempt hd]
      rfl
    obtain ⟨π, hp, hc⟩ := Heap.exists_paired_initializeStatics hk hk' (hs d hd) hstorage
    refine ⟨π, hp, ?_⟩
    rintro _ ⟨⟩
    exact hc

/-- The tables after two attempts, in either order, have the same classes. -/
theorem FromInitial.sameAs_andThen (ht : t.FromInitial) (h : Heap)
    (hne : Name.classKey a.name ≠ Name.classKey b.name) (ha : ¬ a.Names b) (hb : ¬ b.Names a) :
    ((t.attempt h a).andThen b).table.SameAs ((t.attempt h b).andThen a).table := by
  have hab := ht.result_andThen h hne hb
  have hba := ht.result_andThen h hne.symm ha
  rw [Attempt.andThen] at hab hba
  rw [Attempt.andThen, Attempt.andThen]
  refine ⟨by simp, by simp, OrderedMap.perm_entries fun key => ?_⟩
  rw [get?_attempt, get?_attempt, get?_attempt, get?_attempt, hab, hba]
  by_cases hka : key = Name.classKey a.name
  · subst hka
    rw [if_pos rfl, if_pos rfl, if_neg hne, if_neg hne]
  · rw [if_neg hka, if_neg hka]

/-- What storage there was before an attempt is there afterwards, and so for two attempts. -/
theorem storages_andThen_of_ne {id : StorageId}
    (ha : ∀ d, (t.attempt h a).result = .ok d → d.storage? ≠ some id)
    (hb : ∀ d, ((t.attempt h a).andThen b).result = .ok d → d.storage? ≠ some id) :
    ((t.attempt h a).andThen b).heap.storages.get? id = h.storages.get? id :=
  (storages_attempt_of_ne hb).trans (storages_attempt_of_ne ha)

/-- The static properties of a class stay as they are when one of another name is declared. -/
theorem statics_andThen_of_result (hne : Name.classKey a.name ≠ Name.classKey b.name)
    (hd : (t.attempt h a).result = .ok d) :
    ((t.attempt h a).andThen b).heap.statics d = (t.attempt h a).heap.statics d := by
  have hs := storage?_of_result_attempt hd
  rw [Heap.statics_of_storage? hs, Heap.statics_of_storage? hs]
  refine congrArg (Option.getD · ∅) (storages_attempt_of_ne fun e he hse => hne ?_)
  rw [storage?_of_result_attempt he, Option.some.injEq, StorageId.mk.injEq] at hse
  exact hse.2.symm

/-- The heaps after two attempts, in either order, are equal up to the numbers of new containers,
and so are the static properties of the new classes. -/
theorem FromInitial.exists_paired_andThen (ht : t.FromInitial)
    (hne : Name.classKey a.name ≠ Name.classKey b.name) (ha : ¬ a.Names b) (hb : ¬ b.Names a)
    (hs : ∀ d, (t.attempt h a).result = .ok d ∨ (t.attempt h b).result = .ok d →
      d.HasCopyableStatics h) :
    ∃ π, Heap.Paired h h h π ((t.attempt h a).andThen b).heap ((t.attempt h b).andThen a).heap ∧
      ∀ d, (t.attempt h a).result = .ok d ∨ (t.attempt h b).result = .ok d →
        (((t.attempt h a).andThen b).heap.statics d).Corresponds (Val.SameUpTo h π)
          (((t.attempt h b).andThen a).heap.statics d) := by
  have hbefore {c : ClassDef} (hc : ∀ d, (t.attempt h c).result = .ok d → d.HasCopyableStatics h) :
      h.IsPrefixOf (t.attempt h c).heap := by
    obtain ⟨_, hp, -⟩ := exists_paired_attempt (.refl h) (.refl h) rfl hc
    exact hp.left
  have hab := ht.result_andThen h hne hb
  obtain ⟨π, hp, hpc⟩ := exists_paired_attempt (.refl h) (hbefore fun d hd => hs d (.inr hd))
    (ht.result_andThen h hne.symm ha) fun d hd => hs d (.inl hd)
  obtain ⟨ρ, hq, hqc⟩ := exists_paired_attempt (hbefore fun d hd => hs d (.inl hd)) (.refl h)
    hab.symm fun d hd => hs d (.inr (hab ▸ hd))
  refine ⟨π ++ ρ, hp.combine hq, ?_⟩
  rintro d (hd | hd)
  · rw [statics_andThen_of_result hne hd]
    exact (hpc d hd).mono fun _ _ => .mono (Pairing.sub_append_left π ρ)
  · rw [statics_andThen_of_result hne.symm hd]
    exact (hqc d (hab.trans hd)).mono fun _ _ => .mono (Pairing.sub_append_right π ρ)

/-- Two classes of different names, of which neither names the other, may be declared in either
order. Each has the same result, be it the same linked class or the same error, and the tables end up
the same. All storage but that of the two classes is as it was; theirs has the same static
properties up to the numbers of the containers in them, if their defaults can be copied. -/
theorem FromInitial.andThen_comm (ht : t.FromInitial) (h : Heap)
    (hne : Name.classKey a.name ≠ Name.classKey b.name) (ha : ¬ a.Names b) (hb : ¬ b.Names a) :
    ((t.attempt h b).andThen a).result = (t.attempt h a).result ∧
    ((t.attempt h a).andThen b).result = (t.attempt h b).result ∧
    ((t.attempt h a).andThen b).table.SameAs ((t.attempt h b).andThen a).table ∧
    (∀ id, (∀ d, (t.attempt h a).result = .ok d ∨ (t.attempt h b).result = .ok d →
        d.storage? ≠ some id) →
      ((t.attempt h a).andThen b).heap.storages.get? id = h.storages.get? id ∧
      ((t.attempt h b).andThen a).heap.storages.get? id = h.storages.get? id) ∧
    ((∀ d, (t.attempt h a).result = .ok d ∨ (t.attempt h b).result = .ok d →
        d.HasCopyableStatics h) →
      ∃ π, Heap.Paired h h h π ((t.attempt h a).andThen b).heap ((t.attempt h b).andThen a).heap ∧
        ∀ d, (t.attempt h a).result = .ok d ∨ (t.attempt h b).result = .ok d →
          (((t.attempt h a).andThen b).heap.statics d).Corresponds (Val.SameUpTo h π)
            (((t.attempt h b).andThen a).heap.statics d)) := by
  have hab := ht.result_andThen h hne hb
  have hba := ht.result_andThen h hne.symm ha
  refine ⟨hba, hab, ht.sameAs_andThen h hne ha hb, fun id hid => ⟨?_, ?_⟩,
    ht.exists_paired_andThen hne ha hb⟩
  · exact storages_andThen_of_ne (fun d hd => hid d (.inl hd)) fun d hd => hid d (.inr (hab ▸ hd))
  · exact storages_andThen_of_ne (fun d hd => hid d (.inr hd)) fun d hd => hid d (.inl (hba ▸ hd))

private def ringHolder (name : String) : ClassDef :=
  ({ name } : ClassDef).addProperty
    { name := "ring", default := .object ⟨0⟩, isStatic := true }

/-- Two classes whose static properties start with the same object get a copy each, in either
order. -/
theorem andThen_comm_of_two_holders :
    ∃ (t : ClassTable) (h : Heap) (a b : ClassDef), t.FromInitial ∧
      Name.classKey a.name ≠ Name.classKey b.name ∧ ¬ a.Names b ∧ ¬ b.Names a ∧
      ∃ d e, ((t.attempt h a).andThen b).result = .ok e ∧
        ((t.attempt h b).andThen a).result = .ok d ∧
        ((t.attempt h a).andThen b).table.SameAs ((t.attempt h b).andThen a).table ∧
        ∃ π, Heap.Paired h h h π ((t.attempt h a).andThen b).heap
            ((t.attempt h b).andThen a).heap ∧
          ∀ c ∈ [d, e], (((t.attempt h a).andThen b).heap.statics c).Corresponds
            (Val.SameUpTo h π) (((t.attempt h b).andThen a).heap.statics c) := by
  let t := (initial 0 true {}).1
  have hplain : ["Left", "Right"].all (fun name =>
      (t.attempt Heap.ringHeap (ringHolder name)).result.toOption.any fun d =>
        d.properties.values.all (·.default == .object ⟨0⟩)) = true := by
    decide +kernel
  rw [List.all_eq_true] at hplain
  have hresult (name : String) (hn : name ∈ ["Left", "Right"]) :
      ∃ d, (t.attempt Heap.ringHeap (ringHolder name)).result = .ok d ∧
        d.HasCopyableStatics Heap.ringHeap := by
    obtain ⟨d, hd, hp⟩ := (Option.any_eq_true _ _).1 (hplain name hn)
    refine ⟨d, eq_ok_of_toOption_eq_some hd, fun p hm _ _ => ?_⟩
    rw [beq_iff_eq.1 (List.all_eq_true.1 hp p hm)]
    exact Heap.isCopyable_ringHeap
  obtain ⟨d, hd, hdc⟩ := hresult "Left" (by decide)
  obtain ⟨e, he, hec⟩ := hresult "Right" (by decide)
  have ht : t.FromInitial := .initial 0 true {}
  have hne : Name.classKey (ringHolder "Left").name ≠ Name.classKey (ringHolder "Right").name := by
    decide
  have ha : ¬ (ringHolder "Left").Names (ringHolder "Right") := by decide
  have hb : ¬ (ringHolder "Right").Names (ringHolder "Left") := by decide
  obtain ⟨hleft, hright, htable, -, hheap⟩ := ht.andThen_comm Heap.ringHeap hne ha hb
  have hcopyable (c : ClassDef)
      (hc : (t.attempt Heap.ringHeap (ringHolder "Left")).result = .ok c ∨
        (t.attempt Heap.ringHeap (ringHolder "Right")).result = .ok c) :
      c.HasCopyableStatics Heap.ringHeap := by
    obtain hc | hc := hc
    · rw [hd] at hc
      cases hc
      exact hdc
    · rw [he] at hc
      cases hc
      exact hec
  obtain ⟨π, hp, hs⟩ := hheap hcopyable
  refine ⟨t, Heap.ringHeap, ringHolder "Left", ringHolder "Right", ht, hne, ha, hb, d, e,
    hright.trans he, hleft.trans hd, htable, π, hp, ?_⟩
  simp only [List.forall_mem_cons]
  exact ⟨hs d (.inl hd), hs e (.inr he), nofun⟩

end ClassTable

end ObjectModel
