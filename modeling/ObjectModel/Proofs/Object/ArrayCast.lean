import Mathlib.Data.List.Perm.Subperm
import ObjectModel.Object.Conversion
import ObjectModel.Proofs.Class.Readonly
import ObjectModel.Proofs.Object.Instance
import ObjectModel.Proofs.OrderedArray.Key
import ObjectModel.Proofs.OrderedArray.NextIndex
import ObjectModel.Proofs.Utf8
/-!
# Objects as arrays

Converted to an array, an object yields its slots with a value in their order, unless two of them
get one key. The key of a slot is the key that its marked name stands for, `arrayKey_eq`: its name
behind a mark that is empty for a public slot and that names an owner between zero characters for
any other. Different texts stand for different keys, so that exactly the slots of which the marked
names are the same meet in one entry, `values_toArray_eq_iff`.

A mark can be taken off again, `unmark_markedName`, if no public name begins with a zero character
and no class with private slots has one in its name. Neither declarations nor accesses see to that:
a dynamic property may have any name, even the marked name of a slot that is not public, although
the members of a decoded document are refused such names. `toArray_keeps_slots` therefore asks for
it.
-/

namespace ObjectModel

universe u

namespace OrderedArray

variable {α : Type u} {a : OrderedArray α} {l : List (Key × α)}

/-- Writing entries with new and distinct keys adds them as they come. -/
theorem entries_foldl_insert (ha : a.Bounded) (hl : (a.keys ++ l.map Prod.fst).Nodup) :
    (l.foldl (fun a e => a.insert e.1 e.2) a).entries = a.entries ++ l := by
  induction l generalizing a with
  | nil => exact (List.append_nil _).symm
  | cons e l ih =>
    have hk : e.1 ∉ a.keys := fun hm =>
      (List.nodup_append.1 hl).2.2 e.1 hm e.1 List.mem_cons_self rfl
    have hentries := entries_insert_of_notMem ha hk e.2
    have hkeys : (a.insert e.1 e.2).keys = a.keys ++ [e.1] := by
      rw [keys, hentries, List.map_append]
      rfl
    rw [List.foldl_cons, ih (ha.insert _ _), hentries, List.append_assoc]
    · rfl
    · rwa [hkeys, List.append_assoc]

theorem mem_keys_foldl_insert {k : Key}
    (h : k ∈ (l.foldl (fun a e => a.insert e.1 e.2) a).keys) : k ∈ a.keys ∨ k ∈ l.map Prod.fst := by
  induction l generalizing a with
  | nil => exact .inl h
  | cons e l ih =>
    rw [List.map_cons, List.mem_cons]
    obtain hinsert | hrest := ih h
    · exact (mem_keys_insert hinsert).elim (fun he => .inr (.inl he)) .inl
    · exact .inr (.inr hrest)

theorem Bounded.foldl_insert (ha : a.Bounded) (l : List (Key × α)) :
    (l.foldl (fun a e => a.insert e.1 e.2) a).Bounded :=
  List.foldlRecOn l _ ha fun _ hb e _ => hb.insert e.1 e.2

/-- An array that is written from as many entries as it has gets a key from each of them. -/
theorem nodup_of_size_foldl_insert
    (h : (l.foldl (fun a e => a.insert e.1 e.2) (∅ : OrderedArray α)).size = l.length) :
    (l.map Prod.fst).Nodup := by
  have hb : (∅ : OrderedArray α).Bounded := Nat.zero_le _
  have hsub := List.Nodup.subperm (hb.foldl_insert l).nodup_keys fun k hk =>
    (mem_keys_foldl_insert hk).resolve_left (List.not_mem_nil)
  have hlength : (l.map Prod.fst).length ≤
      (l.foldl (fun a e => a.insert e.1 e.2) (∅ : OrderedArray α)).keys.length := by
    rw [keys, List.length_map, List.length_map, length_entries, h]
  exact (hsub.perm_of_length_le hlength).nodup_iff.1 (hb.foldl_insert l).nodup_keys

end OrderedArray

namespace Slot

variable {s s' : Slot} {name name' : String}

def mark (s : Slot) : List Char :=
  match s.visibility with
  | .isPublic => []
  | .isProtected => ['\x00', '*', '\x00']
  | .isPrivate => '\x00' :: s.declaringClass.toList ++ ['\x00']

def markedName (s : Slot) (name : String) : List Char := s.mark ++ name.toList

/-- The key of a slot is the key that its marked name stands for. -/
theorem arrayKey_eq (s : Slot) (name : String) :
    s.arrayKey name = .ofBytes (Bytes.Utf8.encode (s.markedName name)) := by
  rw [arrayKey, markedName, mark]
  cases s.visibility with
  | isPublic => rfl
  | isProtected => exact (Key.ofBytes_zero_cons _).symm
  | isPrivate =>
    have hmarked : Bytes.Utf8.encode
        ('\x00' :: s.declaringClass.toList ++ ['\x00'] ++ name.toList) =
          0 :: (Bytes.ofString s.declaringClass ++ 0 :: Bytes.ofString name) := by
      rw [List.append_assoc, List.cons_append, Bytes.Utf8.encode_cons, Bytes.Utf8.encode_append]
      rfl
    dsimp only
    rw [hmarked]
    exact (Key.ofBytes_zero_cons _).symm

/-- Slots meet in an array just if their marked names are the same. -/
theorem arrayKey_eq_iff : s.arrayKey name = s'.arrayKey name' ↔
    s.markedName name = s'.markedName name' := by
  rw [arrayKey_eq, arrayKey_eq, Key.ofBytes_inj, Bytes.Utf8.encode_inj]

/-- The name behind a mark, if there is a mark. -/
def unmark : List Char → List Char
  | '\x00' :: cs => (cs.dropWhile (· ≠ '\x00')).tail
  | cs => cs

/-- Whether the end of the mark of a slot can be found in its marked name. -/
def IsLegible (s : Slot) (name : String) : Prop :=
  match s.visibility with
  | .isPublic => name.toList.head? ≠ some '\x00'
  | .isProtected => True
  | .isPrivate => '\x00' ∉ s.declaringClass.toList

/-- The name of a legible slot is what follows its mark. -/
theorem IsLegible.unmark_markedName (h : s.IsLegible name) :
    unmark (s.markedName name) = name.toList := by
  rw [IsLegible] at h
  rw [markedName, mark]
  cases hv : s.visibility with
  | isPublic =>
    rw [hv] at h
    change unmark name.toList = name.toList
    rw [unmark.eq_def]
    split
    next heq =>
      rw [heq] at h
      exact absurd rfl h
    next => rfl
  | isProtected => rfl
  | isPrivate =>
    rw [hv] at h
    change ((s.declaringClass.toList ++ ['\x00'] ++ name.toList).dropWhile (· ≠ '\x00')).tail = _
    have hcls : ∀ c ∈ s.declaringClass.toList, decide (c ≠ '\x00') = true := fun c hc =>
      decide_eq_true fun he => h (he ▸ hc)
    rw [List.append_assoc, List.dropWhile_append_of_pos hcls]
    rfl

/-- Legible slots of different names have different marked names. -/
theorem IsLegible.name_eq (h : s.IsLegible name) (h' : s'.IsLegible name')
    (he : s.markedName name = s'.markedName name') : name = name' := by
  rw [← String.toList_inj, ← h.unmark_markedName, he, h'.unmark_markedName]

end Slot

namespace Object

variable {o : Object}

def initializedSlots (o : Object) : List (String × Slot) :=
  o.slots.entries.filter (·.2.isInitialized)

/-- Whether the slots that have a value have different marked names. -/
def HasDistinctMarks (o : Object) : Prop :=
  ∀ name s name' s', o.slots.get? name = some s → o.slots.get? name' = some s' →
    s.isInitialized = true → s'.isInitialized = true →
    s.markedName name = s'.markedName name' → name = name'

/-- The slots that have a value, each under its key. -/
def keyedValues (o : Object) : List (Key × Val) :=
  o.initializedSlots.map fun e => (e.2.arrayKey e.1, e.2.value)

theorem toArray_eq (o : Object) :
    o.toArray = o.keyedValues.foldl (fun a e => a.insert e.1 e.2) ∅ := by
  rw [toArray, keyedValues, initializedSlots, List.foldl_map, List.foldl_filter]

/-- Slots have different keys just if they have different marked names. -/
theorem nodup_keyedValues_iff : (o.keyedValues.map Prod.fst).Nodup ↔ o.HasDistinctMarks := by
  have hmem (name : String) (s : Slot) : (name, s) ∈ o.initializedSlots ↔
      o.slots.get? name = some s ∧ s.isInitialized = true := by
    rw [initializedSlots, List.mem_filter, OrderedMap.mem_entries_iff]
  have hnames : (o.initializedSlots.map Prod.fst).Nodup :=
    o.slots.nodup_keys.sublist (List.filter_sublist.map _)
  rw [keyedValues, List.map_map]
  constructor
  · intro h name s name' s' hs hs' hi hi' he
    have hinj := List.inj_on_of_nodup_map h ((hmem name s).2 ⟨hs, hi⟩)
      ((hmem name' s').2 ⟨hs', hi'⟩) (Slot.arrayKey_eq_iff.2 he)
    exact congrArg Prod.fst hinj
  · intro h
    refine List.Nodup.map_on ?_ hnames.of_map
    rintro ⟨name, s⟩ hs ⟨name', s'⟩ hs' he
    obtain ⟨hs, hi⟩ := (hmem name s).1 hs
    obtain ⟨hs', hi'⟩ := (hmem name' s').1 hs'
    obtain rfl := h name s name' s' hs hs' hi hi' (Slot.arrayKey_eq_iff.1 he)
    cases hs.symm.trans hs'
    rfl

theorem entries_toArray (h : o.HasDistinctMarks) : o.toArray.entries = o.keyedValues := by
  rw [toArray_eq, OrderedArray.entries_foldl_insert (Nat.zero_le _)]
  · rfl
  · exact nodup_keyedValues_iff.2 h

/-- The array of an object has the values of its slots, in slot order and one entry for each, just
if the marked names of these slots are different. -/
theorem values_toArray_eq_iff :
    o.toArray.values = o.initializedSlots.map (·.2.value) ↔ o.HasDistinctMarks := by
  constructor
  · intro h
    apply nodup_keyedValues_iff.1
    apply OrderedArray.nodup_of_size_foldl_insert
    rw [← toArray_eq, ← OrderedArray.length_entries, keyedValues, List.length_map]
    simpa [OrderedArray.values] using congrArg List.length h
  · intro h
    rw [OrderedArray.values, entries_toArray h, keyedValues, List.map_map]
    rfl

def IsLegible (o : Object) : Prop :=
  ∀ name s, o.slots.get? name = some s → s.IsLegible name

theorem IsLegible.hasDistinctMarks (ho : o.IsLegible) : o.HasDistinctMarks :=
  fun name s name' s' hs hs' _ _ => (ho name s hs).name_eq (ho name' s' hs')

theorem IsLegible.insert {name : String} {s : Slot} (ho : o.IsLegible) (hs : s.IsLegible name) :
    { o with slots := o.slots.insert name s }.IsLegible := by
  intro name' s' hg
  obtain ⟨rfl, rfl⟩ | hold := OrderedMap.of_get?_insert hg
  · exact hs
  · exact ho name' s' hold

theorem IsLegible.erase (ho : o.IsLegible) (name : String) :
    { o with slots := o.slots.erase name }.IsLegible :=
  fun name' s hg => ho name' s (OrderedMap.of_get?_erase hg)

end Object

namespace Heap

variable {h : Heap} {r : ObjectRef} {t : ClassTable} {c : ClassDef}

/-- An access can make the marks of an object illegible by a dynamic property only. -/
theorem isLegible_access {a : Access} (ho : (h.object r).IsLegible)
    (ha : ∀ name v scope?, a = .set r name v scope? → name.toList.head? ≠ some '\x00') :
    ((h.access a).object r).IsLegible := by
  rw [access_eq]
  split
  next h' hs =>
    cases a with
    | set r' name v scope? =>
      obtain ⟨-, -, rfl⟩ | ⟨s, w, hg, -, -, rfl⟩ := exists_of_setProperty hs
      · refine object_setObject_induction ho ?_
        rintro rfl
        exact ho.insert (ha name v scope? rfl)
      -- a slot that is there keeps its mark
      · refine object_setObject_induction (by rwa [object_assign]) ?_
        rintro rfl
        exact ho.insert (ho name s hg)
    | unset r' name scope? =>
      obtain rfl | ⟨s, hg, -, rfl⟩ := exists_of_unsetProperty hs
      · exact ho
      · refine object_setObject_induction ho ?_
        rintro rfl
        split
        · exact ho.erase name
        · exact ho.insert (ho name s hg)
  next => exact ho

theorem isLegible_of_mem_states {as : List Access} (ho : (h.object r).IsLegible)
    (has : ∀ name v scope?, .set r name v scope? ∈ as → name.toList.head? ≠ some '\x00') :
    ∀ h' ∈ h.states as, (h'.object r).IsLegible := by
  induction as generalizing h with
  | nil => simpa [states] using ho
  | cons a as ih =>
    rw [states, List.forall_mem_cons]
    have hstep := isLegible_access (a := a) ho fun name v scope? he =>
      has name v scope? (he ▸ List.mem_cons_self)
    exact ⟨ho, ih hstep fun name v scope? hm => has name v scope? (List.mem_cons_of_mem _ hm)⟩

/-- The slots of an instance of a declared class are legible at first, if the names of the class and
of its ancestors have no zero character and no public property has a name that begins with one. -/
theorem isLegible_of_isInstanceOf (ht : t.Reachable) (hc : c ∈ t.classes.values)
    (ho : (h.object r).IsInstanceOf c) (hclasses : ∀ a ∈ c.ancestors, '\x00' ∉ a.name.toList)
    (hpublic : ∀ name p, c.instanceProperties.get? name = some p → p.visibility = .isPublic →
      name.toList.head? ≠ some '\x00') : (h.object r).IsLegible := by
  intro name s hg
  obtain ⟨p, hp, he⟩ := ho.exists_of_get? name s hg
  rw [he, Slot.IsLegible]
  change match p.visibility with
    | .isPublic => _
    | .isProtected => _
    | .isPrivate => '\x00' ∉ p.declaringClass.toList
  cases hv : p.visibility with
  | isPublic => exact hpublic name p hp hv
  | isProtected => trivial
  | isPrivate =>
    obtain ⟨a, ha, -, -, hdecl, -⟩ := ht.exists_of_get?_instanceProperties hc hp
    exact hdecl ▸ hclasses a ha

/-- An instance of a declared class as an array, in the course of any accesses. The array has the
values of the slots that have one, in slot order and one entry for each, just if no two of these
slots have one marked name. This is always so if neither the class nor an ancestor has a zero
character in its name, no public property is declared under a name that begins with one, and no such
name is written; each entry is then under the key of its slot. -/
theorem toArray_keeps_slots (ht : t.Reachable) (hc : c ∈ t.classes.values)
    (ho : (h.object r).IsInstanceOf c) (as : List Access) :
    (∀ h' ∈ h.states as,
      (h'.object r).toArray.values = (h'.object r).initializedSlots.map (·.2.value) ↔
        (h'.object r).HasDistinctMarks) ∧
    ((∀ a ∈ c.ancestors, '\x00' ∉ a.name.toList) →
      (∀ name p, c.instanceProperties.get? name = some p → p.visibility = .isPublic →
        name.toList.head? ≠ some '\x00') →
      (∀ name v scope?, .set r name v scope? ∈ as → name.toList.head? ≠ some '\x00') →
      ∀ h' ∈ h.states as, (h'.object r).toArray.entries = (h'.object r).keyedValues) := by
  refine ⟨fun h' _ => Object.values_toArray_eq_iff, fun hclasses hpublic has h' hm => ?_⟩
  have hlegible := isLegible_of_isInstanceOf ht hc ho hclasses hpublic
  exact Object.entries_toArray (isLegible_of_mem_states hlegible has h' hm).hasDistinctMarks

/-- A public property is written, another one is added of which the name is a numeral, and a
protected one is taken away. -/
def itemAccesses (r : ObjectRef) : List Access :=
  [.set r "id" (.int 8) none, .set r "7" (.int 1) none,
    .unset r "kind" (some { name := "Item" })]

/-- An object with a public, a private and a protected property, after some accesses. -/
theorem toArray_keeps_slots_item :
    ∃ t : ClassTable, t.Reachable ∧ ∃ c ∈ t.classes.values, ∃ (h : Heap) (r : ObjectRef),
      instantiate {} c = .ok (h, r) ∧ ∃ h' ∈ h.states (itemAccesses r),
        (h'.object r).toArray.entries = (h'.object r).keyedValues ∧
          (h'.object r).keyedValues = [(.str (Bytes.ofString "id"), .int 8),
            (.str (Bytes.ofString "\x00Item\x00secret"), .null), (.int 7, .int 1)] := by
  obtain ⟨t, ht, c, hc, hp⟩ := ClassTable.exists_of_declareAll
    [[{ name := "id", default := .int 7 },
        { name := "secret", default := .null, visibility := .isPrivate },
        { name := "kind", default := .null, visibility := .isProtected }].foldl
        ClassDef.addProperty { name := "Item" }]
    "Item"
    (fun c => c.ancestors.all (fun a => '\x00' ∉ a.name.toList) &&
      c.instanceProperties.keys.all (fun name => name.toList.head? ≠ some '\x00') &&
      (instantiate {} c).toOption.any fun s => (s.1.states (itemAccesses s.2)).any fun h' =>
        (h'.object s.2).keyedValues = [(.str (Bytes.ofString "id"), .int 8),
          (.str (Bytes.ofString "\x00Item\x00secret"), .null), (.int 7, .int 1)])
    (by
      simp only [List.forall_mem_cons]
      exact ⟨.addProperty (.addProperty (.addProperty (.of_memberless rfl rfl rfl) _) _) _, nofun⟩)
    (by decide)
  simp only [Bool.and_eq_true, List.all_eq_true, decide_eq_true_eq] at hp
  obtain ⟨⟨hclasses, hpublic⟩, hp⟩ := hp
  obtain ⟨⟨h, r⟩, hi, hp⟩ := (Option.any_eq_true _ _).1 hp
  obtain ⟨h', hm, hkeyed⟩ := List.any_eq_true.1 hp
  have hi := eq_ok_of_toOption_eq_some hi
  refine ⟨t, ht, c, hc, h, r, hi, h', hm, ?_, of_decide_eq_true hkeyed⟩
  refine (toArray_keeps_slots ht hc (isInstanceOf_of_instantiate hi).1 (itemAccesses r)).2 hclasses
    (fun name p hp _ => hpublic name (OrderedMap.mem_keys_of_get? hp)) ?_ h' hm
  intro name v scope? hset
  simp only [itemAccesses, List.mem_cons, Access.set.injEq, reduceCtorEq, List.not_mem_nil,
    or_false] at hset
  obtain ⟨-, rfl, -⟩ | ⟨-, rfl, -⟩ := hset
  · decide
  · decide

/-- A dynamic property under the marked name of a protected one: two slots have a value, and the
array has one entry. -/
theorem exists_slot_lost_by_toArray :
    ∃ t : ClassTable, t.Reachable ∧ ∃ c ∈ t.classes.values, ∃ (h : Heap) (r : ObjectRef),
      instantiate {} c = .ok (h, r) ∧ ∃ h' ∈ h.states [.set r "\x00*\x00x" (.int 2) none],
        (h'.object r).initializedSlots.map (·.2.value) = [.int 1, .int 2] ∧
          (h'.object r).toArray.values = [.int 2] := by
  obtain ⟨t, ht, c, hc, hp⟩ := ClassTable.exists_of_declareAll
    [({ name := "P" } : ClassDef).addProperty
      { name := "x", default := .int 1, visibility := .isProtected }]
    "P"
    (fun c => (instantiate {} c).toOption.any fun s =>
      (s.1.states [.set s.2 "\x00*\x00x" (.int 2) none]).any fun h' =>
        (h'.object s.2).initializedSlots.map (·.2.value) = [.int 1, .int 2] &&
          (h'.object s.2).toArray.values = [.int 2])
    (by
      simp only [List.forall_mem_cons]
      exact ⟨.addProperty (.of_memberless rfl rfl rfl) _, nofun⟩)
    (by decide)
  obtain ⟨⟨h, r⟩, hi, hp⟩ := (Option.any_eq_true _ _).1 hp
  obtain ⟨h', hm, hp⟩ := List.any_eq_true.1 hp
  rw [Bool.and_eq_true, decide_eq_true_eq, decide_eq_true_eq] at hp
  exact ⟨t, ht, c, hc, h, r, eq_ok_of_toOption_eq_some hi, h', hm, hp⟩

end Heap

end ObjectModel
