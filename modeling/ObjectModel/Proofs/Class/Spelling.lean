import Mathlib.Data.List.TakeWhile
import ObjectModel.Proofs.Class.Subtyping
/-!
# Spellings of a class name

The table finds a class under every spelling of its name: case does not count, and neither do
leading backslashes. Type checks compare names up to case only. So of the spellings that find a
class, type checks take those that have as many leading backslashes as the name that the class was
declared under, and no others: `Reachable.instanceOf_iff_of_get?` says so of all classes, and
`Reachable.accepts_spelling_iff` of the class itself, its subclasses and their objects.
-/

namespace ObjectModel

namespace Name

def SameLetter (c d : Char) : Prop :=
  c = d ∨ (c.isUpper ∧ d.toNat = c.toNat + 32) ∨ (d.isUpper ∧ c.toNat = d.toNat + 32)

theorem toLower_eq_toLower_iff {c d : Char} : c.toLower = d.toLower ↔ SameLetter c d := by
  rw [← Char.toNat_inj, toNat_toLower, toNat_toLower, SameLetter, ← Char.toNat_inj]
  simp only [isUpper_iff]
  split <;> split <;> omega

/-- Names are the same if they have the same letters one by one, be they capital or small. -/
theorem same_iff_forall₂ {a b : String} :
    same a b = true ↔ List.Forall₂ SameLetter a.toList b.toList := by
  rw [same, beq_iff_eq, foldCase, foldCase, String.ofList_inj, ← List.forall₂_eq_eq_eq,
    List.forall₂_map_left_iff, List.forall₂_map_right_iff]
  simp only [toLower_eq_toLower_iff]

def backslashes (name : String) : Nat := (name.toList.takeWhile (· == '\\')).length

theorem toList_eq (name : String) :
    name.toList = List.replicate (backslashes name) '\\' ++ (unqualified name).toList := by
  have hlead : name.toList.takeWhile (· == '\\') = List.replicate (backslashes name) '\\' := by
    apply List.eq_replicate_iff.2
    refine ⟨rfl, fun c hc => ?_⟩
    simpa using List.mem_takeWhile_imp hc
  rw [unqualified, String.toList_ofList, ← hlead, List.takeWhile_append_dropWhile]

@[simp] theorem backslashes_foldCase (name : String) :
    backslashes (foldCase name) = backslashes name := by
  rw [backslashes, foldCase, String.toList_ofList, List.takeWhile_map, List.length_map,
    beq_backslash_comp_toLower, backslashes]

/-- Names are the same up to case just if they are one key and begin with as many backslashes. -/
theorem same_iff {a b : String} :
    same a b = true ↔ backslashes a = backslashes b ∧ classKey a = classKey b := by
  constructor
  · intro h
    refine ⟨?_, classKey_congr h⟩
    rw [← backslashes_foldCase a, beq_iff_eq.1 h, backslashes_foldCase]
  · rintro ⟨hb, hk⟩
    rw [classKey_eq, classKey_eq] at hk
    apply beq_iff_eq.2
    apply String.toList_injective
    rw [toList_eq (foldCase a), toList_eq (foldCase b), hk, backslashes_foldCase,
      backslashes_foldCase, hb]

end Name

namespace ClassTable

variable {t : ClassTable} {c d : ClassDef} {n : String}

/-- A name that finds a class is a spelling of the name that the class has. -/
theorem Reachable.classKey_eq_of_get? (ht : t.Reachable) (hn : t.get? n = some c) :
    Name.classKey c.name = Name.classKey n := by
  induction ht with
  | empty => cases hn
  | declare _ _ hd ih =>
    rw [get?_of_declare hd] at hn
    split at hn
    next hk =>
      cases hn
      exact hk.symm
    next => exact ih hn

/-- A class that has the name that finds a class is the class found. -/
theorem Reachable.eq_of_isNamed_of_get? (ht : t.Reachable) (hn : t.get? n = some c)
    (hd : d ∈ t.classes.values) (hdn : d.isNamed n = true) : d = c := by
  have hg := ht.get?_name d hd
  rw [get?, Name.classKey_congr hdn] at hg
  exact Option.some.inj (hg.symm.trans hn)

theorem Reachable.isNamed_iff_of_get? (ht : t.Reachable) (hn : t.get? n = some c)
    (hd : d ∈ t.classes.values) :
    d.isNamed n = true ↔ d.isNamed c.name = true ∧ Name.backslashes n = Name.backslashes c.name := by
  have hkey := ht.classKey_eq_of_get? hn
  constructor
  · intro hdn
    obtain rfl := ht.eq_of_isNamed_of_get? hn hd hdn
    exact ⟨Name.same_refl _, (Name.same_iff.1 hdn).1.symm⟩
  · rintro ⟨hdc, hb⟩
    exact Name.same_trans hdc (Name.same_iff.2 ⟨hb.symm, hkey⟩)

theorem Reachable.isSubclassOf_iff_of_get? (ht : t.Reachable) (hn : t.get? n = some c)
    (hd : d ∈ t.classes.values) :
    d.isSubclassOf n = true ↔
      d.isSubclassOf c.name = true ∧ Name.backslashes n = Name.backslashes c.name := by
  simp only [ClassDef.isSubclassOf, List.any_eq_true]
  constructor
  · rintro ⟨a, ha, han⟩
    have hnamed := (ht.isNamed_iff_of_get? hn (ht.mem_of_mem_ancestors d hd a ha)).1 han
    exact ⟨⟨a, ha, hnamed.1⟩, hnamed.2⟩
  · rintro ⟨⟨a, ha, hac⟩, hb⟩
    exact ⟨a, ha, (ht.isNamed_iff_of_get? hn (ht.mem_of_mem_ancestors d hd a ha)).2 ⟨hac, hb⟩⟩

theorem Reachable.implementsInterface_iff_of_get? (ht : t.Reachable) (hn : t.get? n = some c)
    (hd : d ∈ t.classes.values) :
    d.implementsInterface n = true ↔
      d.implementsInterface c.name = true ∧ Name.backslashes n = Name.backslashes c.name := by
  simp only [ClassDef.implementsInterface, List.any_eq_true]
  constructor
  · rintro ⟨i, hi, hin⟩
    have hnamed := (ht.isNamed_iff_of_get? hn (ht.mem_of_mem_reachableInterfaces hd hi)).1 hin
    exact ⟨⟨i, hi, hnamed.1⟩, hnamed.2⟩
  · rintro ⟨⟨i, hi, hic⟩, hb⟩
    exact ⟨i, hi, (ht.isNamed_iff_of_get? hn (ht.mem_of_mem_reachableInterfaces hd hi)).2 ⟨hic, hb⟩⟩

/-- Of the spellings that find a class, an instance of the class is an instance of those with as
many leading backslashes as its name. -/
theorem Reachable.instanceOf_iff_of_get? (ht : t.Reachable) (hn : t.get? n = some c)
    (hd : d ∈ t.classes.values) :
    d.instanceOf n = true ↔
      d.instanceOf c.name = true ∧ Name.backslashes n = Name.backslashes c.name := by
  rw [ClassDef.instanceOf, ClassDef.instanceOf, Bool.or_eq_true, Bool.or_eq_true, or_and_right,
    ht.isSubclassOf_iff_of_get? hn hd, ht.implementsInterface_iff_of_get? hn hd]

/-- A class is a subclass and an instance of a spelling that finds it, and the spelling as a type
takes the objects of the class and of its subclasses, just if it has as many leading backslashes as
the name of the class. -/
theorem Reachable.accepts_spelling_iff (ht : t.Reachable) (hn : t.get? n = some c) :
    (c.instanceOf n = true ↔ Name.backslashes n = Name.backslashes c.name) ∧
    (c.isSubclassOf n = true ↔ Name.backslashes n = Name.backslashes c.name) ∧
    ∀ d ∈ t.classes.values, d.isSubclassOf c.name = true →
      ∀ (h : Heap) (v : Val) (r : ObjectRef), h.deref v = .object r → (h.object r).cls = d →
        (h.accepts (.cls n) v = true ↔ Name.backslashes n = Name.backslashes c.name) := by
  have hc := mem_values_of_get? hn
  have hself : c.isSubclassOf c.name = true :=
    List.any_eq_true.2 ⟨c, c.self_mem_ancestors, Name.same_refl _⟩
  have hinst : ∀ d ∈ t.classes.values, d.isSubclassOf c.name = true →
      (d.instanceOf n = true ↔ Name.backslashes n = Name.backslashes c.name) := by
    intro d hd hsub
    rw [ht.instanceOf_iff_of_get? hn hd, ClassDef.instanceOf, hsub, Bool.true_or, eq_self, true_and]
  refine ⟨hinst c hc hself, ?_, ?_⟩
  · rw [ht.isSubclassOf_iff_of_get? hn hc, hself, eq_self, true_and]
  · rintro d hd hsub h v r hv rfl
    rw [Heap.accepts, hv]
    exact hinst _ hd hsub

/-- A class and a subclass under a name in other letters. -/
theorem accepts_spelling_in_capitals :
    ∃ t : ClassTable, t.Reachable ∧ ∃ c d, t.get? "BASE" = some c ∧ t.get? "derived" = some d ∧
      c.instanceOf "BASE" = true ∧ c.isSubclassOf "BASE" = true ∧
      ∀ h : Heap, (h.object ⟨0⟩).cls = d → h.accepts (.cls "BASE") (.object ⟨0⟩) = true := by
  obtain ⟨t, ht, hp⟩ := exists_table_of_declareAll
    [{ name := "Base" }, { name := "Derived", parentName? := some "\\base" }]
    (fun t => (t.get? "BASE").any fun c => (t.get? "derived").any fun d =>
      d.isSubclassOf c.name && Name.backslashes "BASE" == Name.backslashes c.name)
    (by
      simp only [List.forall_mem_cons]
      exact ⟨.of_memberless rfl rfl rfl, .of_memberless rfl rfl rfl, nofun⟩)
    (by decide +kernel)
  simp only [Option.any_eq_true, Bool.and_eq_true, beq_iff_eq] at hp
  obtain ⟨c, hc, d, hd, hsub, hb⟩ := hp
  obtain ⟨hinst, hself, haccepts⟩ := ht.accepts_spelling_iff hc
  refine ⟨t, ht, c, d, hc, hd, hinst.2 hb, hself.2 hb, fun h hcls => ?_⟩
  exact (haccepts d (mem_values_of_get? hd) hsub h _ ⟨0⟩ (h.deref_eq_self rfl) hcls).2 hb

/-- The table finds `stdClass` under a name with a leading backslash, but the class is no instance
of that name, and the name as a type does not take the objects of the class. -/
theorem exists_spelling_refused :
    ∃ t : ClassTable, t.Reachable ∧ ∃ c, t.get? "\\stdClass" = some c ∧ c.isInstantiable = true ∧
      c.instanceOf "\\stdClass" = false ∧ c.isSubclassOf "\\stdClass" = false ∧
      ∀ h : Heap, (h.object ⟨0⟩).cls = c →
        h.accepts (.cls "\\stdClass") (.object ⟨0⟩) = false := by
  have hp : ((initial 0 true {}).1.get? "\\stdClass").any (fun c => c.isInstantiable &&
      !c.instanceOf "\\stdClass" && !c.isSubclassOf "\\stdClass") = true := by
    decide +kernel
  simp only [Option.any_eq_true, Bool.and_eq_true, Bool.not_eq_true'] at hp
  obtain ⟨c, hc, ⟨hnew, hinst⟩, hsub⟩ := hp
  refine ⟨_, reachable_initial 0 true {}, c, hc, hnew, hinst, hsub, ?_⟩
  rintro h rfl
  rw [Heap.accepts, h.deref_eq_self rfl]
  exact hinst

end ClassTable

end ObjectModel
