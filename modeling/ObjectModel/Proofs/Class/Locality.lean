import ObjectModel.Proofs.Class.Linking
/-!
# What linking looks at

Linking a class reads the table at a few names: that of the class, those that it gives for its
parent, its traits and its interfaces, and those of the interfaces that every enumeration has. Of the
heap it reads the reference cells, behind which values are compared. Where two tables and two heaps
agree on that much, linking has the same outcome, `AgreesOn.link_eq`.
-/

namespace ObjectModel

section Heaps

variable {h h' : Heap} (hc : h'.cells = h.cells)
include hc

theorem Heap.identical_congr (v w : Val) : h'.identical v w = h.identical v w := by
  rw [identical, identical, deref_congr hc, deref_congr hc]

namespace ClassDef

theorem composeProperty_congr (name : String) (ps : List (ClassDef × PropertyDef)) (c : ClassDef) :
    composeProperty h' name ps c = composeProperty h name ps c := by
  have hp (p q : PropertyDef) : compatibleProperties h' p q = compatibleProperties h p q := by
    rw [compatibleProperties, compatibleProperties, Heap.identical_congr hc]
  simp only [composeProperty.eq_def, hp]

theorem useTraits_congr (c : ClassDef) (traits : List ClassDef) :
    c.useTraits h' traits = c.useTraits h traits := by
  have hs (excluded : List (String × String)) :
      compositionSteps h' c traits excluded = compositionSteps h c traits excluded := by
    have hp (name : String) (ps : List (ClassDef × PropertyDef)) :
        composeProperty h' name ps = composeProperty h name ps :=
      funext fun c => composeProperty_congr hc name ps c
    simp only [compositionSteps, hp]
  simp only [useTraits, compose, hs]

theorem checkCases_congr (c : ClassDef) (seen : List (String × Val))
    (cases : List (String × Option Val)) :
    checkCases h' c seen cases = checkCases h c seen cases := by
  have hv (case : String) (value? : Option Val) :
      c.checkCaseValue h' case value? = c.checkCaseValue h case value? := by
    simp only [checkCaseValue, Heap.deref_congr hc]
  induction cases generalizing seen with
  | nil => rfl
  | cons e cases ih => simp only [checkCases, hv, ih, Heap.identical_congr hc]

end ClassDef

theorem ClassTable.checkLinked_congr (c : ClassDef) : checkLinked h' c = checkLinked h c := by
  have he : c.checkEnum h' = c.checkEnum h := by
    simp only [ClassDef.checkEnum, ClassDef.checkCases_congr hc]
  rw [checkLinked, checkLinked, he]

end Heaps

namespace ClassDef

def linkNames (c : ClassDef) : List String :=
  c.parentName?.toList ++ c.traitNames ++ c.interfaceNames

def Names (c d : ClassDef) : Prop :=
  ∃ name ∈ c.linkNames, Name.classKey name = Name.classKey d.name

instance (c d : ClassDef) : Decidable (c.Names d) :=
  inferInstanceAs (Decidable (∃ name ∈ c.linkNames, Name.classKey name = Name.classKey d.name))

end ClassDef

namespace ClassTable

variable {t t' : ClassTable} {h h' : Heap} {c d : ClassDef}

/-- Whether two tables have the same classes under all names that linking a class looks up. -/
structure AgreesOn (t t' : ClassTable) (c : ClassDef) : Prop where
  name : t'.get? c.name = t.get? c.name
  links : ∀ name ∈ c.linkNames, t'.get? name = t.get? name
  unitEnum : t'.get? "UnitEnum" = t.get? "UnitEnum"
  backedEnum : t'.get? "BackedEnum" = t.get? "BackedEnum"

theorem lookup_congr {name : String} (hn : t'.get? name = t.get? name)
    (complaint : String → Error) : t'.lookup complaint name = t.lookup complaint name := by
  rw [lookup, lookup, hn]

namespace AgreesOn

theorem linkParent_eq (ha : t.AgreesOn t' c) : t'.linkParent (markReadonly c) =
    t.linkParent (markReadonly c) := by
  rw [linkParent, linkParent]
  cases hn : (markReadonly c).parentName? with
  | none => rfl
  | some name =>
    have hparent : c.parentName? = some name := hn
    have hm : name ∈ c.linkNames := by simp [ClassDef.linkNames, hparent]
    simp only [lookup_congr (ha.links name hm)]

theorem linkTraits_eq (ha : t.AgreesOn t' c) (hc : h'.cells = h.cells)
    (hd : d.traitNames = c.traitNames) : t'.linkTraits h' d = t.linkTraits h d := by
  have hnames : d.traitNames.mapM (t'.lookup .undefinedTrait) =
      d.traitNames.mapM (t.lookup .undefinedTrait) := by
    refine mapM_congr fun name hn => lookup_congr (ha.links name ?_) _
    rw [hd] at hn
    simp [ClassDef.linkNames, hn]
  rw [linkTraits, linkTraits, hnames]
  simp only [ClassDef.useTraits_congr hc]

theorem linkInterfaces_eq (ha : t.AgreesOn t' c) (hd : d.interfaceNames = c.interfaceNames) :
    t'.linkInterfaces d = t.linkInterfaces d := by
  have hnames : d.interfaceNames.mapM (t'.lookup .undefinedInterface) =
      d.interfaceNames.mapM (t.lookup .undefinedInterface) := by
    refine mapM_congr fun name hn => lookup_congr (ha.links name ?_) _
    rw [hd] at hn
    simp [ClassDef.linkNames, hn]
  have henum : t'.enumInterfaces d = t.enumInterfaces d := by
    rw [enumInterfaces, enumInterfaces, ha.unitEnum, ha.backedEnum]
  rw [linkInterfaces, linkInterfaces, hnames, henum]

/-- Neither the parent nor the traits of a class change the names that it gives for what comes
later. -/
theorem link_eq (ha : t.AgreesOn t' c) (hc : h'.cells = h.cells) : t'.link h' c = t.link h c := by
  have hn : t'.contains c.name = t.contains c.name := by rw [contains, contains, ha.name]
  rw [link, link, hn, ha.linkParent_eq]
  split
  · exact bind_congr_of_ok fun _ hn => by cases hn
  refine bind_congr_of_ok fun _ _ => bind_congr_of_ok fun c₁ h₁ => ?_
  have hframe : c₁.traitNames = c.traitNames ∧ c₁.interfaceNames = c.interfaceNames := by
    obtain ⟨-, rfl⟩ | ⟨_, _, -, -, -, rfl⟩ := exists_of_linkParent h₁ <;> exact ⟨rfl, rfl⟩
  rw [ha.linkTraits_eq hc hframe.1]
  refine bind_congr_of_ok fun c₂ h₂ => ?_
  have hframe' : c₂.interfaceNames = c.interfaceNames := by
    obtain ⟨traits, -, hg⟩ := exists_of_linkTraits h₂
    obtain ⟨_, _, _, rfl⟩ := ClassDef.exists_eq_of_reflTransGen hg
    exact hframe.2
  rw [ha.linkInterfaces_eq hframe']
  refine bind_congr_of_ok fun l _ => ?_
  rw [checkLinked_congr hc]

end AgreesOn

end ClassTable

end ObjectModel
