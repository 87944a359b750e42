import ObjectModel.Proofs.Class.Reachable
/-!
# Properties of readonly classes

A property in the table of a class was declared by the class itself, handed down by its parent or
taken from a trait, `exists_of_get?_properties`. A readonly class marks what it declares, and what
its parent hands down has been marked before, for the parent of a readonly class is readonly. But
the marks are set before traits are composed, and a property of a trait is taken as the trait has
it. `Reachable.isReadonly_iff` says that an instance of a readonly class has no other properties
that are not readonly.
-/

namespace ObjectModel

namespace ClassDef

/-- Whether a class has an instance property from a trait in which it is not readonly. -/
def TakesMutable (t : ClassTable) (c : ClassDef) (name : String) : Prop :=
  ∃ traitName ∈ c.traitNames, ∃ trait q, t.get? traitName = some trait ∧
    trait.properties.get? name = some q ∧ q.isStatic = false ∧ q.isReadonly = false ∧
    c.properties.get? name = some { q with declaringClass := c.name }

theorem TakesMutable.of_extends {t t' : ClassTable} {c : ClassDef} {name : String}
    (h : c.TakesMutable t name) (he : t.Extends t') : c.TakesMutable t' name := by
  obtain ⟨traitName, hm, trait, q, ht, hq⟩ := h
  exact ⟨traitName, hm, trait, q, he _ _ ht, hq⟩

section Composition

variable {traits : List ClassDef} {rules : List TraitRule} {c d : ClassDef} {name : String}
  {p : PropertyDef}

theorem ComposesTo.get?_properties (h : ComposesTo traits rules c d)
    (hp : d.properties.get? name = some p) :
    c.properties.get? name = some p ∨ ∃ trait ∈ traits, ∃ q,
      trait.properties.get? name = some q ∧ p = { q with declaringClass := c.name } := by
  cases h with
  | unchanged | method | constants | addition | visibility => exact .inl hp
  | property hm hq =>
    obtain ⟨rfl, rfl⟩ | hold := OrderedMap.of_get?_insert hp
    · exact .inr ⟨_, hm, _, hq, rfl⟩
    · exact .inl hold

/-- Composition leaves a property as it was or takes it from a trait. -/
theorem get?_properties_of_reflTransGen (h : Relation.ReflTransGen (ComposesTo traits rules) c d)
    (hp : d.properties.get? name = some p) :
    c.properties.get? name = some p ∨ ∃ trait ∈ traits, ∃ q,
      trait.properties.get? name = some q ∧ p = { q with declaringClass := c.name } := by
  induction h with
  | refl => exact .inl hp
  | tail hg hs ih =>
    obtain hp | hq := hs.get?_properties hp
    · exact ih hp
    · obtain ⟨_, _, _, rfl⟩ := exists_eq_of_reflTransGen hg
      exact .inr hq

end Composition

end ClassDef

namespace ClassTable

variable {t t' : ClassTable} {h h' : Heap} {c d : ClassDef} {name : String} {p : PropertyDef}

/-- A property of a class that has just been declared is its own, checked and marked, or one of its
parent, or one of a trait. -/
theorem exists_of_get?_properties (hc : c.IsFresh) (hd : t.declare h c = .ok (t', h', d))
    (hp : d.properties.get? name = some p) :
    (∃ q, c.properties.get? name = some q ∧ checkReadonly c q = .ok () ∧
      p = { q with isReadonly := q.isReadonly || c.isReadonly }) ∨
    (∃ parent ∈ t.classes.values, d.ancestors = d :: parent.ancestors ∧
      parent.properties.get? name = some p) ∨
    (∃ traitName ∈ d.traitNames, ∃ trait q, t.get? traitName = some trait ∧
      trait.properties.get? name = some q ∧ p = { q with declaringClass := d.name }) := by
  obtain ⟨-, hr, -, c₁, c₂, traits, ks, is, b, s, h₁, htr, hg, rfl⟩ := exists_of_declare hd
  have hp₂ : c₂.properties.get? name = some p := hp
  have hown (hp : (markReadonly c).properties.get? name = some p) :
      ∃ q, c.properties.get? name = some q ∧ checkReadonly c q = .ok () ∧
        p = { q with isReadonly := q.isReadonly || c.isReadonly } := by
    rw [markReadonly, OrderedMap.get?_map] at hp
    obtain ⟨q, hq, rfl⟩ := Option.map_eq_some_iff.1 hp
    refine ⟨q, hq, hr q (OrderedMap.mem_values_iff.2 ⟨_, hq⟩), ?_⟩
    rw [(hc.of_get?_properties _ _ hq).2, beq_self_eq_true, Bool.and_true]
  obtain ⟨_, _, _, hframe⟩ := ClassDef.exists_eq_of_reflTransGen hg
  obtain hp₁ | ⟨trait, hm, q, hq, rfl⟩ := ClassDef.get?_properties_of_reflTransGen hg hp₂
  · obtain ⟨-, rfl⟩ | ⟨parentName, parent, -, hn, -, rfl⟩ := exists_of_linkParent h₁
    · exact .inl (hown hp₁)
    · rw [ClassDef.withParent, get?_inheritMembers, Option.or_eq_some_iff,
        Option.filter_eq_some_iff] at hp₁
      obtain hp₁ | ⟨-, hp₁, -⟩ := hp₁
      · exact .inl (hown hp₁)
      · refine .inr (.inl ⟨parent, mem_values_of_get? hn, ?_, hp₁⟩)
        rw [ClassDef.ancestors_eq]
        subst hframe
        rfl
  · obtain ⟨traitName, hn, ht⟩ := htr trait hm
    subst hframe
    exact .inr (.inr ⟨traitName, hn, trait, q, ht, hq, rfl⟩)

/-- A readonly property, and every property that a readonly class declares, is typed and neither
static nor preset. -/
theorem of_checkReadonly (hk : checkReadonly c p = .ok ()) (hd : p.declaringClass = c.name)
    (hr : c.isReadonly = true ∨ p.isReadonly = true) :
    p.isStatic = false ∧ p.type?.isSome ∧ p.default.isUndefined := by
  rw [checkReadonly, if_neg (by simp [hd])] at hk
  split at hk
  · cases hk
  split at hk
  next hn =>
    rw [Bool.not_eq_true', Bool.or_eq_false_iff] at hn
    obtain hr | hr := hr
    · cases hn.1.symm.trans hr
    · cases hn.2.symm.trans hr
  split at hk
  · cases hk
  next hs =>
  split at hk
  · cases hk
  next ht =>
  split at hk
  · cases hk
  next hv =>
  exact ⟨by simpa using hs, by simpa [Option.isSome_iff_ne_none] using ht, by simpa using hv⟩

end ClassTable

/-- What holds of a property in the table of a class under a name. -/
structure PropertyDef.IsSound (p : PropertyDef) (c : ClassDef) (name : String) : Prop where
  name_eq : p.name = name
  exists_ancestor : ∃ a ∈ c.ancestors, a.name = p.declaringClass
  of_isReadonly : p.isReadonly = true →
    p.isStatic = false ∧ p.type?.isSome ∧ p.default.isUndefined

namespace ClassTable

variable {t t' : ClassTable} {h h' : Heap} {c d : ClassDef} {name : String} {p : PropertyDef}

theorem Reachable.isSound (ht : t.Reachable) : ∀ c ∈ t.classes.values, ∀ name p,
    c.properties.get? name = some p → p.IsSound c name := by
  apply ht.induction_on
    (Q := fun _ c => ∀ name p, c.properties.get? name = some p → p.IsSound c name)
  · intro _ _ _ _ hc
    exact hc
  · intro t t' h h' c d ht hc hd ih name p hp
    obtain ⟨q, hq, hk, rfl⟩ | ⟨parent, hm, ha, hp⟩ | ⟨traitName, -, trait, q, hn, hq, rfl⟩ :=
      exists_of_get?_properties hc hd hp
    · obtain ⟨hname, hdecl⟩ := hc.of_get?_properties name q hq
      refine ⟨hname, ⟨d, d.self_mem_ancestors, ?_⟩, ?_⟩
      · rw [(frame_of_declare hd).1, hdecl]
      · intro hr
        exact of_checkReadonly (p := q) hk hdecl (by simpa [or_comm] using hr)
    · obtain ⟨a, hma, hna⟩ := (ih parent hm name p hp).exists_ancestor
      exact { ih parent hm name p hp with
        exists_ancestor := ⟨a, ha ▸ List.mem_cons_of_mem d hma, hna⟩ }
    · exact { ih trait (mem_values_of_get? hn) name q hq with
        exists_ancestor := ⟨d, d.self_mem_ancestors, rfl⟩ }

/-- The ancestors of a readonly class are readonly. -/
theorem Reachable.isReadonly_of_mem_ancestors (ht : t.Reachable) : ∀ c ∈ t.classes.values,
    c.isReadonly = true → ∀ a ∈ c.ancestors, a.isReadonly = true := by
  apply ht.induction_on
    (Q := fun _ c => c.isReadonly = true → ∀ a ∈ c.ancestors, a.isReadonly = true)
  · intro _ _ _ _ hc
    exact hc
  · intro t t' h h' c d ht hc hd ih hr a ha
    obtain he | ⟨parent, hm, -, hcheck, he⟩ := ancestors_of_declare hc hd
    · rw [he, List.mem_singleton] at ha
      exact ha ▸ hr
    · rw [he, List.mem_cons] at ha
      obtain rfl | ha := ha
      · exact hr
      · refine ih parent hm ?_ a ha
        rw [← (ClassDef.of_checkParent hcheck).2.1]
        exact (frame_of_declare hd).2.1 ▸ hr

/-- An instance property that a readonly class has itself is readonly or taken from a trait in which
it is not. -/
theorem Reachable.isReadonly_or_takesMutable (ht : t.Reachable) : ∀ c ∈ t.classes.values,
    c.isReadonly = true → ∀ name p, c.properties.get? name = some p → p.declaringClass = c.name →
      p.isStatic = false → p.isReadonly = true ∨ c.TakesMutable t name := by
  apply ht.induction_on
    (Q := fun t c => c.isReadonly = true → ∀ name p, c.properties.get? name = some p →
      p.declaringClass = c.name → p.isStatic = false → p.isReadonly = true ∨ c.TakesMutable t name)
  · intro t t' e he hc hr name p hp hdecl hs
    exact (hc hr name p hp hdecl hs).imp_right (·.of_extends he)
  · intro t t' h h' c d ht hc hd ih hr name p hp hdecl hs
    obtain ⟨hname, hreadonly, -⟩ := frame_of_declare hd
    obtain ⟨q, -, -, rfl⟩ | ⟨parent, hm, -, hp⟩ | ⟨traitName, hn, trait, q, htrait, hq, rfl⟩ :=
      exists_of_get?_properties hc hd hp
    · left
      simp [← hreadonly, hr]
    · -- the parent has no property that the new class declares
      obtain ⟨a, ha, hna⟩ := (ht.isSound parent hm name p hp).exists_ancestor
      have hget := ht.get?_name a (ht.mem_of_mem_ancestors parent hm a ha)
      rw [hna, hdecl, hname, (exists_of_declare hd).1] at hget
      cases hget
    · cases hrq : q.isReadonly with
      | true => exact .inl rfl
      | false =>
        exact .inr ⟨traitName, hn, trait, q, extends_of_declare hd _ _ htrait, hq, hs, hrq, hp⟩

end ClassTable

/-- An instance property of a class is one that an ancestor has itself. -/
theorem ClassDef.exists_of_get?_instanceProperties {c : ClassDef} {name : String} {p : PropertyDef}
    (h : c.instanceProperties.get? name = some p) :
    p.name = name ∧ ∃ a ∈ c.ancestors, p ∈ a.ownInstanceProperties := by
  have hm := OrderedMap.mem_of_get?_ofList h
  obtain ⟨a, ha, hm⟩ := List.mem_flatMap.1 hm
  obtain ⟨q, hq, he⟩ := List.mem_map.1 hm
  cases he
  exact ⟨rfl, a, List.mem_reverse.1 ha, hq⟩

namespace ClassTable

variable {t : ClassTable} {c : ClassDef} {name : String} {p : PropertyDef}

/-- An instance property stands under its name in the table of the ancestor that has it. -/
theorem Reachable.exists_of_get?_instanceProperties (ht : t.Reachable) (hc : c ∈ t.classes.values)
    (hp : c.instanceProperties.get? name = some p) :
    ∃ a ∈ c.ancestors, a ∈ t.classes.values ∧ a.properties.get? name = some p ∧
      p.declaringClass = a.name ∧ p.isStatic = false := by
  obtain ⟨rfl, a, ha, hp⟩ := ClassDef.exists_of_get?_instanceProperties hp
  have hat := ht.mem_of_mem_ancestors c hc a ha
  obtain ⟨hv, hp⟩ := List.mem_filter.1 hp
  rw [Bool.and_eq_true, Bool.not_eq_true', beq_iff_eq] at hp
  obtain ⟨k, hk⟩ := OrderedMap.mem_values_iff.1 hv
  refine ⟨a, ha, hat, ?_, hp.2, hp.1⟩
  rw [(ht.isSound a hat k p hk).name_eq, hk]

/-- An instance property of a readonly class is readonly unless the ancestor that has it takes it
from a trait in which it is not. -/
theorem Reachable.isReadonly_iff (ht : t.Reachable) (hc : c ∈ t.classes.values)
    (hr : c.isReadonly = true) (hp : c.instanceProperties.get? name = some p) :
    p.isReadonly = true ↔
      ∀ a ∈ c.ancestors, a.name = p.declaringClass → ¬ a.TakesMutable t name := by
  obtain ⟨a, ha, hat, hpa, hdecl, hs⟩ := ht.exists_of_get?_instanceProperties hc hp
  constructor
  · rintro hrp b hb hn ⟨_, -, _, q, -, -, -, hrq, hq⟩
    -- the ancestors have different names, so it is the one that has the property
    have hab : a = b := by
      have hga := ht.get?_name a hat
      have hgb := ht.get?_name b (ht.mem_of_mem_ancestors c hc b hb)
      rw [hn, hdecl, hga] at hgb
      exact Option.some.inj hgb
    subst hab
    cases hpa.symm.trans hq
    rw [hrq] at hrp
    cases hrp
  · intro hn
    refine (ht.isReadonly_or_takesMutable a hat ?_ name p hpa hdecl hs).resolve_right
      (hn a ha hdecl.symm)
    exact ht.isReadonly_of_mem_ancestors c hc hr a ha

end ClassTable

end ObjectModel
