import ObjectModel.Proofs.Class.Lookup
/-!
# Redeclared properties

A class that declares a property is checked against the one of that name in the table of its parent.
A property that is not private is in the table of every class below its owner
(`Reachable.get?_properties_of_findProperty?`), so the check is made against the nearest ancestor
that has the property itself, and `redeclares_of_ownProperty?` follows. But a property that is taken
from a trait takes the place of an inherited one with nothing checked, unlike a method. That it may
differ in each of the three respects is shown last.
-/

namespace ObjectModel

/-- Whether a property may stand where `q` does: it is as static and as readonly, and at least as
visible. -/
structure PropertyDef.Redeclares (p q : PropertyDef) : Prop where
  isStatic_eq : p.isStatic = q.isStatic
  isReadonly_eq : p.isReadonly = q.isReadonly
  atLeast : p.visibility.atLeast q.visibility = true

/-- The check of a redeclaration lets through what may stand there, unless the inherited property is
private. -/
theorem PropertyDef.Redeclares.of_checkOverride {cls : String} {p q : PropertyDef}
    (h : p.checkOverride cls q = .ok ()) (hq : q.visibility ≠ .isPrivate) : p.Redeclares q := by
  rw [checkOverride, if_neg hq] at h
  split at h
  · cases h
  next hs =>
  split at h
  · cases h
  next hr =>
  split at h
  · cases h
  next hv => exact ⟨Decidable.not_not.1 hs, Decidable.not_not.1 hr, by simpa using hv⟩

namespace ClassDef

/-- Whether the property of a class under a name is as one of its traits has it. -/
def TakesProperty (t : ClassTable) (c : ClassDef) (name : String) : Prop :=
  ∃ traitName ∈ c.traitNames, ∃ trait q, t.get? traitName = some trait ∧
    trait.properties.get? name = some q ∧
    c.properties.get? name = some { q with declaringClass := c.name }

theorem TakesProperty.of_extends {t t' : ClassTable} {c : ClassDef} {name : String}
    (h : c.TakesProperty t name) (he : t.Extends t') : c.TakesProperty t' name := by
  obtain ⟨traitName, hm, trait, q, ht, hq⟩ := h
  exact ⟨traitName, hm, trait, q, he _ _ ht, hq⟩

/-- Composition removes no property. -/
theorem isSome_properties_of_reflTransGen {traits : List ClassDef} {rules : List TraitRule}
    {c d : ClassDef} {name : String} (hg : Relation.ReflTransGen (ComposesTo traits rules) c d)
    (hc : (c.properties.get? name).isSome) : (d.properties.get? name).isSome := by
  induction hg with
  | refl => exact hc
  | tail _ hs ih =>
    cases hs with
    | unchanged | method | constants | addition | visibility => exact ih
    | property =>
      rw [OrderedMap.get?_insert]
      split
      · rfl
      · exact ih

end ClassDef

namespace ClassTable

variable {t t' : ClassTable} {h h' : Heap} {c d parent : ClassDef} {name : String}
  {p q : PropertyDef}

/-- A class has every property that its parent hands down. -/
theorem isSome_properties_of_declare (hd : t.declare h c = .ok (t', h', d)) (hc : c.IsFresh)
    (hp : d.parent? = some parent) (hq : parent.properties.get? name = some q)
    (hi : q.isInheritable = true) : (d.properties.get? name).isSome := by
  obtain ⟨-, -, -, c₁, c₂, traits, ks, is, b, s, h₁, -, hg, rfl⟩ := exists_of_declare hd
  obtain ⟨_, _, _, hframe⟩ := ClassDef.exists_eq_of_reflTransGen hg
  apply ClassDef.isSome_properties_of_reflTransGen (d := c₂) hg
  have hp₁ : c₁.parent? = some parent := by
    subst hframe
    exact hp
  obtain ⟨-, rfl⟩ | ⟨_, parent', -, -, -, rfl⟩ := exists_of_linkParent h₁
  · rw [show (markReadonly c).parent? = c.parent? from rfl, hc.parent?_eq_none] at hp₁
    cases hp₁
  · cases hp₁
    rw [ClassDef.withParent, get?_inheritMembers, hq, Option.filter_some, hi, if_pos rfl,
      Option.or_some, Option.isSome_some]

/-- A property that is handed down is in the table of every class from which a look-up finds it. -/
theorem Reachable.get?_properties_of_findProperty? (ht : t.Reachable) :
    ∀ c ∈ t.classes.values, ∀ name q, c.findProperty? name = some q → q.isInheritable = true →
      c.properties.get? name = some q := by
  apply ht.induction_on (Q := fun _ c => ∀ name q, c.findProperty? name = some q →
    q.isInheritable = true → c.properties.get? name = some q)
  · intro _ _ _ _ hc
    exact hc
  · intro t t' h h' c d _ hc hd ih name q hq hi
    rw [ClassDef.findProperty?, ClassDef.ancestors_eq, List.findSome?_cons] at hq
    cases hget : d.properties.get? name with
    | some p =>
      rw [hget] at hq
      exact hq
    | none =>
      rw [hget] at hq
      obtain he | ⟨parent, hp, hparent, -, -⟩ := ancestors_of_declare hc hd
      · rw [ClassDef.ancestors_eq, List.cons.injEq] at he
        rw [he.2] at hq
        cases hq
      · -- the parent has the property in its table and would have handed it down
        rw [hparent] at hq
        have hsome := isSome_properties_of_declare hd hc hparent (ih parent hp name q hq hi) hi
        rw [hget] at hsome
        cases hsome

/-- The property that a class declares itself was checked against the one of its parent, and what is
not declared is taken from the parent or from a trait. -/
theorem redeclares_of_declare (ht : t.Reachable) (hd : t.declare h c = .ok (t', h', d))
    (hc : c.IsFresh) (hp : d.ownProperty? name = some p) (hparent : d.parent? = some parent)
    (hq : parent.properties.get? name = some q) (hv : q.visibility ≠ .isPrivate) :
    p.Redeclares q ∨ d.TakesProperty t name := by
  rw [ClassDef.ownProperty?, Option.filter_eq_some_iff, beq_iff_eq] at hp
  obtain ⟨hget, hdecl⟩ := hp
  obtain ⟨hname, -, -, -, hlink⟩ := frame_of_declare hd
  obtain ⟨r, hr, -, hpr⟩ | ⟨parent', hm, -, hp'⟩ | ⟨traitName, hn, trait, r, htrait, hr, rfl⟩ :=
    exists_of_get?_properties hc hd hget
  · left
    obtain hnone | ⟨_, parent', -, hcheck, hparent'⟩ := hlink
    · rw [hnone, hc.parent?_eq_none] at hparent
      cases hparent
    cases hparent.symm.trans hparent'
    have hmarked : (markReadonly c).properties.get? name = some p := by
      rw [markReadonly, OrderedMap.get?_map, hr, hpr, Option.map_some,
        (hc.of_get?_properties name r hr).2, beq_self_eq_true, Bool.and_true]
    exact .of_checkOverride
      (checkOverrides_eq_ok (ClassDef.of_checkParent hcheck).2.2.2.1 hmarked hq) hv
  · -- no ancestor of the parent is called like the new class
    obtain ⟨a, ha, hna⟩ := (ht.isSound parent' hm name p hp').exists_ancestor
    have hga := ht.get?_name a (ht.mem_of_mem_ancestors parent' hm a ha)
    rw [hna, hdecl, hname, (exists_of_declare hd).1] at hga
    cases hga
  · exact .inr ⟨traitName, hn, trait, r, htrait, hr, hget⟩

/-- A property that a class has itself redeclares the one of the nearest ancestor that has one of
the name itself, or is taken from a trait. -/
theorem Reachable.redeclares_or_takesProperty (ht : t.Reachable) : ∀ c ∈ t.classes.values,
    ∀ name p q, c.ownProperty? name = some p →
      c.ancestors.tail.findSome? (·.ownProperty? name) = some q → q.visibility ≠ .isPrivate →
      p.Redeclares q ∨ c.TakesProperty t name := by
  apply ht.induction_on (Q := fun t c => ∀ name p q, c.ownProperty? name = some p →
    c.ancestors.tail.findSome? (·.ownProperty? name) = some q → q.visibility ≠ .isPrivate →
    p.Redeclares q ∨ c.TakesProperty t name)
  · intro t t' e he hc name p q hp hq hv
    exact (hc name p q hp hq hv).imp_right (·.of_extends he)
  · intro t t' h h' c d ht hc hd _ name p q hp hq hv
    obtain he | ⟨parent, hm, hparent, -, he⟩ := ancestors_of_declare hc hd
    · rw [he] at hq
      cases hq
    · have hfind : parent.findProperty? name = some q := by
        rw [ht.findProperty?_eq_nearestProperty? hm, ClassDef.nearestProperty?]
        rwa [he] at hq
      have hi : q.isInheritable = true := by simp [PropertyDef.isInheritable, hv]
      have hget := ht.get?_properties_of_findProperty? parent hm name q hfind hi
      exact (redeclares_of_declare ht hd hc hp hparent hget hv).imp_right
        (·.of_extends (extends_of_declare hd))

/-- A property that a class has itself is as static and as readonly as the one of the nearest
ancestor that has one of the name itself, and at least as visible, unless that one is private or the
class takes its own from a trait. -/
theorem redeclares_of_ownProperty? (ht : t.Reachable) (hc : c ∈ t.classes.values)
    (hp : c.ownProperty? name = some p)
    (hq : c.ancestors.tail.findSome? (·.ownProperty? name) = some q)
    (hv : q.visibility ≠ .isPrivate) (hn : ¬ c.TakesProperty t name) :
    p.isStatic = q.isStatic ∧ p.isReadonly = q.isReadonly ∧
      p.visibility.atLeast q.visibility = true := by
  have hr := (ht.redeclares_or_takesProperty c hc name p q hp hq hv).resolve_right hn
  exact ⟨hr.isStatic_eq, hr.isReadonly_eq, hr.atLeast⟩

/-- The properties that a class and the nearest of its ancestors have themselves under a name. -/
private def redeclaredPair? (c : ClassDef) (name : String) :
    Option (PropertyDef × PropertyDef) := do
  return (← c.ownProperty? name, ← c.ancestors.tail.findSome? (·.ownProperty? name))

private theorem exists_of_redeclaredPair? (cs : List ClassDef) (cls name : String)
    (f : ClassDef → PropertyDef → PropertyDef → Bool) (hcs : ∀ c ∈ cs, c.IsFresh)
    (h : ((declareAll {} {} cs).toOption.bind (·.1.get? cls)).any
      (fun c => (redeclaredPair? c name).any fun (p, q) => f c p q) = true) :
    ∃ t : ClassTable, t.Reachable ∧ ∃ c ∈ t.classes.values, ∃ p q,
      c.ownProperty? name = some p ∧
        c.ancestors.tail.findSome? (·.ownProperty? name) = some q ∧ f c p q = true := by
  obtain ⟨t, ht, c, hc, hp⟩ := exists_of_declareAll cs cls _ hcs h
  obtain ⟨⟨p, q⟩, hf, hp⟩ := (Option.any_eq_true _ _).1 hp
  obtain ⟨p', hp', hf⟩ := Option.bind_eq_some_iff.1 hf
  obtain ⟨q', hq', hf⟩ := Option.bind_eq_some_iff.1 hf
  cases hf
  exact ⟨t, ht, c, hc, p, q, hp', hq', hp⟩

/-- A readonly property that two levels above is protected is declared again in public. -/
theorem redeclares_of_ownProperty?_two_levels_below :
    ∃ t : ClassTable, t.Reachable ∧ ∃ c ∈ t.classes.values, ∃ p q,
      c.ownProperty? "id" = some p ∧
        c.ancestors.tail.findSome? (·.ownProperty? "id") = some q ∧
        q.visibility ≠ .isPrivate ∧ ¬ c.TakesProperty t "id" ∧
        p.isStatic = q.isStatic ∧ p.isReadonly = q.isReadonly ∧
        p.visibility.atLeast q.visibility = true := by
  obtain ⟨t, ht, c, hc, p, q, hp, hq, hf⟩ := exists_of_redeclaredPair?
    [({ name := "Base" } : ClassDef).addProperty
        { name := "id", default := .undefined, visibility := .isProtected, isReadonly := true,
          type? := some .int },
      { name := "Middle", parentName? := some "Base" },
      ({ name := "Leaf", parentName? := some "Middle" } : ClassDef).addProperty
        { name := "id", default := .undefined, isReadonly := true, type? := some .int }]
    "Leaf" "id" (fun c _ q => decide (q.visibility ≠ .isPrivate) && c.traitNames.isEmpty)
    (by
      simp only [List.forall_mem_cons]
      exact ⟨.addProperty (.of_memberless rfl rfl rfl) _, .of_memberless rfl rfl rfl,
        .addProperty (.of_memberless rfl rfl rfl) _, nofun⟩)
    (by decide)
  simp only [Bool.and_eq_true, decide_eq_true_eq, List.isEmpty_iff] at hf
  have hn : ¬ c.TakesProperty t "id" := by
    rintro ⟨_, hm, -⟩
    rw [hf.2] at hm
    cases hm
  exact ⟨t, ht, c, hc, p, q, hp, hq, hf.1, hn, redeclares_of_ownProperty? ht hc hp hq hf.1 hn⟩

/-- A class that takes a property from a trait, and the same property in its parent. -/
private def traitProperty (inherited taken : PropertyDef) : List ClassDef :=
  [({ name := "P" } : ClassDef).addProperty inherited,
    ({ name := "T", kind := .trait } : ClassDef).addProperty taken,
    { name := "C", parentName? := some "P", traitNames := ["T"] }]

private theorem isFresh_of_mem_traitProperty (inherited taken : PropertyDef) :
    ∀ c ∈ traitProperty inherited taken, c.IsFresh := by
  simp only [traitProperty, List.forall_mem_cons]
  exact ⟨.addProperty (.of_memberless rfl rfl rfl) _, .addProperty (.of_memberless rfl rfl rfl) _,
    .of_memberless rfl rfl rfl, nofun⟩

/-- A property of a trait takes the place of a public one and is private. -/
theorem exists_property_hidden_by_trait :
    ∃ t : ClassTable, t.Reachable ∧ ∃ c ∈ t.classes.values, ∃ p q,
      c.ownProperty? "x" = some p ∧ c.ancestors.tail.findSome? (·.ownProperty? "x") = some q ∧
        q.visibility ≠ .isPrivate ∧ p.visibility.atLeast q.visibility = false := by
  obtain ⟨t, ht, c, hc, p, q, hp, hq, hf⟩ := exists_of_redeclaredPair?
    (traitProperty { name := "x", default := .null }
      { name := "x", default := .null, visibility := .isPrivate })
    "C" "x" (fun _ p q => decide (q.visibility ≠ .isPrivate) && !p.visibility.atLeast q.visibility)
    (isFresh_of_mem_traitProperty _ _) (by decide)
  simp only [Bool.and_eq_true, decide_eq_true_eq, Bool.not_eq_true'] at hf
  exact ⟨t, ht, c, hc, p, q, hp, hq, hf⟩

/-- A property of a trait takes the place of an instance property and is static. -/
theorem exists_property_made_static_by_trait :
    ∃ t : ClassTable, t.Reachable ∧ ∃ c ∈ t.classes.values, ∃ p q,
      c.ownProperty? "x" = some p ∧ c.ancestors.tail.findSome? (·.ownProperty? "x") = some q ∧
        q.visibility ≠ .isPrivate ∧ p.isStatic ≠ q.isStatic := by
  obtain ⟨t, ht, c, hc, p, q, hp, hq, hf⟩ := exists_of_redeclaredPair?
    (traitProperty { name := "x", default := .null }
      { name := "x", default := .null, isStatic := true })
    "C" "x" (fun _ p q => decide (q.visibility ≠ .isPrivate) && decide (p.isStatic ≠ q.isStatic))
    (isFresh_of_mem_traitProperty _ _) (by decide)
  simp only [Bool.and_eq_true, decide_eq_true_eq] at hf
  exact ⟨t, ht, c, hc, p, q, hp, hq, hf⟩

/-- A property of a trait takes the place of a readonly one and is not readonly. -/
theorem exists_property_made_mutable_by_trait :
    ∃ t : ClassTable, t.Reachable ∧ ∃ c ∈ t.classes.values, ∃ p q,
      c.ownProperty? "x" = some p ∧ c.ancestors.tail.findSome? (·.ownProperty? "x") = some q ∧
        q.visibility ≠ .isPrivate ∧ p.isReadonly ≠ q.isReadonly := by
  obtain ⟨t, ht, c, hc, p, q, hp, hq, hf⟩ := exists_of_redeclaredPair?
    (traitProperty
      { name := "x", default := .undefined, type? := some .int, isReadonly := true }
      { name := "x", default := .undefined, type? := some .int })
    "C" "x"
    (fun _ p q => decide (q.visibility ≠ .isPrivate) && decide (p.isReadonly ≠ q.isReadonly))
    (isFresh_of_mem_traitProperty _ _) (by decide)
  simp only [Bool.and_eq_true, decide_eq_true_eq] at hf
  exact ⟨t, ht, c, hc, p, q, hp, hq, hf⟩

end ClassTable

end ObjectModel
