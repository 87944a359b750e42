import Mathlib.Logic.Relation
import ObjectModel.Class.Table
import ObjectModel.Proofs.Except
import ObjectModel.Proofs.OrderedMap
/-!
# What linking does to a class

Linking is taken apart once, so that invariants of linked classes need not look at it again.
`exists_of_linkParent` says what a class has from its parent and what was checked before. Composing
traits is a sequence of steps, and `ComposesTo` lists what one step can do; whether or not the
sequence ends well, the class is reached by such steps. `exists_of_link` puts the stages together.
-/

namespace ObjectModel

universe u

theorem get?_inheritMembers {α : Type u} (p : α → Bool) (own inherited : OrderedMap String α)
    (k : String) :
    (inheritMembers p own inherited).get? k = (own.get? k).or ((inherited.get? k).filter p) := by
  have go (l : List (String × α)) (hl : (l.map Prod.fst).Nodup) (m : OrderedMap String α) :
      (l.foldl (fun m e => if p e.2 then m.insertIfNew e.1 e.2 else m) m).get? k =
        (m.get? k).or ((l.lookup k).filter p) := by
    induction l generalizing m with
    | nil => simp
    | cons e l ih =>
      obtain ⟨name, a⟩ := e
      rw [List.map_cons, List.nodup_cons] at hl
      rw [List.foldl_cons, ih hl.2, OrderedMap.lookup_cons_ite]
      by_cases hk : k = name
      · subst hk
        rw [OrderedMap.lookup_eq_none_iff_notMem.2 hl.1, if_pos rfl]
        by_cases ha : p a = true <;> simp [ha, OrderedMap.get?_insertIfNew, Option.filter]
      · by_cases ha : p a = true <;> simp [ha, hk, OrderedMap.get?_insertIfNew]
  exact go inherited.entries inherited.nodup_keys own

theorem checkOverrides_eq_ok {α : Type u} {check : α → α → Except Error Unit}
    {own inherited : OrderedMap String α} (h : checkOverrides check own inherited = .ok ())
    {k : String} {a b : α} (ha : own.get? k = some a) (hb : inherited.get? k = some b) :
    check a b = .ok () := by
  have := forM_eq_ok_iff.1 h (k, b) (OrderedMap.mem_entries_iff.2 hb)
  simpa only [ha] using this

namespace ClassDef

/-- What a parent must satisfy: it may be extended, is readonly just if the class is, and allows
every member that the class declares under one of its names. -/
theorem of_checkParent {c parent : ClassDef} (h : c.checkParent parent = .ok ()) :
    c.extendFault? parent = none ∧ c.isReadonly = parent.isReadonly ∧
      checkOverrides (MethodDef.checkOverride c.name) c.methods parent.methods = .ok () ∧
      checkOverrides (PropertyDef.checkOverride c.name) c.properties parent.properties = .ok () ∧
      checkOverrides (ConstantDef.checkOverride c.name) c.constants parent.constants = .ok () := by
  rw [checkParent] at h
  cases hf : c.extendFault? parent with
  | some fault =>
    rw [hf] at h
    cases h
  | none =>
    rw [hf] at h
    obtain ⟨hr, h⟩ := of_throwIf_eq_ok h
    obtain ⟨_, hm, h⟩ := exists_of_bind_eq_ok h
    obtain ⟨_, hp, h⟩ := exists_of_bind_eq_ok h
    exact ⟨rfl, Decidable.not_not.1 hr, hm, hp, h⟩

end ClassDef

namespace TraitRule

/-- The key of the method that a rule adds or changes, if it does. -/
def adaptedKey? : TraitRule → Option String
  | .precedence .. => none
  | .alias _ _ (some name) _ => some (Name.foldCase name)
  | .alias _ method none (some _) => some (Name.foldCase method)
  | .alias _ _ none none => none

end TraitRule

namespace ClassDef

/-- What one step of composing `traits` under some rules can do to a class. -/
inductive ComposesTo (traits : List ClassDef) (rules : List TraitRule) (c : ClassDef) :
    ClassDef → Prop
  | unchanged : ComposesTo traits rules c c
  /-- A method that the class does not have itself comes from a trait, checked against the one that
  the parent offers. -/
  | method {trait : ClassDef} {key : String} {m : MethodDef} :
      trait ∈ traits → trait.methods.get? key = some m → c.ownMethod? key = none →
      (∀ n, c.parent?.bind (·.findMethod? key) = some n →
        { m with declaringClass := c.name }.checkOverride c.name n = .ok ()) →
      ComposesTo traits rules c
        { c with methods := c.methods.insert key { m with declaringClass := c.name } }
  /-- A property that the class does not have itself comes from a trait. -/
  | property {trait : ClassDef} {name : String} {p : PropertyDef} :
      trait ∈ traits → trait.properties.get? name = some p → c.ownProperty? name = none →
      ComposesTo traits rules c
        { c with properties := c.properties.insert name { p with declaringClass := c.name } }
  /-- The constants of a trait are added as far as their names are new. -/
  | constants {trait : ClassDef} :
      trait ∈ traits →
      ComposesTo traits rules c { c with
        constants := trait.constants.entries.foldl
          (fun m (name, k) => m.insertIfNew name { k with declaringClass := c.name }) c.constants }
  /-- A rule adds a copy of a method of a trait, with nothing checked. -/
  | addition {rule : TraitRule} {m : MethodDef} :
      rule ∈ rules → rule.adaptedKey? = some m.key → m.declaringClass = c.name →
      ComposesTo traits rules c { c with methods := c.methods.insert m.key m }
  /-- A rule changes the visibility of a method, with nothing checked. -/
  | visibility {rule : TraitRule} {key : String} {f : MethodDef → MethodDef} :
      rule ∈ rules → rule.adaptedKey? = some key →
      (∀ m, f m = m ∨ ∃ v, f m = { m with visibility := v }) →
      ComposesTo traits rules c { c with methods := c.methods.modify key f }

section Steps

variable {traits : List ClassDef} {rules : List TraitRule} {c d : ClassDef}

theorem mem_of_mem_effectiveProviders {ps : List (ClassDef × MethodDef)}
    {e : ClassDef × MethodDef} (h : e ∈ effectiveProviders ps) : e ∈ ps := by
  rw [effectiveProviders] at h
  split at h
  · exact h
  · exact (List.mem_filter.1 h).1

/-- Methods are provided by traits that have them. -/
theorem get?_of_mem_methodProviders {excluded : List (String × String)} {key : String}
    {ps : List (ClassDef × MethodDef)}
    (h : (key, ps) ∈ (methodProviders traits excluded).entries) {trait : ClassDef} {m : MethodDef}
    (hm : (trait, m) ∈ ps) : trait ∈ traits ∧ trait.methods.get? key = some m := by
  have hg := OrderedMap.mem_of_mem_group (OrderedMap.mem_entries_iff.1 h) hm
  obtain ⟨t, ht, he⟩ := List.mem_flatMap.1 hg
  obtain ⟨⟨k, m'⟩, hk, he⟩ := List.mem_map.1 he
  cases he
  exact ⟨ht, OrderedMap.mem_entries_iff.1 (List.mem_filter.1 hk).1⟩

/-- Properties are provided by traits that have them. -/
theorem get?_of_mem_propertyProviders {name : String} {ps : List (ClassDef × PropertyDef)}
    (h : (name, ps) ∈ (propertyProviders traits).entries) {trait : ClassDef} {p : PropertyDef}
    (hp : (trait, p) ∈ ps) : trait ∈ traits ∧ trait.properties.get? name = some p := by
  have hg := OrderedMap.mem_of_mem_group (OrderedMap.mem_entries_iff.1 h) hp
  obtain ⟨t, ht, he⟩ := List.mem_flatMap.1 hg
  obtain ⟨⟨k, p'⟩, hk, he⟩ := List.mem_map.1 he
  cases he
  exact ⟨ht, OrderedMap.mem_entries_iff.1 hk⟩

/-- A method is taken over if the class has none itself. The first of the providers that count
decides; unless it is abstract, all of them share its body. -/
theorem of_composeMethod_eq_ok {key : String} {ps : List (ClassDef × MethodDef)}
    (hc : composeMethod key ps c = .ok d) :
    ((c.ownMethod? key).isSome ∨ effectiveProviders ps = []) ∧ d = c ∨
      c.ownMethod? key = none ∧ ∃ first m others, effectiveProviders ps = (first, m) :: others ∧
        (m.isAbstract = false → ∀ e ∈ others, m.sharesBody e.2 = true) ∧
        (∀ n, c.parent?.bind (·.findMethod? key) = some n →
          { m with declaringClass := c.name }.checkOverride c.name n = .ok ()) ∧
        d = { c with methods := c.methods.insert key { m with declaringClass := c.name } } := by
  rw [composeMethod] at hc
  split at hc
  next hown =>
    cases hc
    exact .inl ⟨.inl hown, rfl⟩
  next hown =>
  split at hc
  next hps =>
    cases hc
    exact .inl ⟨.inr hps, rfl⟩
  next first m others hps =>
  split at hc
  · cases hc
  next hfind =>
    have hbody : m.isAbstract = false → ∀ e ∈ others, m.sharesBody e.2 = true := by
      intro ha e he
      simpa [ha] using List.find?_eq_none.1 hfind e he
    refine .inr ⟨by simpa using hown, first, m, others, hps, hbody, ?_⟩
    cases hn : c.parent?.bind (·.findMethod? key) with
    | none =>
      simp only [hn] at hc
      cases hc
      exact ⟨nofun, rfl⟩
    | some n =>
      simp only [hn] at hc
      obtain ⟨_, hcheck, hc⟩ := exists_of_bind_eq_ok hc
      cases hc
      refine ⟨?_, rfl⟩
      rintro n' ⟨⟩
      exact hcheck

/-- A property is taken over if the class has none itself, as the first provider declares it. All of
them declare it alike. -/
theorem of_composeProperty_eq_ok {h : Heap} {name : String} {ps : List (ClassDef × PropertyDef)}
    (hc : composeProperty h name ps c = .ok d) :
    ((c.ownProperty? name).isSome ∨ ps = []) ∧ d = c ∨
      c.ownProperty? name = none ∧ ∃ first p others, ps = (first, p) :: others ∧
        (∀ e ∈ others, compatibleProperties h p e.2 = true) ∧
        d = { c with properties := c.properties.insert name { p with declaringClass := c.name } } := by
  rw [composeProperty.eq_def] at hc
  split at hc
  next hown =>
    cases hc
    exact .inl ⟨.inl hown, rfl⟩
  next hown =>
  split at hc
  · cases hc
    exact .inl ⟨.inr rfl, rfl⟩
  next first p others =>
  split at hc
  · cases hc
  next hfind =>
    cases hc
    refine .inr ⟨by simpa using hown, first, p, others, rfl, fun e he => ?_, rfl⟩
    simpa using List.find?_eq_none.1 hfind e he

/-- A rule adds its source under another name, changes a visibility, or does nothing. -/
theorem of_applyAlias_eq_ok {rule : TraitRule} (hc : applyAlias traits rule c = .ok d) :
    rule.adaptedKey? = none ∧ d = c ∨
      (∃ trait? method name visibility? source,
        rule = .alias trait? method (some name) visibility? ∧
        c.aliasSource traits trait? method = .ok source ∧
        d = c.addAlias source name visibility?) ∨
      ∃ trait? method visibility source, rule = .alias trait? method none (some visibility) ∧
        c.aliasSource traits trait? method = .ok source ∧
        d = c.changeVisibility source method visibility := by
  cases rule with
  | precedence trait method insteadOf =>
    cases hc
    exact .inl ⟨rfl, rfl⟩
  | «alias» trait? method alias? visibility? =>
    rw [applyAlias] at hc
    obtain ⟨source, hs, hc⟩ := exists_of_bind_eq_ok hc
    cases alias? with
    | some name =>
      cases hc
      exact .inr (.inl ⟨trait?, method, name, visibility?, source, rfl, hs, rfl⟩)
    | none =>
      cases visibility? with
      | none =>
        cases hc
        exact .inl ⟨rfl, rfl⟩
      | some visibility =>
        cases hc
        exact .inr (.inr ⟨trait?, method, visibility, source, rfl, hs, rfl⟩)

theorem composesTo_of_composeMethod {excluded : List (String × String)} {key : String}
    {ps : List (ClassDef × MethodDef)}
    (h : (key, ps) ∈ (methodProviders traits excluded).entries)
    (hc : composeMethod key ps c = .ok d) : ComposesTo traits rules c d := by
  obtain ⟨-, rfl⟩ | ⟨hown, first, m, others, hps, -, hcheck, rfl⟩ := of_composeMethod_eq_ok hc
  · exact .unchanged
  · have hm := mem_of_mem_effectiveProviders (hps ▸ List.mem_cons_self)
    obtain ⟨ht, hk⟩ := get?_of_mem_methodProviders h hm
    exact .method ht hk hown hcheck

theorem composesTo_of_composeProperty {h : Heap} {name : String}
    {ps : List (ClassDef × PropertyDef)}
    (hp : (name, ps) ∈ (propertyProviders traits).entries)
    (hc : composeProperty h name ps c = .ok d) : ComposesTo traits rules c d := by
  obtain ⟨-, rfl⟩ | ⟨hown, first, p, others, rfl, -, rfl⟩ := of_composeProperty_eq_ok hc
  · exact .unchanged
  · obtain ⟨ht, hk⟩ := get?_of_mem_propertyProviders hp List.mem_cons_self
    exact .property ht hk hown

theorem composesTo_of_applyAlias {rule : TraitRule} (hr : rule ∈ rules)
    (hc : applyAlias traits rule c = .ok d) : ComposesTo traits rules c d := by
  obtain ⟨-, rfl⟩ | ⟨_, _, _, _, source, rfl, -, rfl⟩ | ⟨_, _, visibility, source, rfl, -, rfl⟩ :=
    of_applyAlias_eq_ok hc
  · exact .unchanged
  · rw [addAlias]
    split
    · exact .unchanged
    · exact .addition hr rfl rfl
  · apply ComposesTo.visibility hr rfl
    intro m
    split
    · exact .inr ⟨visibility, rfl⟩
    · exact .inl rfl

/-- Every step of a composition is one of those listed. -/
theorem composesTo_of_mem_compositionSteps {h : Heap} {c₀ : ClassDef}
    {excluded : List (String × String)} {step : Step}
    (hs : step ∈ compositionSteps h c₀ traits excluded) (hc : step c = .ok d) :
    ComposesTo traits c₀.traitRules c d := by
  rw [compositionSteps, List.mem_append, List.mem_append, List.mem_append] at hs
  obtain ((hs | hs) | hs) | hs := hs
  · obtain ⟨⟨key, ps⟩, hk, rfl⟩ := List.mem_map.1 hs
    exact composesTo_of_composeMethod hk hc
  · obtain ⟨⟨name, ps⟩, hk, rfl⟩ := List.mem_map.1 hs
    exact composesTo_of_composeProperty hk hc
  · obtain ⟨trait, ht, rfl⟩ := List.mem_map.1 hs
    cases hc
    exact .constants ht
  · obtain ⟨rule, hr, rfl⟩ := List.mem_map.1 hs
    exact composesTo_of_applyAlias hr hc

end Steps

/-- Composition changes members and nothing else. -/
theorem ComposesTo.exists_eq {traits : List ClassDef} {rules : List TraitRule} {c d : ClassDef}
    (h : ComposesTo traits rules c d) :
    ∃ ms ps ks, d = { c with methods := ms, properties := ps, constants := ks } := by
  cases h with
  | unchanged =>
    -- the structure is recursive, so it is no definitional copy of itself
    cases c
    exact ⟨_, _, _, rfl⟩
  | _ => exact ⟨_, _, _, rfl⟩

theorem exists_eq_of_reflTransGen {traits : List ClassDef} {rules : List TraitRule}
    {c d : ClassDef} (h : Relation.ReflTransGen (ComposesTo traits rules) c d) :
    ∃ ms ps ks, d = { c with methods := ms, properties := ps, constants := ks } := by
  induction h with
  | refl =>
    cases c
    exact ⟨_, _, _, rfl⟩
  | tail _ hs ih =>
    obtain ⟨_, _, _, rfl⟩ := ih
    obtain ⟨_, _, _, rfl⟩ := hs.exists_eq
    exact ⟨_, _, _, rfl⟩

/-- However far a sequence of steps gets, each one taken relates the class before to the one
after. -/
theorem reflTransGen_takeSteps {R : ClassDef → ClassDef → Prop} {steps : List Step}
    (h : ∀ step ∈ steps, ∀ c d, step c = .ok d → R c d) (c : ClassDef) :
    Relation.ReflTransGen R c (c.takeSteps steps).1 := by
  induction steps generalizing c with
  | nil => exact .refl
  | cons step steps ih =>
    cases hc : step c with
    | error e => rw [takeSteps_cons_error hc]
    | ok d =>
      rw [takeSteps_cons_ok hc]
      exact .head (h step List.mem_cons_self c d hc)
        (ih (fun s hs => h s (List.mem_cons_of_mem step hs)) d)

/-- Traits have been composed into a class by taking all steps. -/
theorem of_useTraits_eq_ok {h : Heap} {c d : ClassDef} {traits : List ClassDef}
    (hu : c.useTraits h traits = .ok d) :
    ∃ excluded, c.checkTraits traits = .ok excluded ∧
      c.takeSteps (compositionSteps h c traits excluded) = (d, .ok ()) := by
  rw [useTraits, compose] at hu
  cases hx : c.checkTraits traits with
  | error e =>
    rw [hx] at hu
    cases hu
  | ok excluded =>
    simp only [hx] at hu
    generalize hs : c.takeSteps _ = s at hu
    obtain ⟨b, _ | ⟨⟩⟩ := s <;> cases hu
    exact ⟨excluded, rfl, hs⟩

theorem compose_of_useTraits {h : Heap} {c d : ClassDef} {traits : List ClassDef}
    (hu : c.useTraits h traits = .ok d) : c.compose h traits = (d, .ok ()) := by
  obtain ⟨excluded, hx, hs⟩ := of_useTraits_eq_ok hu
  rw [compose, hx, ← hs]

/-- Whether or not a composition ends well, the class is reached from the one without traits. -/
theorem reflTransGen_compose (h : Heap) (c : ClassDef) (traits : List ClassDef) :
    Relation.ReflTransGen (ComposesTo traits c.traitRules) c (c.compose h traits).1 := by
  rw [compose]
  split
  · exact .refl
  next excluded _ =>
    have hsteps : ∀ step ∈ compositionSteps h c traits excluded, ∀ b d, step b = .ok d →
        ComposesTo traits c.traitRules b d :=
      fun step hs b d => composesTo_of_mem_compositionSteps hs
    exact reflTransGen_takeSteps hsteps c

/-- A class with traits is reached from the class without them. -/
theorem reflTransGen_of_useTraits {h : Heap} {c d : ClassDef} {traits : List ClassDef}
    (hu : c.useTraits h traits = .ok d) :
    Relation.ReflTransGen (ComposesTo traits c.traitRules) c d := by
  have hg := reflTransGen_compose h c traits
  rwa [compose_of_useTraits hu] at hg

end ClassDef

namespace ClassTable

variable {t : ClassTable} {h : Heap} {c d l : ClassDef}

theorem lookup_eq_ok {complaint : String → Error} {name : String}
    (hl : t.lookup complaint name = .ok c) : t.get? name = some c := by
  rw [lookup] at hl
  split at hl
  next he =>
    cases hl
    exact he
  next => cases hl

/-- A class is linked to no parent, or to one of the table. -/
theorem exists_of_linkParent (hl : t.linkParent c = .ok d) :
    (c.parentName? = none ∧ d = c) ∨
      ∃ name parent, c.parentName? = some name ∧ t.get? name = some parent ∧
        c.checkParent parent = .ok () ∧ d = c.withParent parent := by
  rw [linkParent] at hl
  split at hl
  next name hn =>
    obtain ⟨parent, hp, hl⟩ := exists_of_bind_eq_ok hl
    obtain ⟨x, hc, hl⟩ := exists_of_bind_eq_ok hl
    cases hl
    exact .inr ⟨name, parent, hn, lookup_eq_ok hp, hc, rfl⟩
  next hn =>
    cases hl
    exact .inl ⟨hn, rfl⟩

/-- A class names no traits, or they are looked up in the table and composed. -/
theorem useTraits_of_linkTraits (hl : t.linkTraits h c = .ok d) :
    d = c ∨ ∃ traits, (∀ trait ∈ traits, ∃ name ∈ c.traitNames, t.get? name = some trait) ∧
      c.useTraits h traits = .ok d := by
  rw [linkTraits] at hl
  split at hl
  · cases hl
    exact .inl rfl
  · obtain ⟨traits, ht, hl⟩ := exists_of_bind_eq_ok hl
    refine .inr ⟨traits, ?_, hl⟩
    intro trait hm
    obtain ⟨name, hn, hf⟩ := exists_of_mem_mapM ht hm
    exact ⟨name, hn, lookup_eq_ok hf⟩

theorem exists_of_linkTraits (hl : t.linkTraits h c = .ok d) :
    ∃ traits, (∀ trait ∈ traits, ∃ name ∈ c.traitNames, t.get? name = some trait) ∧
      Relation.ReflTransGen (ClassDef.ComposesTo traits c.traitRules) c d := by
  obtain rfl | ⟨traits, ht, hu⟩ := useTraits_of_linkTraits hl
  · exact ⟨[], nofun, .refl⟩
  · exact ⟨traits, ht, ClassDef.reflTransGen_of_useTraits hu⟩

/-- An interface is implemented if the constants of the class allow it. The class gets the constants
that it does not have, and the interface itself. -/
theorem of_implement_eq_ok {i : ClassDef} (hi : c.implement i = .ok d) :
    i.kind = .interface ∧ c.checkInterfaceConstants i.inheritedConstants = .ok () ∧
      d = { c with
        constants := i.inheritedConstants.foldl (fun m k => m.insertIfNew k.name k) c.constants
        interfaces := ClassDef.addInterface c.interfaces i } := by
  rw [ClassDef.implement] at hi
  obtain ⟨hk, hi⟩ := of_throwIf_eq_ok hi
  obtain ⟨_, hc, hi⟩ := exists_of_bind_eq_ok hi
  cases hi
  exact ⟨Decidable.not_not.1 hk, hc, rfl⟩

/-- Interfaces are looked up in the table and implemented one after another. -/
theorem exists_implemented_of_linkInterfaces (hl : t.linkInterfaces c = .ok d) :
    ∃ is : List ClassDef, (∀ i ∈ is, ∃ name, t.get? name = some i) ∧
      is.foldlM ClassDef.implement c = .ok d := by
  rw [linkInterfaces] at hl
  obtain ⟨named, hn, hl⟩ := exists_of_bind_eq_ok hl
  refine ⟨_, ?_, hl⟩
  intro i hi
  obtain hi | hi := List.mem_append.1 hi
  · obtain ⟨name, -, hf⟩ := exists_of_mem_mapM hn hi
    exact ⟨name, lookup_eq_ok hf⟩
  · rw [enumInterfaces] at hi
    split at hi
    · cases hi
    obtain hi | hi := List.mem_append.1 hi
    · exact ⟨_, Option.mem_toList.1 hi⟩
    · split at hi
      · cases hi
      · exact ⟨_, Option.mem_toList.1 hi⟩

/-- Interfaces leave methods and properties alone. -/
theorem exists_of_linkInterfaces (hl : t.linkInterfaces c = .ok d) :
    ∃ ks is, d = { c with constants := ks, interfaces := is } := by
  obtain ⟨is, -, hf⟩ := exists_implemented_of_linkInterfaces hl
  refine foldlM_induction (P := fun d => ∃ ks is, d = { c with constants := ks, interfaces := is })
    ?_ hf ⟨c.constants, c.interfaces, by cases c; rfl⟩
  rintro i - _ d hi ⟨ks, is, rfl⟩
  obtain ⟨-, -, rfl⟩ := of_implement_eq_ok hi
  exact ⟨_, _, rfl⟩

/-- What a linked class has passed: one whose objects can exist offers the methods of all its
interfaces, enumerations are in order, and methods without a body are where they may be. -/
theorem of_checkLinked_eq_ok (hc : checkLinked h c = .ok ()) :
    ((c.isInstantiable || c.isEnum) = true → ∀ i ∈ c.interfaces, c.checkInterface i = .ok ()) ∧
      (c.isEnum = true → c.checkEnum h = .ok ()) ∧ c.checkAbstract = .ok () := by
  rw [checkLinked] at hc
  have henum {x : Except Error Unit} (hx : (if c.isEnum then c.checkEnum h >>= fun _ => x else x) =
      .ok ()) : (c.isEnum = true → c.checkEnum h = .ok ()) ∧ x = .ok () := by
    split at hx
    · obtain ⟨_, he, hx⟩ := exists_of_bind_eq_ok hx
      exact ⟨fun _ => he, hx⟩
    next hn => exact ⟨fun he => absurd he hn, hx⟩
  split at hc
  · obtain ⟨_, hi, hc⟩ := exists_of_bind_eq_ok hc
    exact ⟨fun _ => forM_eq_ok_iff.1 hi, henum hc⟩
  next hn => exact ⟨fun hi => absurd hi hn, henum hc⟩

/-- The stages of linking, in order, and the checks at the end. -/
theorem exists_stages_of_link (hl : t.link h c = .ok l) :
    ∃ c₁ c₂, t.linkParent (markReadonly c) = .ok c₁ ∧ t.linkTraits h c₁ = .ok c₂ ∧
      t.linkInterfaces c₂ = .ok l ∧ checkLinked h l = .ok () := by
  rw [link] at hl
  obtain ⟨-, hl⟩ := of_throwIf_eq_ok hl
  obtain ⟨_, -, hl⟩ := exists_of_bind_eq_ok hl
  obtain ⟨c₁, h₁, hl⟩ := exists_of_bind_eq_ok hl
  obtain ⟨c₂, h₂, hl⟩ := exists_of_bind_eq_ok hl
  obtain ⟨c₃, h₃, hl⟩ := exists_of_bind_eq_ok hl
  obtain ⟨_, h₄, hl⟩ := exists_of_bind_eq_ok hl
  cases hl
  exact ⟨c₁, c₂, h₁, h₂, h₃, h₄⟩

/-- The stages of linking: a class of a new name, whose readonly properties are in order, is marked,
linked to its parent and composed with its traits, and then nothing but its constants and interfaces
changes. -/
theorem exists_of_link (hl : t.link h c = .ok l) :
    t.get? c.name = none ∧
      (∀ p ∈ c.properties.values, checkReadonly c p = .ok ()) ∧
      ∃ c₁ c₂ traits ks is, t.linkParent (markReadonly c) = .ok c₁ ∧
        (∀ trait ∈ traits, ∃ name ∈ c₁.traitNames, t.get? name = some trait) ∧
        Relation.ReflTransGen (ClassDef.ComposesTo traits c₁.traitRules) c₁ c₂ ∧
        l = { c₂ with constants := ks, interfaces := is } := by
  obtain ⟨c₁, c₂, h₁, h₂, h₃, -⟩ := exists_stages_of_link hl
  rw [link] at hl
  obtain ⟨hn, hl⟩ := of_throwIf_eq_ok hl
  obtain ⟨_, hr, -⟩ := exists_of_bind_eq_ok hl
  obtain ⟨traits, ht, hg⟩ := exists_of_linkTraits h₂
  obtain ⟨ks, is, rfl⟩ := exists_of_linkInterfaces h₃
  refine ⟨?_, forM_eq_ok_iff.1 hr, c₁, c₂, traits, ks, is, h₁, ht, hg, rfl⟩
  simpa [contains] using hn

end ClassTable

end ObjectModel
