import ObjectModel.Proofs.Class.Aliases
/-!
# Implementations and abstract methods of traits

An abstract method of a trait asks for an implementation. It yields to one that the class declares
and to one that another trait provides (`standing?`), but not to one that is inherited: that the
class has from its parent already is not looked at, so the abstract method takes its place. A rule
that adds an abstract method under a name is held up only by other code that stands there.

Apart from this a class that finds an implementation of a name keeps finding one
(`useTraits_implementation`). The methods are composed first, and after that the rules have to keep
two things (`StillImplements`): that an implementation is found, and that the code that stands under
the name stays there, which is what holds an abstract method up.
-/

namespace ObjectModel

namespace ClassDef

variable {h : Heap} {traits : List ClassDef} {rule : TraitRule} {b b' c d : ClassDef}
  {name : String} {m : MethodDef}

/-- The method that stands under a name whatever the parent has: that of the class itself, or the
first one with code that traits provide. -/
def standing? (c : ClassDef) (traits : List ClassDef) (name : String) : Option MethodDef :=
  (c.ownMethod? name).or
    ((c.providedMethods traits (Name.foldCase name)).filter (!·.isAbstract)).head?

/-- The method that a look-up finds if the table of the class has none. -/
def inheritedMethod? (c : ClassDef) (name : String) : Option MethodDef :=
  c.ancestors.tail.findSome? (·.methods.get? (Name.foldCase name))

theorem findMethod?_eq_or (c : ClassDef) (name : String) :
    c.findMethod? name = (c.methods.get? (Name.foldCase name)).or (c.inheritedMethod? name) :=
  findSome?_ancestors c _

theorem or_inheritedMethod?_of_get? (hm : b.methods.get? (Name.foldCase name) = some m) :
    (b.methods.get? (Name.foldCase name)).or (c.inheritedMethod? name) = some m := by
  rw [hm, Option.some_or]

theorem findMethod?_of_get?_foldCase (hm : c.methods.get? (Name.foldCase name) = some m) :
    c.findMethod? name = some m :=
  (findMethod?_eq_or c name).trans (or_inheritedMethod?_of_get? hm)

/-- Composition does not change what comes from the parent. -/
theorem inheritedMethod?_of_useTraits (hu : c.useTraits h traits = .ok d) (name : String) :
    d.inheritedMethod? name = c.inheritedMethod? name := by
  obtain ⟨_, _, _, rfl⟩ := exists_eq_of_reflTransGen (reflTransGen_of_useTraits hu)
  rw [inheritedMethod?, inheritedMethod?, ancestors_eq, ancestors_eq]
  rfl

theorem standing?_of_own (hown : c.ownMethod? name = some m) :
    c.standing? traits name = some m := by
  rw [standing?, hown, Option.some_or]

/-- What stands under a name is composed. -/
theorem ComposesMethod.ownMethod?_of_standing? (hc : ComposesMethod c traits b name)
    (hname : b.name = c.name) (hm : c.standing? traits name = some m) :
    b.ownMethod? name = some { m with declaringClass := c.name } := by
  cases hown : c.ownMethod? name with
  | some n =>
    cases (standing?_of_own hown).symm.trans hm
    obtain ⟨hget, hdecl⟩ := ownMethod?_eq_some_iff.1 hown
    rw [ownMethod?_eq_some_iff, hc.own (hown ▸ rfl), hget, ← hdecl]
    exact ⟨rfl, hdecl.trans hname.symm⟩
  | none =>
    rw [standing?, hown, Option.none_or] at hm
    obtain ⟨ms, hms⟩ := List.head?_eq_some_iff.1 hm
    exact ownMethod?_eq_some_iff.2 ⟨(hc.concrete hown m ms hms).2, hname.symm⟩

/-- Where nothing stands under a name, the class has no method of its own there and traits provide
abstract ones at most. -/
theorem standing?_eq_none_iff : c.standing? traits name = none ↔ c.ownMethod? name = none ∧
    ∀ m ∈ c.providedMethods traits (Name.foldCase name), m.isAbstract = true := by
  rw [standing?, Option.or_eq_none_iff, List.head?_eq_none_iff, List.filter_eq_nil_iff]
  simp only [Bool.not_eq_true', Bool.not_eq_false]

/-- What stands under a name is an implementation if a look-up finds one. -/
theorem isAbstract_of_standing? (hm : c.findMethod? name = some m) (ha : m.isAbstract = false)
    {n : MethodDef} (hn : c.standing? traits name = some n) : n.isAbstract = false := by
  cases hown : c.ownMethod? name with
  | some o =>
    cases (standing?_of_own hown).symm.trans hn
    cases hm.symm.trans (findMethod?_of_get?_foldCase (ownMethod?_eq_some_iff.1 hown).1)
    exact ha
  | none =>
    rw [standing?, hown, Option.none_or] at hn
    simpa using (List.mem_filter.1 (List.mem_of_head? hn)).2

/-- What is to be kept when the composition of a class `c` has come to `b`. -/
structure StillImplements (c : ClassDef) (traits : List ClassDef) (b : ClassDef) (name : String) :
    Prop where
  /-- An implementation is found. -/
  implementation : ∃ n, (b.methods.get? (Name.foldCase name)).or (c.inheritedMethod? name) =
    some n ∧ n.isAbstract = false
  /-- The code that stands under the name is there. -/
  standing : ∀ m, c.standing? traits name = some m → m.body? ≠ none →
    ∃ n, b.ownMethod? name = some n ∧ n.bodyId? = m.bodyId?

/-- The methods are composed before the first rule is applied. -/
theorem ComposesMethod.stillImplements (hc : ComposesMethod c traits b name)
    (hname : b.name = c.name) (hm : c.findMethod? name = some m) (ha : m.isAbstract = false)
    (hinherited : c.standing? traits name = none →
      c.providedMethods traits (Name.foldCase name) = []) :
    StillImplements c traits b name := by
  constructor
  · cases hn : c.standing? traits name with
    | some n =>
      have hget := (ownMethod?_eq_some_iff.1 (hc.ownMethod?_of_standing? hname hn)).1
      have han := isAbstract_of_standing? hm ha hn
      exact ⟨_, or_inheritedMethod?_of_get? hget, han⟩
    | none =>
      have hget := hc.inherited (standing?_eq_none_iff.1 hn).1 (hinherited hn)
      exact ⟨m, by rw [hget, ← findMethod?_eq_or, hm], ha⟩
  · intro n hn _
    exact ⟨_, hc.ownMethod?_of_standing? hname hn, rfl⟩

/-- A rule keeps it, unless it adds an abstract method and no code holds that up. -/
theorem StillImplements.of_applyAlias (hk : StillImplements c traits b name)
    (hb : b.name = c.name) (ha : applyAlias traits rule b = .ok b')
    (hadds : ∀ s, rule.Adds c traits (Name.foldCase name) s → s.isAbstract = true →
      ∃ m, c.standing? traits name = some m ∧ ¬ m.YieldsTo s) :
    StillImplements c traits b' name := by
  have hname := (frame_of_applyAlias ha).1
  obtain he | ⟨s, newName, hs, hyields, he⟩ | ⟨s, n, v, -, hn, -, -, he⟩ :=
    get?_methods_of_applyAlias hb ha name
  case inl =>
    have hown : b'.ownMethod? name = b.ownMethod? name := by
      rw [ownMethod?, ownMethod?, he, hname]
    refine ⟨?_, fun m hm hbody => ?_⟩
    · rw [he]
      exact hk.implementation
    · rw [hown]
      exact hk.standing m hm hbody
  case inr.inl =>
    -- What stood there gave way, so it has no code or the code that takes its place.
    have hcode : ∀ m, c.standing? traits name = some m → m.body? ≠ none →
        s.bodyId? = m.bodyId? := by
      intro m hm hbody
      obtain ⟨n, hn, hsame⟩ := hk.standing m hm hbody
      obtain hnone | hs := hyields n hn
      · rw [← MethodDef.bodyId?_eq_none_iff, hsame, MethodDef.bodyId?_eq_none_iff] at hnone
        exact absurd hnone hbody
      · exact hs.symm.trans hsame
    refine ⟨⟨_, or_inheritedMethod?_of_get? he, ?_⟩, fun m hm hbody => ?_⟩
    · show s.isAbstract = false
      rw [Bool.eq_false_iff]
      intro habstract
      obtain ⟨m, hm, hholds⟩ := hadds s hs habstract
      exact hholds (.inr (hcode m hm fun hnone => hholds (.inl hnone)).symm)
    · exact ⟨_, ownMethod?_eq_some_iff.2 ⟨he, hb.symm.trans hname.symm⟩, hcode m hm hbody⟩
  case inr.inr =>
    refine ⟨?_, fun m hm hbody => ?_⟩
    · obtain ⟨o, ho, hao⟩ := hk.implementation
      rw [hn, Option.some_or] at ho
      cases ho
      exact ⟨_, or_inheritedMethod?_of_get? he, hao⟩
    · obtain ⟨o, ho, hsame⟩ := hk.standing m hm hbody
      obtain ⟨hget, hdecl⟩ := ownMethod?_eq_some_iff.1 ho
      cases hn.symm.trans hget
      exact ⟨_, ownMethod?_eq_some_iff.2 ⟨he, hdecl.trans hname.symm⟩, hsame⟩

theorem StillImplements.of_applyAliases {rules : List TraitRule}
    (hk : StillImplements c traits b name) (hb : b.name = c.name)
    (hadds : ∀ rule ∈ rules, ∀ s, rule.Adds c traits (Name.foldCase name) s → s.isAbstract = true →
      ∃ m, c.standing? traits name = some m ∧ ¬ m.YieldsTo s)
    (hs : b.takeSteps (rules.map (applyAlias traits)) = (d, .ok ())) :
    StillImplements c traits d name := by
  refine applyAliases_induction (P := fun x => StillImplements c traits x name) ?_ hk hs
  intro rule hr x x' hname hx hkx
  exact hkx.of_applyAlias (hname.trans hb) hx (hadds rule hr)

/-- Rules that add nothing under a name do not help where an abstract method has been taken. -/
theorem isAbstract_of_applyAliases {rules : List TraitRule} (hb : b.name = c.name)
    (hm : ∃ n, b.methods.get? (Name.foldCase name) = some n ∧ n.isAbstract = true)
    (hadds : ∀ rule ∈ rules, ∀ s, ¬ rule.Adds c traits (Name.foldCase name) s)
    (hs : b.takeSteps (rules.map (applyAlias traits)) = (d, .ok ())) :
    ∃ n, d.methods.get? (Name.foldCase name) = some n ∧ n.isAbstract = true := by
  refine applyAliases_induction (P := fun x =>
    ∃ n, x.methods.get? (Name.foldCase name) = some n ∧ n.isAbstract = true) ?_ hm hs
  rintro rule hr x x' hname hx ⟨n, hn, ha⟩
  obtain he | ⟨s, -, hs, -⟩ | ⟨s, o, v, -, ho, -, -, he⟩ :=
    get?_methods_of_applyAlias (hname.trans hb) hx name
  · exact ⟨n, he.trans hn, ha⟩
  · exact absurd hs (hadds rule hr s)
  · cases hn.symm.trans ho
    exact ⟨_, he, ha⟩

/-- A class that finds an implementation of a name still finds one after its traits are composed, if
no rule adds an abstract method there that nothing holds up, and if traits that provide only
abstract methods of the name meet one of the class itself. Where they meet an inherited one, an
abstract method takes its place. -/
theorem useTraits_implementation (hu : c.useTraits h traits = .ok d)
    (hm : c.findMethod? name = some m) (ha : m.isAbstract = false) :
    ((∀ rule ∈ c.traitRules, ∀ s, rule.Adds c traits (Name.foldCase name) s → s.isAbstract = true →
        ∃ n, c.standing? traits name = some n ∧ ¬ n.YieldsTo s) →
      (c.standing? traits name = none → c.providedMethods traits (Name.foldCase name) = []) →
      ∃ n, d.findMethod? name = some n ∧ n.isAbstract = false) ∧
    ((∀ rule ∈ c.traitRules, ∀ s, ¬ rule.Adds c traits (Name.foldCase name) s) →
      c.standing? traits name = none → c.providedMethods traits (Name.foldCase name) ≠ [] →
      ∃ n, d.findMethod? name = some n ∧ n.isAbstract = true) := by
  obtain ⟨b, hname, hcomposes, -, hrules⟩ := exists_composed_of_useTraits hu
  constructor
  · intro hadds hinherited
    have hb := (hcomposes name).stillImplements hname hm ha hinherited
    rw [findMethod?_eq_or, inheritedMethod?_of_useTraits hu]
    exact (hb.of_applyAliases hname hadds hrules).implementation
  · intro hadds hnone hprovided
    obtain ⟨hown, habstract⟩ := standing?_eq_none_iff.1 hnone
    obtain ⟨p, ps, hps⟩ := List.exists_cons_of_ne_nil hprovided
    have hp : p ∈ c.providedMethods traits (Name.foldCase name) := by
      rw [hps]
      exact List.mem_cons_self
    have hfilter : (c.providedMethods traits (Name.foldCase name)).filter (!·.isAbstract) = [] :=
      List.filter_eq_nil_iff.2 fun q hq => by simp [habstract q hq]
    have hget := (hcomposes name).abstract hown p ps hfilter hps
    obtain ⟨n, hn, han⟩ :=
      isAbstract_of_applyAliases hname ⟨_, hget, habstract p hp⟩ hadds hrules
    exact ⟨n, findMethod?_of_get?_foldCase hn, han⟩

def demanding : ClassDef :=
  ({ name := "D", kind := .trait } : ClassDef).addMethod { name := "hello", isAbstract := true }

def heir : ClassDef :=
  withParent { name := "C", isAbstract := true } <|
    ({ name := "P" } : ClassDef).addMethod { name := "hello", body? := some ⟨0, "P"⟩ }

/-- A class inherits a greeting and gets another from a trait: the class still greets though a trait
asks for it. Without that other greeting it does not. -/
theorem useTraits_implementation_of_heir :
    (∃ d n, heir.useTraits {} [demanding, greeter "A" 1] = .ok d ∧
      d.findMethod? "Hello" = some n ∧ n.isAbstract = false) ∧
    ∃ d n, heir.useTraits {} [demanding] = .ok d ∧
      d.findMethod? "Hello" = some n ∧ n.isAbstract = true := by
  have hfound : heir.findMethod? "Hello" =
      some { name := "hello", body? := some ⟨0, "P"⟩, declaringClass := "P" } := rfl
  constructor
  · obtain ⟨d, hd⟩ : ∃ d, heir.useTraits {} [demanding, greeter "A" 1] = .ok d := ⟨_, rfl⟩
    obtain ⟨n, hn, ha⟩ := (useTraits_implementation hd hfound rfl).1 nofun nofun
    exact ⟨d, n, hd, hn, ha⟩
  · obtain ⟨d, hd⟩ : ∃ d, heir.useTraits {} [demanding] = .ok d := ⟨_, rfl⟩
    obtain ⟨n, hn, ha⟩ := (useTraits_implementation hd hfound rfl).2 nofun rfl (by decide)
    exact ⟨d, n, hd, hn, ha⟩

/-- The abstract method of a trait takes the place of an implementation that is inherited. -/
theorem exists_implementation_replaced :
    ∃ (c : ClassDef) (traits : List ClassDef) (d : ClassDef) (m n : MethodDef),
      c.useTraits {} traits = .ok d ∧ c.traitRules = [] ∧
      c.findMethod? "hello" = some m ∧ m.isAbstract = false ∧
      d.findMethod? "hello" = some n ∧ n.isAbstract = true := by
  refine ⟨heir, [demanding], _, { name := "hello", body? := some ⟨0, "P"⟩, declaringClass := "P" },
    { name := "hello", isAbstract := true, declaringClass := "C" }, rfl, rfl, rfl, rfl, rfl, rfl⟩

/-- A rule puts an abstract method in the place of an implementation that is inherited. -/
theorem exists_implementation_replaced_by_rule :
    ∃ (c : ClassDef) (traits : List ClassDef) (d : ClassDef) (m n : MethodDef),
      c.useTraits {} traits = .ok d ∧ c.providedMethods traits "hello" = [] ∧
      c.findMethod? "hello" = some m ∧ m.isAbstract = false ∧
      d.findMethod? "hello" = some n ∧ n.isAbstract = true := by
  refine ⟨{ heir with traitRules := [.alias (some "D") "need" (some "hello") none] },
    [({ name := "D", kind := .trait } : ClassDef).addMethod { name := "need", isAbstract := true }],
    _, { name := "hello", body? := some ⟨0, "P"⟩, declaringClass := "P" },
    { name := "hello", isAbstract := true, declaringClass := "C" }, rfl, rfl, rfl, rfl, rfl, rfl⟩

end ClassDef

end ObjectModel
