import ObjectModel.Proofs.Class.Precedence
/-!
# Aliases

The rules of a class come last. A rule that adds a method under another name, or changes the
visibility of one, finds what is there by its name and knows where it comes from by its code only.
So it may take a method of the class for a copy of its source (`TraitRule.Captures`), and gives way
to any other code under the name, be it from a trait or from an earlier rule (`Unrivalled` excludes
both). `useTraits_aliases` says that apart from this aliases do what they say and leave alone what
the class declares; the last two theorems show that neither can be left out.

A rule is looked at in three steps: what the rules before it leave under its name, what it does
itself, and what the rules after it do to the method it has added.
-/

namespace ObjectModel

/-- Methods have the same code, or both have none. -/
theorem MethodDef.bodyId?_eq_iff {m n : MethodDef} :
    m.bodyId? = n.bodyId? ↔ m.sharesBody n = true ∨ m.body? = none ∧ n.body? = none := by
  rw [sharesBody, bodyId?, bodyId?]
  cases m.body? <;> cases n.body? <;> simp

@[simp] theorem MethodDef.bodyId?_eq_none_iff {m : MethodDef} :
    m.bodyId? = none ↔ m.body? = none := Option.map_eq_none_iff

/-- Whether a method of a class gives way where a rule adds another one: it has no code, or that of
the other. -/
def MethodDef.YieldsTo (m source : MethodDef) : Prop :=
  m.body? = none ∨ m.bodyId? = source.bodyId?

instance (m source : MethodDef) : Decidable (m.YieldsTo source) :=
  inferInstanceAs (Decidable (m.body? = none ∨ m.bodyId? = source.bodyId?))

theorem MethodDef.YieldsTo.congr {m n source : MethodDef} (h : m.YieldsTo source)
    (hn : n.body? = m.body?) : n.YieldsTo source := by
  rwa [YieldsTo, bodyId?, hn]

namespace TraitRule

variable {rule : TraitRule} {c : ClassDef} {traits : List ClassDef} {key : String}

/-- Whether a rule adds a method of a trait under a key. -/
def Adds (rule : TraitRule) (c : ClassDef) (traits : List ClassDef) (key : String)
    (source : MethodDef) : Prop :=
  ∃ trait? method name visibility?, rule = .alias trait? method (some name) visibility? ∧
    Name.foldCase name = key ∧ c.aliasSource traits trait? method = .ok source

/-- Whether a rule changes the visibility of a method of a trait under the key that it has there. -/
def Changes (rule : TraitRule) (c : ClassDef) (traits : List ClassDef) (key : String)
    (source : MethodDef) : Prop :=
  ∃ trait? method visibility, rule = .alias trait? method none (some visibility) ∧
    Name.foldCase method = key ∧ c.aliasSource traits trait? method = .ok source

def visibility? : TraitRule → Option Visibility
  | .precedence .. => none
  | .alias _ _ _ visibility? => visibility?

/-- Whether a rule takes a method of a class for one that it is about, which it tells by the code. A
method without code is always taken for one where another is to be added. -/
def Captures (rule : TraitRule) (c : ClassDef) (traits : List ClassDef) (key : String)
    (m : MethodDef) : Prop :=
  (∃ source, rule.Adds c traits key source ∧ m.YieldsTo source) ∨
    ∃ source, rule.Changes c traits key source ∧ m.bodyId? = source.bodyId?

end TraitRule

namespace ClassDef

variable {b b' c d : ClassDef} {traits : List ClassDef} {rule : TraitRule} {name : String}
  {m source : MethodDef}

theorem aliasSource_congr (hb : b.name = c.name) (trait? : Option String) (method : String) :
    b.aliasSource traits trait? method = c.aliasSource traits trait? method := by
  simp only [aliasSource, usedTrait, hb]

/-- A method that a class has itself stands in its table and names it. -/
theorem ownMethod?_eq_some_iff : c.ownMethod? name = some m ↔
    c.methods.get? (Name.foldCase name) = some m ∧ m.declaringClass = c.name := by
  rw [ownMethod?, Option.filter_eq_some_iff, beq_iff_eq]

/-- A rule leaves the method of a name alone, puts a copy of its source there, or changes a
visibility. A method of the class itself gives way only if the rule takes it for one that it is
about. -/
theorem get?_methods_of_applyAlias (hb : b.name = c.name) (ha : applyAlias traits rule b = .ok b')
    (name : String) :
    b'.methods.get? (Name.foldCase name) = b.methods.get? (Name.foldCase name) ∨
    (∃ source newName, rule.Adds c traits (Name.foldCase name) source ∧
      (∀ m, b.ownMethod? name = some m → m.YieldsTo source) ∧
      b'.methods.get? (Name.foldCase name) = some { source with
        name := newName
        declaringClass := c.name
        visibility := rule.visibility?.getD source.visibility }) ∨
    ∃ source m v, rule.Changes c traits (Name.foldCase name) source ∧
      b.methods.get? (Name.foldCase name) = some m ∧ m.bodyId? = source.bodyId? ∧
      rule.visibility? = some v ∧
      b'.methods.get? (Name.foldCase name) = some { m with visibility := v } := by
  by_cases hkey : rule.adaptedKey? = some (Name.foldCase name)
  · obtain ⟨hnone, rfl⟩ | ⟨trait?, method, newName, visibility?, source, rfl, hs, rfl⟩ |
        ⟨trait?, method, v, source, rfl, hs, rfl⟩ := of_applyAlias_eq_ok ha
    · exact .inl rfl
    · rw [aliasSource_congr hb] at hs
      have hfold : Name.foldCase newName = Name.foldCase name := Option.some.inj hkey
      rw [addAlias]
      split
      · exact .inl rfl
      next hown =>
        refine .inr (.inl ⟨source, newName, ⟨_, _, _, _, rfl, hfold, hs⟩, fun m hm => ?_, ?_⟩)
        · rw [ownMethod?, hfold, ← ownMethod?, hm] at hown
          simp only [Option.any_some, Bool.and_eq_true, Bool.not_eq_true', not_and,
            Bool.not_eq_false, Option.isSome_iff_ne_none] at hown
          by_cases hbody : m.body? = none
          · exact .inl hbody
          · exact .inr (MethodDef.bodyId?_eq_iff.2 (.inl (hown hbody)))
        · rw [OrderedMap.get?_insert, ← hfold, hb]
          exact if_pos rfl
    · rw [aliasSource_congr hb] at hs
      have hfold : Name.foldCase method = Name.foldCase name := Option.some.inj hkey
      rw [changeVisibility, OrderedMap.get?_modify, if_pos hfold.symm]
      cases hm : b.methods.get? (Name.foldCase name) with
      | none => exact .inl rfl
      | some m =>
        rw [Option.map_some]
        split
        next hbody =>
          refine .inr (.inr ⟨source, m, v, ⟨_, _, _, rfl, hfold, hs⟩, rfl, ?_, rfl, rfl⟩)
          simpa [MethodDef.bodyId?_eq_iff] using hbody
        next => exact .inl rfl
  · exact .inl ((frame_of_applyAlias ha).2.2 _ hkey)

/-- A method that a class has itself stays if no rule takes it for one that it is about. -/
theorem get?_methods_of_not_captures {rules : List TraitRule} (hb : b.name = c.name)
    (hm : b.ownMethod? name = some m)
    (hrules : ∀ rule ∈ rules, ¬ rule.Captures c traits (Name.foldCase name) m)
    (hs : b.takeSteps (rules.map (applyAlias traits)) = (d, .ok ())) :
    d.methods.get? (Name.foldCase name) = some m := by
  obtain ⟨hget, hdecl⟩ := ownMethod?_eq_some_iff.1 hm
  refine applyAliases_induction (P := fun x => x.methods.get? (Name.foldCase name) = some m)
    ?_ hget hs
  intro rule hr x x' hname hx hxm
  have hown : x.ownMethod? name = some m := ownMethod?_eq_some_iff.2 ⟨hxm, hdecl.trans hname.symm⟩
  obtain hx | ⟨source, newName, hadds, hyields, -⟩ | ⟨source, m', v, hchanges, hm', hbody, -⟩ :=
    get?_methods_of_applyAlias (hname.trans hb) hx name
  · rw [hx, hxm]
  · exact absurd (.inl ⟨source, hadds, hyields m hown⟩) (hrules rule hr)
  · cases hxm.symm.trans hm'
    exact absurd (.inr ⟨source, hchanges, hbody⟩) (hrules rule hr)

/-- Whether nothing keeps a rule, which stands between others, from adding its source under a key:
what traits provide there and what earlier rules add gives way, and if the source has no code, later
rules add none either. -/
structure Unrivalled (c : ClassDef) (traits : List ClassDef) (key : String) (source : MethodDef)
    (before after : List TraitRule) : Prop where
  provided : ∀ m ∈ c.providedMethods traits key, m.YieldsTo source
  before : ∀ rule ∈ before, ∀ m, rule.Adds c traits key m → m.YieldsTo source
  after : source.body? = none → ∀ rule ∈ after, ∀ m, rule.Adds c traits key m → m.body? = none

/-- What a class has itself under a name that it did not have before comes from a trait. -/
theorem ComposesMethod.exists_of_ownMethod? (hc : ComposesMethod c traits d name)
    (hname : d.name = c.name) (hown : c.ownMethod? name = none) (hm : d.ownMethod? name = some m) :
    ∃ n ∈ c.providedMethods traits (Name.foldCase name),
      m = { n with declaringClass := c.name } := by
  obtain ⟨hget, hdecl⟩ := ownMethod?_eq_some_iff.1 hm
  cases hconcrete : (c.providedMethods traits (Name.foldCase name)).filter (!·.isAbstract) with
  | cons n ns =>
    have hn : n ∈ n :: ns := List.mem_cons_self
    rw [← hconcrete] at hn
    have htaken := (hc.concrete hown n ns hconcrete).2
    exact ⟨n, (List.mem_filter.1 hn).1, Option.some.inj (hget.symm.trans htaken)⟩
  | nil =>
    cases hprovided : c.providedMethods traits (Name.foldCase name) with
    | cons n ns =>
      have htaken := hc.abstract hown n ns hconcrete hprovided
      exact ⟨n, List.mem_cons_self, Option.some.inj (hget.symm.trans htaken)⟩
    | nil =>
      rw [hc.inherited hown hprovided] at hget
      rw [ownMethod?_eq_some_iff.2 ⟨hget, hdecl.trans hname⟩] at hown
      cases hown

/-- A class that has no method of a name uses the code of any method with code that traits
provide. -/
theorem ComposesMethod.exists_of_mem (hc : ComposesMethod c traits d name)
    (hname : d.name = c.name) (hown : c.ownMethod? name = none)
    (hm : m ∈ (c.providedMethods traits (Name.foldCase name)).filter (!·.isAbstract)) :
    ∃ n, d.ownMethod? name = some n ∧ n.bodyId? = m.bodyId? := by
  cases hms : (c.providedMethods traits (Name.foldCase name)).filter (!·.isAbstract) with
  | nil =>
    rw [hms] at hm
    cases hm
  | cons first ms =>
    obtain ⟨hpairwise, hget⟩ := hc.concrete hown first ms hms
    refine ⟨_, ownMethod?_eq_some_iff.2 ⟨hget, hname.symm⟩, ?_⟩
    rw [hms] at hm
    obtain rfl | hrest := List.mem_cons.1 hm
    · rfl
    · exact MethodDef.bodyId?_eq_iff.2 (.inl ((List.pairwise_cons.1 hpairwise).1 m hrest))

/-- Before a rule has its turn, what the class has itself under the key of the rule gives way. -/
theorem yieldsTo_of_applyAlias (hb : b.name = c.name) (ha : applyAlias traits rule b = .ok b')
    (hadds : ∀ m, rule.Adds c traits (Name.foldCase name) m → m.YieldsTo source)
    (hown : ∀ m, b.ownMethod? name = some m → m.YieldsTo source) :
    ∀ m, b'.ownMethod? name = some m → m.YieldsTo source := by
  intro m hm
  obtain ⟨hget, hdecl⟩ := ownMethod?_eq_some_iff.1 hm
  rw [(frame_of_applyAlias ha).1] at hdecl
  obtain he | ⟨s, newName, hs, -, he⟩ | ⟨s, n, v, -, hn, -, -, he⟩ :=
    get?_methods_of_applyAlias hb ha name
  · exact hown m (ownMethod?_eq_some_iff.2 ⟨he ▸ hget, hdecl⟩)
  · cases hget.symm.trans he
    exact (hadds s hs).congr rfl
  · cases hget.symm.trans he
    exact (hown n (ownMethod?_eq_some_iff.2 ⟨hn, hdecl⟩)).congr rfl

theorem yieldsTo_of_applyAliases {rules : List TraitRule} (hb : b.name = c.name)
    (hadds : ∀ rule ∈ rules, ∀ m, rule.Adds c traits (Name.foldCase name) m → m.YieldsTo source)
    (hown : ∀ m, b.ownMethod? name = some m → m.YieldsTo source)
    (hs : b.takeSteps (rules.map (applyAlias traits)) = (d, .ok ())) :
    ∀ m, d.ownMethod? name = some m → m.YieldsTo source := by
  refine applyAliases_induction
    (P := fun x => ∀ m, x.ownMethod? name = some m → m.YieldsTo source) ?_ hown hs
  intro rule hr x x' hname hx
  exact yieldsTo_of_applyAlias (hname.trans hb) hx (hadds rule hr)

theorem ownMethod?_addAlias {visibility? : Option Visibility}
    (hown : ∀ m, b.ownMethod? name = some m → m.YieldsTo source) :
    (b.addAlias source name visibility?).ownMethod? name = some { source with
      name
      declaringClass := b.name
      visibility := visibility?.getD source.visibility } := by
  rw [addAlias]
  split
  next hshadowed =>
    obtain ⟨m, hm, hbody⟩ := (Option.any_eq_true _ _).1 hshadowed
    simp only [Bool.and_eq_true, Bool.not_eq_true'] at hbody
    obtain hnone | hsame := hown m hm
    · rw [hnone] at hbody
      cases hbody.1
    · obtain hshares | ⟨hnone, -⟩ := MethodDef.bodyId?_eq_iff.1 hsame
      · cases hbody.2.symm.trans hshares
      · rw [hnone] at hbody
        cases hbody.1
  next =>
    rw [ownMethod?_eq_some_iff, OrderedMap.get?_insert]
    exact ⟨if_pos rfl, rfl⟩

/-- After its turn, what a rule has added keeps its code. Its visibility changes only by a rule that
takes the method for one that it is about. -/
theorem exists_ownMethod?_of_applyAlias (hb : b.name = c.name)
    (ha : applyAlias traits rule b = .ok b') (hm : b.ownMethod? name = some m)
    (hbody : m.bodyId? = source.bodyId?)
    (hadds : source.body? = none →
      ∀ n, rule.Adds c traits (Name.foldCase name) n → n.body? = none) :
    ∃ n, b'.ownMethod? name = some n ∧ n.bodyId? = source.bodyId? ∧
      (n.visibility = m.visibility ∨ rule.Captures c traits (Name.foldCase name) source ∧
        ∀ v, rule.visibility? = some v → n.visibility = v) := by
  obtain ⟨hget, hdecl⟩ := ownMethod?_eq_some_iff.1 hm
  have hname := (frame_of_applyAlias ha).1
  obtain he | ⟨s, newName, hs, hyields, he⟩ | ⟨s, n, v, hs, hn, hsame, hv, he⟩ :=
    get?_methods_of_applyAlias hb ha name
  · refine ⟨m, ownMethod?_eq_some_iff.2 ⟨he.trans hget, hdecl.trans hname.symm⟩, hbody, .inl rfl⟩
  · have hsource : source.YieldsTo s ∧ s.bodyId? = source.bodyId? := by
      obtain hnone | hsame := hyields m hm
      · rw [← MethodDef.bodyId?_eq_none_iff, hbody] at hnone
        have hsnone := hadds (MethodDef.bodyId?_eq_none_iff.1 hnone) s hs
        rw [hnone, MethodDef.bodyId?_eq_none_iff]
        exact ⟨.inl (MethodDef.bodyId?_eq_none_iff.1 hnone), hsnone⟩
      · exact ⟨.inr (hbody.symm.trans hsame), hsame.symm.trans hbody⟩
    refine ⟨_, ownMethod?_eq_some_iff.2 ⟨he, hb.symm.trans hname.symm⟩, hsource.2, .inr ⟨?_, ?_⟩⟩
    · exact .inl ⟨s, hs, hsource.1⟩
    · rintro v hv
      simp only [hv, Option.getD_some]
  · cases hget.symm.trans hn
    refine ⟨_, ownMethod?_eq_some_iff.2 ⟨he, hdecl.trans hname.symm⟩, hbody, .inr ⟨?_, ?_⟩⟩
    · exact .inr ⟨s, hs, hbody.symm.trans hsame⟩
    · rintro w hw
      cases hv.symm.trans hw
      rfl

theorem exists_ownMethod?_of_applyAliases {rules : List TraitRule} (hb : b.name = c.name)
    (hm : b.ownMethod? name = some m) (hbody : m.bodyId? = source.bodyId?)
    (hadds : source.body? = none → ∀ rule ∈ rules,
      ∀ n, rule.Adds c traits (Name.foldCase name) n → n.body? = none)
    (hs : b.takeSteps (rules.map (applyAlias traits)) = (d, .ok ())) :
    ∃ n, d.ownMethod? name = some n ∧ n.bodyId? = source.bodyId? ∧
      ((∀ rule ∈ rules, rule.Captures c traits (Name.foldCase name) source →
          rule.visibility? = some m.visibility) →
        n.visibility = m.visibility) := by
  refine applyAliases_induction (P := fun x => ∃ n, x.ownMethod? name = some n ∧
    n.bodyId? = source.bodyId? ∧
    ((∀ rule ∈ rules, rule.Captures c traits (Name.foldCase name) source →
      rule.visibility? = some m.visibility) → n.visibility = m.visibility))
    ?_ ⟨m, hm, hbody, fun _ => rfl⟩ hs
  rintro rule hr x x' hname hx ⟨n, hn, hnbody, hnv⟩
  obtain ⟨n', hn', hbody', hv⟩ := exists_ownMethod?_of_applyAlias (hname.trans hb) hx hn hnbody
    (fun hnone => hadds hnone rule hr)
  refine ⟨n', hn', hbody', fun hrules => ?_⟩
  obtain hv | ⟨hcaptures, hv⟩ := hv
  · exact hv.trans (hnv hrules)
  · exact hv _ (hrules rule hr hcaptures)

/-- Aliases: what a class declares stays as it is, unless a rule takes it for a method of a trait;
and what a rule adds has the code of its source and the visibility that the rule names, unless other
methods compete for the name. -/
theorem useTraits_aliases {h : Heap} (hu : c.useTraits h traits = .ok d) :
    (∀ name m, c.ownMethod? name = some m →
      (∀ rule ∈ c.traitRules, ¬ rule.Captures c traits (Name.foldCase name) m) →
      d.methods.get? (Name.foldCase name) = some m) ∧
    ∀ before after trait? method name visibility?,
      c.traitRules = before ++ .alias trait? method (some name) visibility? :: after →
      c.ownMethod? name = none →
      ∃ source, c.aliasSource traits trait? method = .ok source ∧
        (c.Unrivalled traits (Name.foldCase name) source before after →
          ∃ m, d.ownMethod? name = some m ∧ m.bodyId? = source.bodyId? ∧
            ∀ v, visibility? = some v →
              (∀ rule ∈ after, rule.Captures c traits (Name.foldCase name) source →
                rule.visibility? = some v) →
              m.visibility = v) := by
  obtain ⟨b₀, hname, hcomposes, -, hrun⟩ := exists_composed_of_useTraits hu
  constructor
  · intro name m hm hrules
    apply get?_methods_of_not_captures hname _ hrules hrun
    obtain ⟨hget, hdecl⟩ := ownMethod?_eq_some_iff.1 hm
    rw [ownMethod?_eq_some_iff, (hcomposes name).own (hm ▸ rfl), hname]
    exact ⟨hget, hdecl⟩
  · intro before after trait? method name visibility? hrules hown
    rw [hrules, List.map_append, List.map_cons] at hrun
    obtain ⟨b, hbefore, hrun⟩ := takeSteps_append_eq_ok hrun
    obtain ⟨b', hstep, hafter⟩ := takeSteps_cons_eq_ok hrun
    obtain ⟨source, hs, hb'⟩ := exists_of_bind_eq_ok hstep
    cases hb'
    have hb : b.name = c.name := (frame_of_applyAliases hbefore).1.trans hname
    refine ⟨source, by rw [← aliasSource_congr hb, hs], fun hrival => ?_⟩
    have hyields : ∀ m, b.ownMethod? name = some m → m.YieldsTo source := by
      apply yieldsTo_of_applyAliases hname hrival.before _ hbefore
      intro m hm
      obtain ⟨n, hn, rfl⟩ := (hcomposes name).exists_of_ownMethod? hname hown hm
      exact (hrival.provided n hn).congr rfl
    have hadded : (b.addAlias source name visibility?).ownMethod? name = _ :=
      ownMethod?_addAlias hyields
    obtain ⟨n, hn, hbody, hv⟩ := exists_ownMethod?_of_applyAliases
      ((frame_of_applyAlias hstep).1.trans hb) hadded rfl hrival.after hafter
    refine ⟨n, hn, hbody, ?_⟩
    rintro v rfl
    exact hv

/-- A class with a method of its own adds the greeting of a trait under another name. -/
theorem useTraits_aliases_of_greeter :
    ∃ d, (({ name := "C", traitRules := [.alias (some "A") "hello" (some "greet")
          (some .isProtected)] } : ClassDef).addMethod { name := "wave" }).useTraits {}
        [greeter "A" 1] = .ok d ∧
      d.methods.get? "wave" = some { name := "wave", declaringClass := "C" } ∧
      ∃ m, d.ownMethod? "greet" = some m ∧ m.bodyId? = some 1 ∧ m.visibility = .isProtected := by
  obtain ⟨d, hd⟩ : ∃ d, (({ name := "C", traitRules := [.alias (some "A") "hello" (some "greet")
      (some .isProtected)] } : ClassDef).addMethod { name := "wave" }).useTraits {}
      [greeter "A" 1] = .ok d := ⟨_, rfl⟩
  obtain ⟨hown, hadded⟩ := useTraits_aliases hd
  have hwave := hown "wave" { name := "wave", declaringClass := "C" } (by decide) (by
    intro rule hr
    cases List.mem_singleton.1 hr
    rintro (⟨source, ⟨_, _, _, _, hrule, hkey, -⟩, -⟩ | ⟨source, ⟨_, _, _, hrule, -⟩, -⟩)
    · cases hrule
      revert hkey
      decide
    · cases hrule)
  obtain ⟨source, hs, hadded⟩ := hadded [] [] (some "A") "hello" "greet" (some .isProtected) rfl
    (by decide)
  obtain rfl : ({ name := "hello", body? := some ⟨1, "A"⟩, declaringClass := "A" } : MethodDef) =
      source := Except.ok.inj hs
  obtain ⟨m, hm, hbody, hv⟩ := hadded ⟨by decide, nofun, nofun⟩
  exact ⟨d, hd, hwave, m, hm, hbody, hv _ rfl nofun⟩

/-- A rule puts the greeting of a trait in the place of an abstract method of the class. -/
theorem exists_own_method_replaced :
    ∃ (c : ClassDef) (traits : List ClassDef) (d : ClassDef) (m n : MethodDef),
      c.useTraits {} traits = .ok d ∧ c.ownMethod? "wave" = some m ∧
      d.methods.get? "wave" = some n ∧ m.isAbstract = true ∧ n.isAbstract = false := by
  refine ⟨({ name := "C", isAbstract := true, traitRules := [.alias (some "A") "hello"
      (some "wave") none] } : ClassDef).addMethod { name := "wave", isAbstract := true },
    [greeter "A" 1], _, { name := "wave", isAbstract := true, declaringClass := "C" },
    { name := "wave", body? := some ⟨1, "A"⟩, declaringClass := "C" }, rfl, ?_⟩
  decide

/-- A rule is to add the greeting of one trait under the name of a method of another, and the
greeting is dropped. -/
theorem exists_alias_dropped :
    ∃ (c : ClassDef) (traits : List ClassDef) (d : ClassDef) (source m : MethodDef),
      c.useTraits {} traits = .ok d ∧
      c.traitRules = [.alias (some "A") "hello" (some "wave") none] ∧
      c.ownMethod? "wave" = none ∧ c.aliasSource traits (some "A") "hello" = .ok source ∧
      d.ownMethod? "wave" = some m ∧ m.bodyId? ≠ source.bodyId? := by
  refine ⟨{ name := "C", traitRules := [.alias (some "A") "hello" (some "wave") none] },
    [greeter "A" 1, ({ name := "B", kind := .trait } : ClassDef).addMethod
      { name := "wave", body? := some ⟨2, "B"⟩ }], _,
    { name := "hello", body? := some ⟨1, "A"⟩, declaringClass := "A" },
    { name := "wave", body? := some ⟨2, "B"⟩, declaringClass := "C" }, rfl, rfl, rfl, rfl, ?_⟩
  decide

end ClassDef

end ObjectModel
