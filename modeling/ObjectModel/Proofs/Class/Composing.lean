import ObjectModel.Proofs.Class.Overriding
/-!
# How traits are composed

A composition goes through methods, properties, constants and rules, in this order, and no stage
touches what another one settles but for the rules, which come back to the methods. Within a stage
every key has one step. So what becomes of a key is what its own step makes of it, given what the
class had there before: `exists_stages_of_useTraits` takes a composition apart into its stages, and
`takeSteps_entries` a stage into the step of a key and those around it, which do not count.

The methods that come into question for a key are said in two ways: by the list that the composition
gathers, and by the rules of the class, `providedMethods`. They are the same list.
-/

namespace ObjectModel

namespace TraitRule

/-- Whether a rule prefers another trait's method of a key to that of a given trait. -/
def excludes (rule : TraitRule) (t : ClassDef) (key : String) : Bool :=
  match rule with
  | .precedence _ method insteadOf => Name.foldCase method == key && insteadOf.any (t.isNamed ·)
  | .alias .. => false

def exclusions : TraitRule → List (String × String)
  | .precedence _ method insteadOf =>
    insteadOf.map fun name => (Name.foldCase name, Name.foldCase method)
  | .alias .. => []

theorem mem_exclusions_iff {rule : TraitRule} {t : ClassDef} {key : String} :
    (Name.foldCase t.name, key) ∈ rule.exclusions ↔ rule.excludes t key = true := by
  cases rule with
  | precedence trait method insteadOf =>
    simp only [exclusions, excludes, List.mem_map, Prod.mk.injEq, Bool.and_eq_true,
      List.any_eq_true, ClassDef.isNamed, Name.same, beq_iff_eq]
    constructor
    · rintro ⟨name, hm, hn, hk⟩
      exact ⟨hk, name, hm, hn.symm⟩
    · rintro ⟨hk, name, hm, hn⟩
      exact ⟨name, hm, hn.symm, hk⟩
  | «alias» => simp [exclusions, excludes]

end TraitRule

namespace MethodDef

/-- What tells the code of a method from that of others, if it has code. -/
def bodyId? (m : MethodDef) : Option Nat := m.body?.map (·.id)

theorem sharesBody_iff {m n : MethodDef} :
    m.sharesBody n = true ↔ ∃ i, m.bodyId? = some i ∧ n.bodyId? = some i := by
  rw [sharesBody, bodyId?, bodyId?]
  cases m.body? with
  | none => simp
  | some a =>
    cases n.body? with
    | none => simp
    | some b =>
      simp only [beq_iff_eq, Option.map_some, Option.some.injEq, exists_eq_left']
      exact eq_comm

end MethodDef

namespace ClassDef

variable {traits : List ClassDef} {excluded : List (String × String)} {c d : ClassDef} {h : Heap}

/-- The methods that traits provide under a key, in the order of the traits, without those that a
rule of the class excludes. -/
def providedMethods (c : ClassDef) (traits : List ClassDef) (key : String) : List MethodDef :=
  (traits.filter fun t => !c.traitRules.any (·.excludes t key)).filterMap (·.methods.get? key)

def providedProperties (traits : List ClassDef) (name : String) : List PropertyDef :=
  traits.filterMap (·.properties.get? name)

theorem takeSteps_cons_eq_ok {step : Step} {steps : List Step}
    (hs : c.takeSteps (step :: steps) = (d, .ok ())) :
    ∃ b, step c = .ok b ∧ b.takeSteps steps = (d, .ok ()) := by
  cases hc : step c with
  | error e =>
    rw [takeSteps_cons_error hc] at hs
    cases hs
  | ok b =>
    rw [takeSteps_cons_ok hc] at hs
    exact ⟨b, rfl, hs⟩

theorem takeSteps_append_eq_ok {as bs : List Step} (hs : c.takeSteps (as ++ bs) = (d, .ok ())) :
    ∃ b, c.takeSteps as = (b, .ok ()) ∧ b.takeSteps bs = (d, .ok ()) := by
  induction as generalizing c with
  | nil => exact ⟨c, rfl, hs⟩
  | cons step as ih =>
    obtain ⟨b, hb, hs⟩ := takeSteps_cons_eq_ok hs
    obtain ⟨b', hb', hs⟩ := ih hs
    exact ⟨b', by rw [takeSteps_cons_ok hb, hb'], hs⟩

/-- A sequence of steps that fails got to the step that failed. -/
theorem exists_of_takeSteps_eq_error {steps : List Step} {e : Error}
    (hs : c.takeSteps steps = (d, .error e)) :
    ∃ before, before ⊆ steps ∧ c.takeSteps before = (d, .ok ()) ∧
      ∃ step ∈ steps, step d = .error e := by
  induction steps generalizing c with
  | nil => cases hs
  | cons step steps ih =>
    cases hc : step c with
    | error e' =>
      rw [takeSteps_cons_error hc] at hs
      cases hs
      exact ⟨[], List.nil_subset _, rfl, step, List.mem_cons_self, hc⟩
    | ok b =>
      rw [takeSteps_cons_ok hc] at hs
      obtain ⟨before, hsub, hb, failing, hm, he⟩ := ih hs
      refine ⟨step :: before, List.cons_subset_cons step hsub, ?_, failing, ?_, he⟩
      · rw [takeSteps_cons_ok hc, hb]
      · exact List.mem_cons_of_mem step hm

theorem takeSteps_append_eq_error {as bs : List Step} {e : Error}
    (hs : c.takeSteps (as ++ bs) = (d, .error e)) :
    c.takeSteps as = (d, .error e) ∨
      ∃ b, c.takeSteps as = (b, .ok ()) ∧ b.takeSteps bs = (d, .error e) := by
  induction as generalizing c with
  | nil => exact .inr ⟨c, rfl, hs⟩
  | cons step as ih =>
    rw [List.cons_append] at hs
    cases hc : step c with
    | error e' =>
      rw [takeSteps_cons_error hc] at hs ⊢
      exact .inl hs
    | ok b =>
      rw [takeSteps_cons_ok hc] at hs ⊢
      exact ih hs

/-- What every step preserves is preserved by a sequence of them. -/
theorem takeSteps_induction {P : ClassDef → Prop} {steps : List Step}
    (hsteps : ∀ step ∈ steps, ∀ b b', step b = .ok b' → P b → P b') (hc : P c)
    (hs : c.takeSteps steps = (d, .ok ())) : P d := by
  induction steps generalizing c with
  | nil =>
    cases hs
    exact hc
  | cons step steps ih =>
    obtain ⟨b, hb, hs⟩ := takeSteps_cons_eq_ok hs
    exact ih (fun s hm => hsteps s (List.mem_cons_of_mem step hm))
      (hsteps step List.mem_cons_self c b hb hc) hs

/-- What no step changes stays as it is. -/
theorem takeSteps_eq {β : Type} {g : ClassDef → β} {steps : List Step}
    (hsteps : ∀ step ∈ steps, ∀ b b', step b = .ok b' → g b' = g b)
    (hs : c.takeSteps steps = (d, .ok ())) : g d = g c := by
  refine takeSteps_induction (P := fun b => g b = g c) ?_ rfl hs
  intro step hm b b' hb hg
  exact (hsteps step hm b b' hb).trans hg

theorem isNamed_of_usedTrait {name : String} {t : ClassDef} (hu : c.usedTrait traits name = .ok t) :
    t.isNamed name = true := by
  rw [usedTrait] at hu
  split at hu
  next hf =>
    cases hu
    simpa using List.find?_some hf
  next => cases hu

/-- A rule that makes sense excludes what it says: another spelling of a trait is the same trait. -/
theorem excludedBy_eq_ok {rule : TraitRule} {pairs : List (String × String)}
    (hr : c.excludedBy traits rule = .ok pairs) : pairs = rule.exclusions := by
  cases rule with
  | «alias» =>
    cases hr
    rfl
  | precedence trait method insteadOf =>
    obtain ⟨winner, -, hr⟩ := exists_of_bind_eq_ok hr
    obtain ⟨-, hr⟩ := of_throwIf_eq_ok hr
    refine eq_map_of_mapM_eq_ok (fun name _ pair hp => ?_) hr
    obtain ⟨loser, hl, hp⟩ := exists_of_bind_eq_ok hp
    obtain ⟨-, hp⟩ := of_throwIf_eq_ok hp
    cases hp
    rw [beq_iff_eq.1 (isNamed_of_usedTrait hl)]

theorem contains_of_exclusions (hx : c.exclusions traits = .ok excluded) (t : ClassDef)
    (key : String) :
    excluded.contains (Name.foldCase t.name, key) = c.traitRules.any (·.excludes t key) := by
  obtain ⟨pairs, hp, hx⟩ := exists_of_bind_eq_ok hx
  cases hx
  rw [eq_map_of_mapM_eq_ok (fun rule _ pair => excludedBy_eq_ok) hp, Bool.eq_iff_iff,
    List.contains_iff_mem, List.any_eq_true, ← List.flatMap_def, List.mem_flatMap]
  simp only [TraitRule.mem_exclusions_iff]

/-- What a composition gathers under a key are the methods that the rules leave. -/
theorem map_snd_methodProviders (hx : c.exclusions traits = .ok excluded) (key : String) :
    (((methodProviders traits excluded).get? key).getD []).map Prod.snd =
      c.providedMethods traits key := by
  have hcontains := contains_of_exclusions hx
  rw [methodProviders, OrderedMap.getD_get?_group]
  clear hx
  induction traits with
  | nil => rfl
  | cons t traits ih =>
    rw [List.flatMap_cons, List.filterMap_append, List.map_append, ih, List.filterMap_map,
      List.filterMap_filter, List.map_filterMap,
      OrderedMap.filterMap_entries (k := key) (by simp +contextual), providedMethods,
      providedMethods, List.filter_cons, ← hcontains t key]
    by_cases ht : (Name.foldCase t.name, key) ∈ excluded
    · cases hm : t.methods.get? key <;> simp [ht]
    · cases hm : t.methods.get? key <;> simp [ht, hm]

theorem map_snd_propertyProviders (name : String) :
    (((propertyProviders traits).get? name).getD []).map Prod.snd =
      providedProperties traits name := by
  rw [propertyProviders, OrderedMap.getD_get?_group]
  induction traits with
  | nil => rfl
  | cons t traits ih =>
    rw [List.flatMap_cons, List.filterMap_append, List.map_append, ih, List.filterMap_map,
      List.map_filterMap, OrderedMap.filterMap_entries (k := name) (by simp +contextual),
      providedProperties, providedProperties]
    cases hp : t.properties.get? name <;> simp [hp]

def methodSteps (traits : List ClassDef) (excluded : List (String × String)) : List Step :=
  (methodProviders traits excluded).entries.map fun e => composeMethod e.1 e.2

def propertySteps (h : Heap) (traits : List ClassDef) : List Step :=
  (propertyProviders traits).entries.map fun e => composeProperty h e.1 e.2

theorem compositionSteps_eq (h : Heap) (c : ClassDef) (traits : List ClassDef)
    (excluded : List (String × String)) :
    compositionSteps h c traits excluded =
      methodSteps traits excluded ++ (propertySteps h traits ++
        (traits.map composeConstants ++ c.traitRules.map (applyAlias traits))) := by
  simp only [compositionSteps, List.append_assoc]
  rfl

theorem exclusions_of_checkTraits (hx : c.checkTraits traits = .ok excluded) :
    c.exclusions traits = .ok excluded := by
  rw [checkTraits] at hx
  split at hx
  · cases hx
  · exact hx

/-- A composition that succeeds goes through all its stages. -/
theorem exists_stages_of_useTraits (hu : c.useTraits h traits = .ok d) :
    ∃ excluded c₁ c₂ c₃, c.exclusions traits = .ok excluded ∧
      c.takeSteps (methodSteps traits excluded) = (c₁, .ok ()) ∧
      c₁.takeSteps (propertySteps h traits) = (c₂, .ok ()) ∧
      c₂.takeSteps (traits.map composeConstants) = (c₃, .ok ()) ∧
      c₃.takeSteps (c.traitRules.map (applyAlias traits)) = (d, .ok ()) := by
  obtain ⟨excluded, hx, hs⟩ := of_useTraits_eq_ok hu
  rw [compositionSteps_eq] at hs
  obtain ⟨c₁, h₁, hs⟩ := takeSteps_append_eq_ok hs
  obtain ⟨c₂, h₂, hs⟩ := takeSteps_append_eq_ok hs
  obtain ⟨c₃, h₃, h₄⟩ := takeSteps_append_eq_ok hs
  exact ⟨excluded, c₁, c₂, c₃, exclusions_of_checkTraits hx, h₁, h₂, h₃, h₄⟩

/-- A composition that fails was not begun, or a step failed. -/
theorem of_useTraits_eq_error {e : Error} (hu : c.useTraits h traits = .error e) :
    c.checkTraits traits = .error e ∨ ∃ excluded b, c.exclusions traits = .ok excluded ∧
      c.takeSteps (compositionSteps h c traits excluded) = (b, .error e) := by
  rw [useTraits, compose] at hu
  cases hx : c.checkTraits traits with
  | error e' =>
    rw [hx] at hu
    cases hu
    exact .inl rfl
  | ok excluded =>
    simp only [hx] at hu
    generalize hs : c.takeSteps _ = s at hu
    obtain ⟨b, _ | ⟨⟩⟩ := s <;> cases hu
    exact .inr ⟨excluded, b, exclusions_of_checkTraits hx, hs⟩

/-- A stage has one step for every key. What the others leave alone goes through this step only. -/
theorem takeSteps_entries {α β : Type} {m : OrderedMap String α} {f : String → α → Step}
    {key : String} {g : ClassDef → β}
    (hf : ∀ k a b b', k ≠ key → f k a b = .ok b' → g b' = g b)
    (hs : c.takeSteps (m.entries.map fun e => f e.1 e.2) = (d, .ok ())) :
    (m.get? key = none → g d = g c) ∧
      ∀ a, m.get? key = some a → ∃ b b', g b = g c ∧ f key a b = .ok b' ∧ g d = g b' := by
  have hpass : ∀ {l : List (String × α)} {b b' : ClassDef}, key ∉ l.map Prod.fst →
      b.takeSteps (l.map fun e => f e.1 e.2) = (b', .ok ()) → g b' = g b := by
    intro l b b' hkey hb
    refine takeSteps_eq ?_ hb
    intro step hstep x x' hx
    obtain ⟨e, he, rfl⟩ := List.mem_map.1 hstep
    apply hf e.1 e.2 x x' _ hx
    rintro rfl
    exact hkey (List.mem_map.2 ⟨e, he, rfl⟩)
  constructor
  · intro hnone
    exact hpass (OrderedMap.get?_eq_none_iff.1 hnone) hs
  · intro a ha
    obtain ⟨before, after, he⟩ := List.append_of_mem (OrderedMap.mem_entries_iff.2 ha)
    have hnodup := m.nodup_keys
    rw [he, List.map_append, List.map_cons, List.nodup_append] at hnodup
    obtain ⟨-, hafter, hbefore⟩ := hnodup
    rw [he, List.map_append, List.map_cons] at hs
    obtain ⟨b, hb, hs⟩ := takeSteps_append_eq_ok hs
    obtain ⟨b', hstep, hs⟩ := takeSteps_cons_eq_ok hs
    refine ⟨b, b', hpass ?_ hb, hstep, hpass (List.nodup_cons.1 hafter).1 hs⟩
    intro hm
    exact hbefore key hm key List.mem_cons_self rfl

theorem frame_of_methodSteps (hs : c.takeSteps (methodSteps traits excluded) = (d, .ok ())) :
    d.name = c.name ∧ d.properties = c.properties := by
  rw [← Prod.mk.injEq]
  refine takeSteps_eq (g := fun b => (b.name, b.properties)) ?_ hs
  intro step hm b b' hb
  obtain ⟨e, -, rfl⟩ := List.mem_map.1 hm
  obtain ⟨-, rfl⟩ | ⟨-, _, _, _, -, -, -, rfl⟩ := of_composeMethod_eq_ok hb <;> rfl

theorem frame_of_propertySteps (hs : c.takeSteps (propertySteps h traits) = (d, .ok ())) :
    d.name = c.name ∧ d.methods = c.methods := by
  rw [← Prod.mk.injEq]
  refine takeSteps_eq (g := fun b => (b.name, b.methods)) ?_ hs
  intro step hm b b' hb
  obtain ⟨e, -, rfl⟩ := List.mem_map.1 hm
  obtain ⟨-, rfl⟩ | ⟨-, _, _, _, -, -, rfl⟩ := of_composeProperty_eq_ok hb <;> rfl

theorem frame_of_composeConstants (hs : c.takeSteps (traits.map composeConstants) = (d, .ok ())) :
    d.name = c.name ∧ d.methods = c.methods ∧ d.properties = c.properties := by
  rw [← Prod.mk.injEq, ← Prod.mk.injEq]
  refine takeSteps_eq (g := fun b => (b.name, b.methods, b.properties)) ?_ hs
  intro step hm b b' hb
  obtain ⟨t, -, rfl⟩ := List.mem_map.1 hm
  cases hb
  rfl

theorem frame_of_applyAlias {rule : TraitRule} (ha : applyAlias traits rule c = .ok d) :
    d.name = c.name ∧ d.properties = c.properties ∧
      ∀ key, rule.adaptedKey? ≠ some key → d.methods.get? key = c.methods.get? key := by
  obtain ⟨-, rfl⟩ | ⟨_, _, name, _, source, rfl, -, rfl⟩ | ⟨_, method, _, source, rfl, -, rfl⟩ :=
    of_applyAlias_eq_ok ha
  · exact ⟨rfl, rfl, fun _ _ => rfl⟩
  · rw [addAlias]
    split
    · exact ⟨rfl, rfl, fun _ _ => rfl⟩
    · refine ⟨rfl, rfl, fun key hkey => ?_⟩
      rw [OrderedMap.get?_insert, if_neg]
      rintro rfl
      exact hkey rfl
  · refine ⟨rfl, rfl, fun key hkey => ?_⟩
    rw [changeVisibility, OrderedMap.get?_modify, if_neg]
    rintro rfl
    exact hkey rfl

/-- What every rule preserves, in a class of one name, is preserved by all of them. -/
theorem applyAliases_induction {P : ClassDef → Prop} {rules : List TraitRule}
    (hrules : ∀ rule ∈ rules, ∀ b b', b.name = c.name → applyAlias traits rule b = .ok b' →
      P b → P b')
    (hc : P c) (hs : c.takeSteps (rules.map (applyAlias traits)) = (d, .ok ())) : P d := by
  have hinv : d.name = c.name ∧ P d := by
    refine takeSteps_induction (P := fun b => b.name = c.name ∧ P b) ?_ ⟨rfl, hc⟩ hs
    rintro step hm b b' hb ⟨hname, hP⟩
    obtain ⟨rule, hr, rfl⟩ := List.mem_map.1 hm
    exact ⟨(frame_of_applyAlias hb).1.trans hname, hrules rule hr b b' hname hb hP⟩
  exact hinv.2

theorem frame_of_applyAliases {rules : List TraitRule}
    (hs : c.takeSteps (rules.map (applyAlias traits)) = (d, .ok ())) :
    d.name = c.name ∧ d.properties = c.properties := by
  rw [← Prod.mk.injEq]
  refine takeSteps_eq (g := fun b => (b.name, b.properties)) ?_ hs
  intro step hm b b' hb
  obtain ⟨rule, -, rfl⟩ := List.mem_map.1 hm
  obtain ⟨hname, hprops, -⟩ := frame_of_applyAlias hb
  rw [hname, hprops]

/-- The rules of a class touch no key that none of them is about. -/
theorem get?_methods_of_applyAliases {rules : List TraitRule} {key : String}
    (hrules : ∀ rule ∈ rules, rule.adaptedKey? ≠ some key)
    (hs : c.takeSteps (rules.map (applyAlias traits)) = (d, .ok ())) :
    d.methods.get? key = c.methods.get? key := by
  refine takeSteps_eq (g := fun b => b.methods.get? key) ?_ hs
  intro step hm b b' hb
  obtain ⟨rule, hr, rfl⟩ := List.mem_map.1 hm
  exact (frame_of_applyAlias hb).2.2 key (hrules rule hr)

end ClassDef

end ObjectModel
