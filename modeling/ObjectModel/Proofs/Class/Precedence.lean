import ObjectModel.Proofs.Class.Composing
/-!
# Which member a class takes

What a class declares goes before what its traits provide, and that goes before what it inherits.
Among the methods that traits provide under one name, those with code go before abstract ones; there
must be one code only, and of the properties of one name only one kind. `ComposesMethod` and
`ComposesProperty` say so for a single name, whatever else the traits have.

A step for one key is not seen at another, so what is to be shown is what one step does; that a
sequence of steps can fail with a collision in one way only is `exists_of_useTraits_eq_error`.
-/

namespace ObjectModel

namespace TypeHint

mutual

theorem eq_of_same : ∀ a b : TypeHint, same a b = true → a = b
  | .int, b, h | .float, b, h | .string, b, h | .bool, b, h | .array, b, h | .object, b, h
  | .iterable, b, h | .mixed, b, h | .null, b, h => by
    cases b <;> first | rfl | cases h
  | .cls a, b, h => by
    cases b with
    | cls b => rw [beq_iff_eq.1 h]
    | _ => cases h
  | .nullable a, b, h => by
    cases b with
    | nullable b => rw [eq_of_same a b h]
    | _ => cases h
  | .union as, b, h => by
    cases b with
    | union bs => rw [eq_of_sameAll as bs h]
    | _ => cases h

theorem eq_of_sameAll : ∀ as bs : List TypeHint, sameAll as bs = true → as = bs
  | [], bs, h => by
    cases bs with
    | nil => rfl
    | cons => cases h
  | a :: as, bs, h => by
    cases bs with
    | nil => cases h
    | cons b bs =>
      rw [sameAll, Bool.and_eq_true] at h
      rw [eq_of_same a b h.1, eq_of_sameAll as bs h.2]

end

mutual

theorem same_self : ∀ a : TypeHint, same a a = true
  | .int | .float | .string | .bool | .array | .object | .iterable | .mixed | .null => rfl
  | .cls a => beq_self_eq_true a
  | .nullable a => same_self a
  | .union as => sameAll_self as

theorem sameAll_self : ∀ as : List TypeHint, sameAll as as = true
  | [] => rfl
  | a :: as => by rw [sameAll, same_self a, sameAll_self as, Bool.and_self]

end

instance : LawfulBEq TypeHint where
  eq_of_beq := eq_of_same _ _
  rfl := same_self _

end TypeHint

/-- Values that are related to one value are pairwise related to each other and to it. -/
theorem pairwise_cons_of_forall {α : Type} {R : α → α → Prop} {a : α} {l : List α}
    (hR : ∀ b d, R a b → R a d → R b d) (h : ∀ b ∈ l, R a b) : (a :: l).Pairwise R := by
  refine List.pairwise_cons.2 ⟨h, ?_⟩
  exact List.pairwise_of_forall_mem_list fun b hb d hd => hR b d (h b hb) (h d hd)

/-- What is identical to one value is identical to each other. -/
theorem Val.identical_of_identical {v w x : Val} (hw : v.identical w = true)
    (hx : v.identical x = true) : w.identical x = true := by
  cases v with
  | float a =>
    cases w with
    | float b =>
      cases x with
      | float d =>
        obtain ⟨ha, hb, hab⟩ := Double.numEq_iff.1 hw
        obtain ⟨-, hd, had⟩ := Double.numEq_iff.1 hx
        exact Double.numEq_iff.2 ⟨hb, hd, hab.symm.trans had⟩
      | _ => cases hx
    | _ => cases hw
  | str s =>
    cases w with
    | str t =>
      cases x with
      | str u => exact beq_iff_eq.2 ((beq_iff_eq.1 hw).symm.trans (beq_iff_eq.1 hx))
      | _ => cases hx
    | _ => cases hw
  | _ =>
    obtain rfl := beq_iff_eq.1 hw
    exact hx

namespace MethodDef

theorem sharesBody_of_sharesBody {m n o : MethodDef} (hn : m.sharesBody n = true)
    (ho : m.sharesBody o = true) : n.sharesBody o = true := by
  rw [sharesBody_iff] at hn ho ⊢
  obtain ⟨i, hm, hn⟩ := hn
  obtain ⟨j, hm', ho⟩ := ho
  cases hm.symm.trans hm'
  exact ⟨i, hn, ho⟩

end MethodDef

namespace ClassDef

theorem compatibleProperties_of_compatibleProperties {h : Heap} {p q r : PropertyDef}
    (hq : compatibleProperties h p q = true) (hr : compatibleProperties h p r = true) :
    compatibleProperties h q r = true := by
  simp only [compatibleProperties, Bool.and_eq_true, decide_eq_true_eq, beq_iff_eq] at *
  obtain ⟨⟨⟨⟨hv, hs⟩, hro⟩, ht⟩, hd⟩ := hq
  obtain ⟨⟨⟨⟨hv', hs'⟩, hro'⟩, ht'⟩, hd'⟩ := hr
  exact ⟨⟨⟨⟨hv.symm.trans hv', hs.symm.trans hs'⟩, hro.symm.trans hro'⟩, ht.symm.trans ht'⟩,
    Val.identical_of_identical hd hd'⟩

/-- What a class comes to have under the key of a method name when traits are composed. -/
structure ComposesMethod (c : ClassDef) (traits : List ClassDef) (d : ClassDef) (name : String) :
    Prop where
  /-- What the class has itself stays. -/
  own : (c.ownMethod? name).isSome →
    d.methods.get? (Name.foldCase name) = c.methods.get? (Name.foldCase name)
  /-- The methods that traits provide with code share it, and the first is taken. -/
  concrete : c.ownMethod? name = none → ∀ m ms,
    (c.providedMethods traits (Name.foldCase name)).filter (!·.isAbstract) = m :: ms →
    (m :: ms).Pairwise (fun n o => n.sharesBody o = true) ∧
      d.methods.get? (Name.foldCase name) = some { m with declaringClass := c.name }
  /-- If all that traits provide is abstract, the first is taken. -/
  abstract : c.ownMethod? name = none → ∀ m ms,
    (c.providedMethods traits (Name.foldCase name)).filter (!·.isAbstract) = [] →
    c.providedMethods traits (Name.foldCase name) = m :: ms →
    d.methods.get? (Name.foldCase name) = some { m with declaringClass := c.name }
  /-- Where traits provide nothing, what is inherited stays. -/
  inherited : c.ownMethod? name = none → c.providedMethods traits (Name.foldCase name) = [] →
    d.methods.get? (Name.foldCase name) = c.methods.get? (Name.foldCase name)

/-- What a class comes to have under the name of a property when traits are composed. -/
structure ComposesProperty (h : Heap) (c : ClassDef) (traits : List ClassDef) (d : ClassDef)
    (name : String) : Prop where
  own : (c.ownProperty? name).isSome → d.properties.get? name = c.properties.get? name
  /-- Traits provide the property alike, and the first is taken. -/
  provided : c.ownProperty? name = none → ∀ p ps, providedProperties traits name = p :: ps →
    (p :: ps).Pairwise (fun q r => compatibleProperties h q r = true) ∧
      d.properties.get? name = some { p with declaringClass := c.name }
  inherited : c.ownProperty? name = none → providedProperties traits name = [] →
    d.properties.get? name = c.properties.get? name

/-- The methods that count among several: if one of them has code, those without do not. -/
def counting (ms : List MethodDef) : List MethodDef :=
  if (ms.filter (!·.isAbstract)).isEmpty then ms else ms.filter (!·.isAbstract)

theorem counting_eq_nil {ms : List MethodDef} (h : counting ms = []) : ms = [] := by
  rw [counting] at h
  split at h
  · exact h
  next hne => exact absurd (List.isEmpty_iff.2 h) hne

theorem map_snd_effectiveProviders (ps : List (ClassDef × MethodDef)) :
    (effectiveProviders ps).map Prod.snd = counting (ps.map Prod.snd) := by
  rw [effectiveProviders, counting, List.filter_map, List.isEmpty_map,
    ← apply_ite (List.map Prod.snd)]
  rfl

section Steps

variable {h : Heap} {c d : ClassDef} {traits : List ClassDef} {excluded : List (String × String)}
  {name : String} {m : MethodDef} {ms : List MethodDef}

theorem ComposesMethod.keep
    (hkeep : (c.ownMethod? name).isSome ∨ c.providedMethods traits (Name.foldCase name) = [])
    (hd : d.methods.get? (Name.foldCase name) = c.methods.get? (Name.foldCase name)) :
    ComposesMethod c traits d name := by
  refine ⟨fun _ => hd, fun hown m ms hc => ?_, fun hown m ms _ hp => ?_, fun _ _ => hd⟩ <;>
    rw [hown] at hkeep <;> have hnil := hkeep.resolve_left Bool.false_ne_true
  · rw [hnil] at hc
    cases hc
  · cases hnil.symm.trans hp

theorem ComposesMethod.take (hown : c.ownMethod? name = none)
    (hc : counting (c.providedMethods traits (Name.foldCase name)) = m :: ms)
    (hbody : m.isAbstract = false → ∀ n ∈ ms, m.sharesBody n = true)
    (hd : d.methods.get? (Name.foldCase name) = some { m with declaringClass := c.name }) :
    ComposesMethod c traits d name := by
  rw [counting] at hc
  constructor
  · intro hsome
    rw [hown] at hsome
    cases hsome
  · intro _ m' ms' hconcrete
    rw [hconcrete, List.isEmpty_cons, if_neg Bool.false_ne_true] at hc
    cases hc
    have hm : m ∈ m :: ms := List.mem_cons_self
    rw [← hconcrete, List.mem_filter, Bool.not_eq_true'] at hm
    refine ⟨pairwise_cons_of_forall ?_ (hbody hm.2), hd⟩
    intro n o
    exact MethodDef.sharesBody_of_sharesBody
  · intro _ m' ms' hconcrete hprovided
    rw [hconcrete, hprovided] at hc
    cases hc
    exact hd
  · intro _ hnil
    rw [hnil] at hc
    cases hc

theorem composesMethod_of_takeSteps (hx : c.exclusions traits = .ok excluded)
    (hs : c.takeSteps (methodSteps traits excluded) = (d, .ok ())) (name : String) :
    ComposesMethod c traits d name := by
  have hother : ∀ k ps b b', k ≠ Name.foldCase name → composeMethod k ps b = .ok b' →
      (b'.name, b'.methods.get? (Name.foldCase name)) =
        (b.name, b.methods.get? (Name.foldCase name)) := by
    intro k ps b b' hk hb
    obtain ⟨-, rfl⟩ | ⟨-, first, m, others, -, -, -, rfl⟩ := of_composeMethod_eq_ok hb
    · rfl
    · rw [OrderedMap.get?_insert, if_neg (Ne.symm hk)]
  obtain ⟨hnone, hsome⟩ := takeSteps_entries hother hs
  have hprovided := map_snd_methodProviders hx (Name.foldCase name)
  cases hps : (methodProviders traits excluded).get? (Name.foldCase name) with
  | none =>
    rw [hps] at hprovided
    exact .keep (.inr hprovided.symm) (Prod.mk.inj (hnone hps)).2
  | some ps =>
    obtain ⟨b, b', hb, hstep, hd⟩ := hsome ps hps
    obtain ⟨hname, hbm⟩ := Prod.mk.inj hb
    obtain ⟨-, hd⟩ := Prod.mk.inj hd
    have hown : b.ownMethod? (Name.foldCase name) = c.ownMethod? name := by
      rw [ownMethod?, ownMethod?, Name.foldCase_foldCase, hbm, hname]
    rw [hps, Option.getD_some] at hprovided
    have hcount := map_snd_effectiveProviders ps
    rw [hprovided] at hcount
    obtain ⟨hkeep, rfl⟩ | ⟨hnew, first, m, others, heff, hbody, -, rfl⟩ :=
      of_composeMethod_eq_ok hstep
    · refine .keep (hkeep.imp (hown ▸ ·) fun heff => ?_) (hd.trans hbm)
      rw [heff] at hcount
      exact counting_eq_nil hcount.symm
    · rw [heff, List.map_cons] at hcount
      apply ComposesMethod.take (hown ▸ hnew) hcount.symm
      · intro ha n hn
        obtain ⟨e, he, rfl⟩ := List.mem_map.1 hn
        exact hbody ha e he
      · rw [hd, OrderedMap.get?_insert, if_pos rfl, hname]

theorem ComposesMethod.of_eq {b : ClassDef} (hb : ComposesMethod c traits b name)
    (hd : d.methods.get? (Name.foldCase name) = b.methods.get? (Name.foldCase name)) :
    ComposesMethod c traits d name where
  own hown := hd.trans (hb.own hown)
  concrete hown m ms hc := (hb.concrete hown m ms hc).imp_right hd.trans
  abstract hown m ms hc hp := hd.trans (hb.abstract hown m ms hc hp)
  inherited hown hp := hd.trans (hb.inherited hown hp)

theorem ComposesProperty.keep
    (hkeep : (c.ownProperty? name).isSome ∨ providedProperties traits name = [])
    (hd : d.properties.get? name = c.properties.get? name) : ComposesProperty h c traits d name := by
  refine ⟨fun _ => hd, fun hown p ps hp => ?_, fun _ _ => hd⟩
  rw [hown] at hkeep
  cases (hkeep.resolve_left Bool.false_ne_true).symm.trans hp

theorem ComposesProperty.take {p : PropertyDef} {ps : List PropertyDef}
    (hown : c.ownProperty? name = none) (hp : providedProperties traits name = p :: ps)
    (halike : ∀ q ∈ ps, compatibleProperties h p q = true)
    (hd : d.properties.get? name = some { p with declaringClass := c.name }) :
    ComposesProperty h c traits d name := by
  constructor
  · intro hsome
    rw [hown] at hsome
    cases hsome
  · intro _ p' ps' hp'
    cases hp.symm.trans hp'
    refine ⟨pairwise_cons_of_forall ?_ halike, hd⟩
    intro q r
    exact compatibleProperties_of_compatibleProperties
  · intro _ hnil
    cases hnil.symm.trans hp

theorem ComposesProperty.of_eq {b : ClassDef} (hb : ComposesProperty h c traits b name)
    (hd : d.properties.get? name = b.properties.get? name) : ComposesProperty h c traits d name where
  own hown := hd.trans (hb.own hown)
  provided hown p ps hp := (hb.provided hown p ps hp).imp_right hd.trans
  inherited hown hp := hd.trans (hb.inherited hown hp)

/-- The properties are composed after the methods, in a class that has still its own properties. -/
theorem composesProperty_of_takeSteps {b : ClassDef}
    (hb : b.name = c.name ∧ b.properties = c.properties)
    (hs : b.takeSteps (propertySteps h traits) = (d, .ok ())) (name : String) :
    ComposesProperty h c traits d name := by
  have hother : ∀ k ps b b', k ≠ name → composeProperty h k ps b = .ok b' →
      (b'.name, b'.properties.get? name) = (b.name, b.properties.get? name) := by
    intro k ps b b' hk hb
    obtain ⟨-, rfl⟩ | ⟨-, first, p, others, -, -, rfl⟩ := of_composeProperty_eq_ok hb
    · rfl
    · rw [OrderedMap.get?_insert, if_neg (Ne.symm hk)]
  obtain ⟨hnone, hsome⟩ := takeSteps_entries hother hs
  have hprovided : (((propertyProviders traits).get? name).getD []).map Prod.snd =
      providedProperties traits name := map_snd_propertyProviders name
  cases hps : (propertyProviders traits).get? name with
  | none =>
    rw [hps] at hprovided
    refine .keep (.inr hprovided.symm) ?_
    rw [(Prod.mk.inj (hnone hps)).2, hb.2]
  | some ps =>
    obtain ⟨x, x', hx, hstep, hd⟩ := hsome ps hps
    obtain ⟨hname, hxp⟩ := Prod.mk.inj hx
    obtain ⟨-, hd⟩ := Prod.mk.inj hd
    rw [hb.1] at hname
    rw [hb.2] at hxp
    have hown : x.ownProperty? name = c.ownProperty? name := by
      rw [ownProperty?, ownProperty?, hxp, hname]
    rw [hps, Option.getD_some] at hprovided
    obtain ⟨hkeep, rfl⟩ | ⟨hnew, first, p, others, rfl, halike, rfl⟩ :=
      of_composeProperty_eq_ok hstep
    · refine .keep (hkeep.imp (hown ▸ ·) fun hnil => ?_) (hd.trans hxp)
      rw [← hprovided, hnil, List.map_nil]
    · rw [List.map_cons] at hprovided
      apply ComposesProperty.take (hown ▸ hnew) hprovided.symm
      · intro q hq
        obtain ⟨e, he, rfl⟩ := List.mem_map.1 hq
        exact halike e he
      · rw [hd, OrderedMap.get?_insert, if_pos rfl, hname]

end Steps

end ClassDef

def Error.isMethodConflict : Error → Bool
  | traitMethodConflict .. => true
  | _ => false

theorem MethodDef.isMethodConflict_of_checkOverride {cls : String} {m n : MethodDef} {e : Error}
    (h : m.checkOverride cls n = .error e) : e.isMethodConflict = false := by
  rw [checkOverride] at h
  repeat' split at h
  all_goals
    cases h
    try rfl

namespace ClassDef

variable {h : Heap} {c d : ClassDef} {traits : List ClassDef} {excluded : List (String × String)}
  {e : Error}

theorem isMethodConflict_of_usedTrait {name : String} (hu : c.usedTrait traits name = .error e) :
    e.isMethodConflict = false := by
  rw [usedTrait] at hu
  split at hu
  · cases hu
  · cases hu
    rfl

theorem isMethodConflict_of_excludedBy {rule : TraitRule}
    (hr : c.excludedBy traits rule = .error e) : e.isMethodConflict = false := by
  cases rule with
  | «alias» => cases hr
  | precedence trait method insteadOf =>
    obtain hu | ⟨winner, -, hr⟩ := eq_error_of_bind_eq_error hr
    · exact isMethodConflict_of_usedTrait hu
    split at hr
    · cases hr
      rfl
    obtain ⟨name, -, hr⟩ := exists_of_mapM_eq_error hr
    obtain hu | ⟨loser, -, hr⟩ := eq_error_of_bind_eq_error hr
    · exact isMethodConflict_of_usedTrait hu
    split at hr
    · cases hr
      rfl
    · cases hr

theorem isMethodConflict_of_checkTraits (hx : c.checkTraits traits = .error e) :
    e.isMethodConflict = false := by
  rw [checkTraits] at hx
  split at hx
  · cases hx
    rfl
  · obtain hx | ⟨_, -, hx⟩ := eq_error_of_bind_eq_error hx
    · obtain ⟨rule, -, hr⟩ := exists_of_mapM_eq_error hx
      exact isMethodConflict_of_excludedBy hr
    · cases hx

theorem isMethodConflict_of_composeProperty {name : String} {ps : List (ClassDef × PropertyDef)}
    (hc : composeProperty h name ps c = .error e) : e.isMethodConflict = false := by
  rw [composeProperty.eq_def] at hc
  split at hc
  · cases hc
  split at hc
  · cases hc
  split at hc
  · cases hc
    rfl
  · cases hc

theorem isMethodConflict_of_aliasSource {trait? : Option String} {method : String}
    (ha : c.aliasSource traits trait? method = .error e) : e.isMethodConflict = false := by
  cases trait? with
  | none =>
    simp only [aliasSource, pure_bind] at ha
    split at ha <;> cases ha <;> rfl
  | some name =>
    obtain hu | ⟨t, -, ha⟩ := eq_error_of_bind_eq_error ha
    · exact isMethodConflict_of_usedTrait hu
    · simp only [pure_bind] at ha
      split at ha <;> cases ha <;> rfl

theorem isMethodConflict_of_applyAlias {rule : TraitRule}
    (ha : applyAlias traits rule c = .error e) : e.isMethodConflict = false := by
  cases rule with
  | precedence => cases ha
  | «alias» trait? method alias? visibility? =>
    obtain hs | ⟨source, -, ha⟩ := eq_error_of_bind_eq_error ha
    · exact isMethodConflict_of_aliasSource hs
    · cases alias? <;> cases visibility? <;> cases ha

/-- Composing a method fails with a collision if two methods with code do not share it. -/
theorem exists_of_composeMethod_eq_error {key : String} {ps : List (ClassDef × MethodDef)}
    (hc : composeMethod key ps c = .error e) (he : e.isMethodConflict = true) :
    c.ownMethod? key = none ∧ ∃ m n,
      [m, n].Sublist ((ps.map Prod.snd).filter (!·.isAbstract)) ∧ m.sharesBody n = false := by
  rw [composeMethod] at hc
  split at hc
  · cases hc
  next hown =>
  split at hc
  · cases hc
  next first m others heff =>
  split at hc
  next second n hfind =>
    have hn := List.find?_some hfind
    simp only [Bool.and_eq_true, Bool.not_eq_true'] at hn
    refine ⟨by simpa using hown, m, n, ?_, hn.1⟩
    -- the first method that counts has code, so that those without do not count
    have hcount := map_snd_effectiveProviders ps
    rw [heff, List.map_cons, counting] at hcount
    split at hcount
    next hnil =>
      have hm : m ∈ (ps.map Prod.snd).filter (!·.isAbstract) := by
        rw [List.mem_filter, ← hcount, hn.2]
        exact ⟨List.mem_cons_self, rfl⟩
      rw [List.isEmpty_iff.1 hnil] at hm
      cases hm
    next =>
      rw [← hcount, List.cons_sublist_cons, List.singleton_sublist]
      exact List.mem_map.2 ⟨_, List.mem_of_find?_eq_some hfind, rfl⟩
  next =>
    cases hn : c.parent?.bind (·.findMethod? key) with
    | none =>
      simp only [hn] at hc
      cases hc
    | some n =>
      simp only [hn] at hc
      obtain hcheck | ⟨_, -, hc⟩ := eq_error_of_bind_eq_error hc
      · rw [MethodDef.isMethodConflict_of_checkOverride hcheck] at he
        cases he
      · cases hc

/-- Composition does not take away what the class has itself. -/
theorem ownMethod?_of_methodSteps {key : String} {steps : List Step}
    (hsteps : steps ⊆ methodSteps traits excluded)
    (hs : c.takeSteps steps = (d, .ok ())) (hd : d.ownMethod? key = none) :
    c.ownMethod? key = none := by
  by_contra hc
  rw [← ne_eq, Option.ne_none_iff_isSome] at hc
  have hsome : (d.ownMethod? key).isSome := by
    refine takeSteps_induction (P := fun b => (b.ownMethod? key).isSome) ?_ hc hs
    intro step hm b b' hb hown
    obtain ⟨e, -, rfl⟩ := List.mem_map.1 (hsteps hm)
    obtain ⟨-, rfl⟩ | ⟨-, first, m, others, -, -, -, rfl⟩ := of_composeMethod_eq_ok hb
    · exact hown
    · rw [ownMethod?, OrderedMap.get?_insert]
      split
      · simp
      · exact hown
  rw [hd] at hsome
  cases hsome

/-- After the methods nothing collides. -/
theorem isMethodConflict_of_takeSteps {rules : List TraitRule}
    (hs : c.takeSteps (propertySteps h traits ++
      (traits.map composeConstants ++ rules.map (applyAlias traits))) = (d, .error e)) :
    e.isMethodConflict = false := by
  obtain ⟨-, -, -, step, hm, hstep⟩ := exists_of_takeSteps_eq_error hs
  obtain hm | hm := List.mem_append.1 hm
  · obtain ⟨_, -, rfl⟩ := List.mem_map.1 hm
    exact isMethodConflict_of_composeProperty hstep
  obtain hm | hm := List.mem_append.1 hm
  · obtain ⟨t, -, rfl⟩ := List.mem_map.1 hm
    cases hstep
  · obtain ⟨rule, -, rfl⟩ := List.mem_map.1 hm
    exact isMethodConflict_of_applyAlias hstep

/-- A composition that fails with a collision met a name that the class does not have itself and
that two traits provide with different code. -/
theorem exists_of_useTraits_eq_error (hu : c.useTraits h traits = .error e)
    (he : e.isMethodConflict = true) :
    ∃ key, c.ownMethod? key = none ∧ ∃ m n,
      [m, n].Sublist ((c.providedMethods traits key).filter (!·.isAbstract)) ∧
        m.sharesBody n = false := by
  obtain hx | ⟨excluded, d, hx, hs⟩ := of_useTraits_eq_error hu
  · rw [isMethodConflict_of_checkTraits hx] at he
    cases he
  rw [compositionSteps_eq] at hs
  obtain hs | ⟨b, -, hs⟩ := takeSteps_append_eq_error hs
  · obtain ⟨before, hsub, hb, step, hm, hstep⟩ := exists_of_takeSteps_eq_error hs
    obtain ⟨⟨key, ps⟩, hentry, rfl⟩ := List.mem_map.1 hm
    obtain ⟨hown, m, n, hmn, hbody⟩ := exists_of_composeMethod_eq_error hstep he
    refine ⟨key, ownMethod?_of_methodSteps hsub hb hown, m, n, ?_, hbody⟩
    rwa [← map_snd_methodProviders hx, OrderedMap.mem_entries_iff.1 hentry]
  · rw [isMethodConflict_of_takeSteps hs] at he
    cases he

/-- The rules are applied last, to a class that has its members by precedence. -/
theorem exists_composed_of_useTraits (hu : c.useTraits h traits = .ok d) :
    ∃ b, b.name = c.name ∧ (∀ name, ComposesMethod c traits b name) ∧
      (∀ name, ComposesProperty h c traits b name) ∧
      b.takeSteps (c.traitRules.map (applyAlias traits)) = (d, .ok ()) := by
  obtain ⟨excluded, c₁, c₂, c₃, hx, h₁, h₂, h₃, h₄⟩ := exists_stages_of_useTraits hu
  have hframe₁ := frame_of_methodSteps h₁
  obtain ⟨hname₂, hmethods₂⟩ := frame_of_propertySteps h₂
  obtain ⟨hname₃, hmethods₃, hprops₃⟩ := frame_of_composeConstants h₃
  refine ⟨c₃, hname₃.trans (hname₂.trans hframe₁.1), fun name => ?_, fun name => ?_, h₄⟩
  · apply (composesMethod_of_takeSteps hx h₁ name).of_eq
    rw [hmethods₃, hmethods₂]
  · apply (composesProperty_of_takeSteps hframe₁ h₂ name).of_eq
    rw [hprops₃]

/-- Composing traits picks the members of a class by precedence, wherever no rule adapts a method;
and if it fails since methods collide, two traits provide different code for a name that the class
does not have itself. -/
theorem useTraits_precedence (h : Heap) (c : ClassDef) (traits : List ClassDef) :
    (∀ d, c.useTraits h traits = .ok d →
      (∀ name, ¬ c.Adapts (Name.foldCase name) → ComposesMethod c traits d name) ∧
        ∀ name, ComposesProperty h c traits d name) ∧
    ∀ cls method first second,
      c.useTraits h traits = .error (.traitMethodConflict cls method first second) →
      ∃ key, c.ownMethod? key = none ∧ ∃ m n,
        [m, n].Sublist ((c.providedMethods traits key).filter (!·.isAbstract)) ∧
          m.sharesBody n = false := by
  constructor
  · intro d hu
    obtain ⟨b, -, hmethods, hprops, hrules⟩ := exists_composed_of_useTraits hu
    refine ⟨fun name hadapts => (hmethods name).of_eq ?_, fun name => (hprops name).of_eq ?_⟩
    · apply get?_methods_of_applyAliases _ hrules
      intro rule hrule hkey
      exact hadapts ⟨rule, hrule, hkey⟩
    · rw [(frame_of_applyAliases hrules).2]
  · intro cls method first second hu
    exact exists_of_useTraits_eq_error hu rfl

def greeter (name : String) (body : Nat) : ClassDef :=
  ({ name, kind := .trait } : ClassDef)
    |>.addMethod { name := "hello", body? := some ⟨body, name⟩ }
    |>.addProperty { name := "count", default := .int 0 }

/-- Of two traits one greets because a rule says so, and both count alike. Without the rule they
collide. -/
theorem useTraits_precedence_of_two_greeters :
    (∃ d, ({ name := "C", traitRules := [.precedence "A" "Hello" ["b"]] } : ClassDef).useTraits {}
        [greeter "A" 1, greeter "B" 2] = .ok d ∧
      d.methods.get? "hello" =
        some { name := "hello", body? := some ⟨1, "A"⟩, declaringClass := "C" } ∧
      d.properties.get? "count" =
        some { name := "count", default := .int 0, declaringClass := "C" }) ∧
    ∃ key m n, ({ name := "C" } : ClassDef).ownMethod? key = none ∧
      [m, n].Sublist ((providedMethods { name := "C" } [greeter "A" 1, greeter "B" 2] key).filter
        (!·.isAbstract)) ∧ m.sharesBody n = false := by
  constructor
  · obtain ⟨d, hd⟩ : ∃ d, ({ name := "C", traitRules := [.precedence "A" "Hello" ["b"]] } :
        ClassDef).useTraits {} [greeter "A" 1, greeter "B" 2] = .ok d := ⟨_, rfl⟩
    obtain ⟨hmethod, hproperty⟩ := (useTraits_precedence {} _ _).1 d hd
    have hadapts : ¬ ClassDef.Adapts { name := "C", traitRules := [.precedence "A" "Hello" ["b"]] }
        (Name.foldCase "hello") := by
      rintro ⟨rule, hr, hk⟩
      cases List.mem_singleton.1 hr
      cases hk
    have hhello := (hmethod "hello" hadapts).concrete (by decide)
      { name := "hello", body? := some ⟨1, "A"⟩, declaringClass := "A" } [] (by decide)
    have hcount := (hproperty "count").provided rfl
      { name := "count", default := .int 0, declaringClass := "A" }
      [{ name := "count", default := .int 0, declaringClass := "B" }] rfl
    exact ⟨d, hd, hhello.2, hcount.2⟩
  · obtain ⟨key, hown, m, n, hmn, hbody⟩ :=
      (useTraits_precedence {} { name := "C" } [greeter "A" 1, greeter "B" 2]).2 "C" "hello" "A" "B"
        rfl
    exact ⟨key, m, n, hown, hmn, hbody⟩

end ClassDef

end ObjectModel
