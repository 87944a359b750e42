import ObjectModel.Proofs.Class.Composing
import ObjectModel.Proofs.Class.Constants
/-!
# Constants of traits

Constants go into the table of a class one trait after another, and a name that is taken stays as it
is. So the first trait that has a constant of a name provides it (`traitConstant?`), and only for a
class that has none: not for one that declares it, nor for one that has it from its parent, unlike
methods and properties, which replace those of the parent.

`get?_constants_of_useTraits` is the whole of it for the table of a class; `useTraits_constants`
says what is then found for a class that has been linked to a parent.
-/

namespace ObjectModel

namespace ClassDef

variable {h : Heap} {traits : List ClassDef} {rules : List TraitRule} {rule : TraitRule}
  {b c d parent trait : ClassDef} {excluded : List (String × String)}

def traitConstant? (traits : List ClassDef) (name : String) : Option ConstantDef :=
  traits.findSome? (·.constants.get? name)

def adoptConstant (c : ClassDef) (k : ConstantDef) : ConstantDef :=
  { k with declaringClass := c.name }

theorem traitConstant?_cons (trait : ClassDef) (traits : List ClassDef) (name : String) :
    traitConstant? (trait :: traits) name =
      (trait.constants.get? name).or (traitConstant? traits name) := by
  rw [traitConstant?, List.findSome?_cons]
  cases trait.constants.get? name <;> rfl

/-- A name that a trait provides is provided by one of the traits. -/
theorem exists_of_traitConstant? {name : String} (ht : trait ∈ traits)
    (hk : (trait.constants.get? name).isSome = true) :
    ∃ s ∈ traits, ∃ k, s.constants.get? name = some k ∧ traitConstant? traits name = some k := by
  obtain ⟨k, hk⟩ : ∃ k, traitConstant? traits name = some k :=
    Option.isSome_iff_exists.1 (List.findSome?_isSome_iff.2 ⟨trait, ht, hk⟩)
  obtain ⟨s, hs, hsk⟩ := List.exists_of_findSome?_eq_some hk
  exact ⟨s, hs, k, hsk, hk⟩

theorem constants_of_methodSteps (hs : c.takeSteps (methodSteps traits excluded) = (d, .ok ())) :
    d.constants = c.constants := by
  refine takeSteps_eq (g := fun b => b.constants) ?_ hs
  intro step hm b b' hb
  obtain ⟨e, -, rfl⟩ := List.mem_map.1 hm
  obtain ⟨-, rfl⟩ | ⟨-, _, _, _, -, -, -, rfl⟩ := of_composeMethod_eq_ok hb <;> rfl

theorem constants_of_propertySteps (hs : c.takeSteps (propertySteps h traits) = (d, .ok ())) :
    d.constants = c.constants := by
  refine takeSteps_eq (g := fun b => b.constants) ?_ hs
  intro step hm b b' hb
  obtain ⟨e, -, rfl⟩ := List.mem_map.1 hm
  obtain ⟨-, rfl⟩ | ⟨-, _, _, _, -, -, rfl⟩ := of_composeProperty_eq_ok hb <;> rfl

theorem constants_of_applyAlias (ha : applyAlias traits rule c = .ok d) :
    d.constants = c.constants := by
  obtain ⟨-, rfl⟩ | ⟨_, _, name, _, source, -, -, rfl⟩ | ⟨_, method, _, source, -, -, rfl⟩ :=
    of_applyAlias_eq_ok ha
  · rfl
  · rw [addAlias]
    split <;> rfl
  · rfl

theorem constants_of_applyAliases
    (hs : c.takeSteps (rules.map (applyAlias traits)) = (d, .ok ())) :
    d.constants = c.constants := by
  refine takeSteps_eq (g := fun b => b.constants) ?_ hs
  intro step hm b b' hb
  obtain ⟨rule, -, rfl⟩ := List.mem_map.1 hm
  exact constants_of_applyAlias hb

/-- A trait fills the gaps in the table of a class. -/
theorem get?_constants_of_composeConstants (hs : composeConstants trait c = .ok d) (name : String) :
    d.constants.get? name =
      (c.constants.get? name).or ((trait.constants.get? name).map c.adoptConstant) := by
  cases hs
  refine (OrderedMap.get?_foldl_insertIfNew Prod.fst (fun e => c.adoptConstant e.2)
    trait.constants.entries c.constants name).trans ?_
  rw [← OrderedMap.map_snd_find?_entries trait.constants, Option.map_map]
  rfl

/-- Of several traits, the first that has a constant provides it. -/
theorem get?_constants_of_takeSteps (hs : c.takeSteps (traits.map composeConstants) = (d, .ok ()))
    (name : String) :
    d.constants.get? name =
      (c.constants.get? name).or ((traitConstant? traits name).map c.adoptConstant) := by
  induction traits generalizing c with
  | nil =>
    cases hs
    exact Option.or_none.symm
  | cons trait traits ih =>
    obtain ⟨b, hb, hs⟩ := takeSteps_cons_eq_ok hs
    -- Later traits give their constants to a class of the same name.
    have hname : b.adoptConstant = c.adoptConstant := by
      cases hb
      rfl
    rw [ih hs, hname, get?_constants_of_composeConstants hb, Option.or_assoc, ← Option.map_or,
      traitConstant?_cons]

/-- What a class has in its table of constants once its traits are composed. -/
theorem get?_constants_of_useTraits (hu : c.useTraits h traits = .ok d) (name : String) :
    d.constants.get? name =
      (c.constants.get? name).or ((traitConstant? traits name).map c.adoptConstant) := by
  obtain ⟨excluded, c₁, c₂, c₃, -, h₁, h₂, h₃, h₄⟩ := exists_stages_of_useTraits hu
  have hname : c₂.adoptConstant = c.adoptConstant := by
    unfold adoptConstant
    rw [(frame_of_propertySteps h₂).1, (frame_of_methodSteps h₁).1]
  rw [constants_of_applyAliases h₄, get?_constants_of_takeSteps h₃, hname,
    constants_of_propertySteps h₂, constants_of_methodSteps h₁]

/-- A class that is linked to a parent and then uses traits finds the constant of a trait under a
name that the traits provide, as its own, unless it has one already; and what it has it keeps, be it
declared or handed down by the parent. -/
theorem useTraits_constants (hi : c.inherit parent = .ok b) (hu : b.useTraits h traits = .ok d)
    {name : String} (ht : trait ∈ traits) (hk : (trait.constants.get? name).isSome = true) :
    (c.constants.get? name = none →
      (∀ k, parent.constants.get? name = some k → k.visibility = .isPrivate) →
      ∃ s ∈ traits, ∃ k, s.constants.get? name = some k ∧
        d.findConstant? name = some { k with declaringClass := c.name }) ∧
    (∀ own, c.constants.get? name = some own → d.findConstant? name = some own) ∧
    ∀ inherited, c.constants.get? name = none → parent.constants.get? name = some inherited →
      inherited.visibility ≠ .isPrivate → d.findConstant? name = some inherited := by
  obtain ⟨⟨⟩, -, hb⟩ := exists_of_bind_eq_ok hi
  cases hb
  have hd := get?_constants_of_useTraits hu name
  rw [get?_constants_withParent] at hd
  refine ⟨fun hnone hprivate => ?_, fun own hown => ?_, fun inherited hnone hp hv => ?_⟩
  · obtain ⟨s, hs, k, hsk, hfirst⟩ := exists_of_traitConstant? ht hk
    have hparent : (parent.constants.get? name).filter ConstantDef.isInheritable = none := by
      refine Option.filter_eq_none_iff.2 fun k hk => ?_
      rw [ConstantDef.isInheritable, hprivate k hk]
      decide
    rw [hnone, hparent, hfirst] at hd
    exact ⟨s, hs, k, hsk, findConstant?_of_get? hd⟩
  · rw [hown] at hd
    exact findConstant?_of_get? hd
  · rw [hnone, hp, Option.filter_some, ConstantDef.isInheritable, if_pos (decide_eq_true hv)] at hd
    exact findConstant?_of_get? hd

def sized (size : Int64) : ClassDef :=
  ({ name := "Sized", kind := .trait } : ClassDef)
    |>.addConstant { name := "SIZE", value := .int size }

/-- The size of a trait is that of the class, whose parent keeps its own size to itself. -/
theorem useTraits_constants_of_sized :
    ∃ b d, ({ name := "C" } : ClassDef).inherit (({ name := "P" } : ClassDef)
        |>.addConstant { name := "SIZE", value := .int 1, visibility := .isPrivate }) = .ok b ∧
      b.useTraits {} [sized 2] = .ok d ∧
      ∃ s ∈ [sized 2], ∃ k, s.constants.get? "SIZE" = some k ∧
        d.findConstant? "SIZE" = some { k with declaringClass := "C" } := by
  obtain ⟨b, hb⟩ : ∃ b, ({ name := "C" } : ClassDef).inherit (({ name := "P" } : ClassDef)
      |>.addConstant { name := "SIZE", value := .int 1, visibility := .isPrivate }) = .ok b :=
    ⟨_, rfl⟩
  obtain ⟨d, hd⟩ : ∃ d, b.useTraits {} [sized 2] = .ok d := by
    cases hb
    exact ⟨_, rfl⟩
  refine ⟨b, d, hb, hd, (useTraits_constants hb hd (List.mem_singleton.2 rfl) rfl).1 rfl ?_⟩
  intro k hk
  cases hk
  rfl

/-- The parent's size stays, and the size of the trait is lost. -/
theorem exists_trait_constant_dropped :
    ∃ (c parent b : ClassDef) (traits : List ClassDef) (d : ClassDef) (k : ConstantDef),
      c.inherit parent = .ok b ∧ b.useTraits {} traits = .ok d ∧
      (∃ t ∈ traits, (t.constants.get? "SIZE").isSome = true) ∧ c.constants.get? "SIZE" = none ∧
      d.findConstant? "SIZE" = some k ∧ k.declaringClass ≠ c.name ∧
      ∀ t ∈ traits, ∀ l, t.constants.get? "SIZE" = some l → k.value ≠ l.value := by
  refine ⟨{ name := "C" },
    ({ name := "P" } : ClassDef).addConstant { name := "SIZE", value := .int 1 }, _, [sized 2], _,
    { name := "SIZE", value := .int 1, declaringClass := "P" }, rfl, rfl,
    ⟨sized 2, List.mem_singleton.2 rfl, rfl⟩, rfl, rfl, by decide, ?_⟩
  intro t ht l hl
  cases List.mem_singleton.1 ht
  cases hl
  show Val.int 1 ≠ Val.int 2
  rw [ne_eq, Val.int.injEq]
  decide

end ClassDef

end ObjectModel
