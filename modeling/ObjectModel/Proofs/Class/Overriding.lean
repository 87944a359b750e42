import ObjectModel.Class.Access
import ObjectModel.Proofs.Class.Reachable
/-!
# Overridden methods

A method that a class declares or takes from a trait is checked against the one in the table of its
parent, and what is not overridden is copied there; so by induction along the chain of parents the
entry of a class overrides the methods of all its ancestors, `MethodDef.Overrides`. Two gaps remain.
The rules of a class that add a method under another name, or change the visibility of one, are
applied without a check. And constructors and destructors are not copied, so that a class which
declares one is checked against its parent's own and no other. `ClassDef.SkipsCheck` names these
gaps, and `overrides_of_ownMethod?` says that there are no others: every override is sound if those
in the gaps are. That each gap lets unsound ones through is shown last.
-/

namespace ObjectModel

namespace Visibility

theorem atLeast_iff {v w : Visibility} :
    v.atLeast w = true ↔ v = .isPublic ∨ w = .isPrivate ∨ v = w := by
  cases v <;> cases w <;> decide

/-- A level is at least another if what is seen from a scope at the other is seen at it as well. -/
theorem atLeast_iff_forall_isVisibleFrom {v w : Visibility} :
    v.atLeast w = true ↔
      ∀ cls scope?, isVisibleFrom cls w scope? = true → isVisibleFrom cls v scope? = true := by
  constructor
  · rw [atLeast_iff]
    rintro (rfl | rfl | rfl) cls scope? h
    · rfl
    · cases scope? with
      | none => cases h
      | some scope =>
        have hself : scope.isSubclassOf cls = true :=
          List.any_eq_true.2 ⟨scope, scope.self_mem_ancestors, h⟩
        cases v with
        | isPublic => rfl
        | isProtected => exact hself
        | isPrivate => exact h
    · exact h
  · intro h
    -- code outside any class sees public members only, and a subclass no private ones
    have hnone := h "P" none
    have hbelow := h "P" (some { name := "C", parent? := some { name := "P" } })
    revert hnone hbelow
    cases v <;> cases w <;> decide

theorem eq_isPrivate_of_atLeast {v w : Visibility} (h : v.atLeast w = true) (hv : v = .isPrivate) :
    w = .isPrivate := by
  subst hv
  obtain h | h | h := atLeast_iff.1 h
  · cases h
  · exact h
  · exact h.symm

end Visibility

namespace MethodDef

/-- Whether a method may stand where `n` does: it is as static and at least as visible, and if `n`
is final it is `n` itself. -/
structure Overrides (m n : MethodDef) : Prop where
  isStatic_eq : m.isStatic = n.isStatic
  atLeast : m.visibility.atLeast n.visibility = true
  eq_of_isFinal : n.isFinal = true → m = n

/-- Whether a method is a constructor or destructor shows in its key. -/
theorem isLifecycle_congr {m n : MethodDef} (h : m.key = n.key) :
    m.isLifecycle = n.isLifecycle := by
  rw [isLifecycle, isLifecycle, Name.same, Name.same, Name.same, Name.same,
    show Name.foldCase m.name = Name.foldCase n.name from h]

namespace Overrides

theorem refl (m : MethodDef) : m.Overrides m := ⟨rfl, Visibility.atLeast_refl _, fun _ => rfl⟩

theorem trans {m n p : MethodDef} (h : m.Overrides n) (h' : n.Overrides p) : m.Overrides p := by
  refine ⟨h.isStatic_eq.trans h'.isStatic_eq, Visibility.atLeast_trans h.atLeast h'.atLeast, ?_⟩
  intro hp
  cases h'.eq_of_isFinal hp
  exact h.eq_of_isFinal hp

/-- The check of an override lets through what overrides, unless the overridden method is
private. -/
theorem of_checkOverride {cls : String} {m n : MethodDef} (h : m.checkOverride cls n = .ok ())
    (hn : n.visibility ≠ .isPrivate) : m.Overrides n := by
  rw [checkOverride, if_neg hn] at h
  split at h
  · cases h
  next hf =>
  split at h
  · cases h
  next hs =>
  split at h
  · cases h
  next hv => exact ⟨Decidable.not_not.1 hs, by simpa using hv, fun hn => absurd hn hf⟩

end Overrides

end MethodDef

namespace ClassDef

/-- Whether a rule of the class adds a method under a key or changes the visibility of one there. -/
def Adapts (c : ClassDef) (key : String) : Prop :=
  ∃ rule ∈ c.traitRules, rule.adaptedKey? = some key

/-- Whether linking left the method of a class under a key unchecked: a rule adapts it, or it is a
constructor or destructor and the parent has none in its own table. -/
def SkipsCheck (c : ClassDef) (key : String) : Prop :=
  c.Adapts key ∨ ∃ m parent, c.methods.get? key = some m ∧ m.isLifecycle = true ∧
    c.parent? = some parent ∧ parent.methods.get? key = none

/-- Linking checks a method that no rule adapts, unless it is a constructor or destructor. -/
theorem not_skipsCheck {c : ClassDef} {key : String}
    (hr : ∀ rule ∈ c.traitRules, rule.adaptedKey? ≠ some key)
    (hl : ∀ m, c.methods.get? key = some m → m.isLifecycle = false) : ¬ c.SkipsCheck key := by
  rintro (⟨rule, hm, hk⟩ | ⟨m, parent, hm, hlife, -⟩)
  · exact hr rule hm hk
  · exact Bool.false_ne_true ((hl m hm).symm.trans hlife)

/-- Whether the method of a class under a key overrides the one that its parent offers. -/
def OverridesInherited (c : ClassDef) (key : String) : Prop :=
  ∀ m parent p, c.methods.get? key = some m → c.parent? = some parent →
    parent.findMethod? key = some p → p.visibility ≠ .isPrivate → m.Overrides p

def OffersOverride (c : ClassDef) (n : MethodDef) : Prop :=
  ∃ m, c.findMethod? n.key = some m ∧ m.Overrides n ∧
    (n.isLifecycle = false → c.methods.get? n.key = some m)

def KeysMethods (c : ClassDef) : Prop := ∀ key m, c.methods.get? key = some m → m.key = key

theorem ComposesTo.keysMethods {traits : List ClassDef} {rules : List TraitRule} {c d : ClassDef}
    (h : ComposesTo traits rules c d) (ht : ∀ trait ∈ traits, trait.KeysMethods)
    (hc : c.KeysMethods) : d.KeysMethods := by
  cases h with
  | unchanged | property | constants => exact hc
  | method hm hk =>
    intro key m hg
    obtain ⟨rfl, rfl⟩ | hold := OrderedMap.of_get?_insert hg
    · exact (ht _ hm _ _ hk :)
    · exact hc key m hold
  | addition =>
    intro key m hg
    obtain ⟨rfl, rfl⟩ | hold := OrderedMap.of_get?_insert hg
    · rfl
    · exact hc key m hold
  | visibility _ _ hf =>
    intro key m hg
    rw [OrderedMap.get?_modify] at hg
    split at hg
    next he =>
      obtain ⟨n, hn, rfl⟩ := Option.map_eq_some_iff.1 hg
      rcases hf n with hfn | ⟨v, hfn⟩ <;> rw [hfn] <;> exact hc key n hn
    next => exact hc key m hg

theorem keysMethods_of_reflTransGen {traits : List ClassDef} {rules : List TraitRule}
    {c d : ClassDef} (h : Relation.ReflTransGen (ComposesTo traits rules) c d)
    (ht : ∀ trait ∈ traits, trait.KeysMethods) (hc : c.KeysMethods) : d.KeysMethods := by
  induction h with
  | refl => exact hc
  | tail _ hs ih => exact hs.keysMethods ht ih

end ClassDef

namespace ClassTable

variable {t t' : ClassTable} {h h' : Heap} {c d parent : ClassDef}

/-- The methods of a class that is linked to its parent: its own, and those it inherits. -/
theorem get?_methods_of_linkParent {c₁ : ClassDef} (h₁ : t.linkParent (markReadonly c) = .ok c₁)
    (key : String) :
    c₁.methods.get? key = c.methods.get? key ∨
      ∃ name parent, t.get? name = some parent ∧ c₁.methods.get? key = (c.methods.get? key).or
          ((parent.methods.get? key).filter MethodDef.isInheritable) := by
  obtain ⟨-, rfl⟩ | ⟨name, parent, -, hp, -, rfl⟩ := exists_of_linkParent h₁
  · exact .inl rfl
  · exact .inr ⟨name, parent, hp, get?_inheritMembers _ _ _ _⟩

/-- Every method is stored under its key. -/
theorem Reachable.keysMethods (ht : t.Reachable) : ∀ c ∈ t.classes.values, c.KeysMethods := by
  apply ht.induction_on (Q := fun _ c => c.KeysMethods)
  · intro _ _ _ _ hc
    exact hc
  · intro t t' h h' c d ht hc hd ih
    obtain ⟨-, -, -, c₁, c₂, traits, ks, is, b, s, h₁, htr, hg, hde⟩ := exists_of_declare hd
    have hkeys₁ : c₁.KeysMethods := by
      intro key m hm
      obtain he | ⟨name, parent, hp, he⟩ := get?_methods_of_linkParent h₁ key
      · exact (hc.of_get?_methods key m (he ▸ hm)).1
      · rw [he, Option.or_eq_some_iff, Option.filter_eq_some_iff] at hm
        obtain hm | ⟨-, hm, -⟩ := hm
        · exact (hc.of_get?_methods key m hm).1
        · exact ih parent (mem_values_of_get? hp) key m hm
    have htraits : ∀ trait ∈ traits, trait.KeysMethods := by
      intro trait hm
      obtain ⟨name, -, hn⟩ := htr trait hm
      exact ih trait (mem_values_of_get? hn)
    have hkeys₂ := ClassDef.keysMethods_of_reflTransGen hg htraits hkeys₁
    rw [hde]
    exact hkeys₂

/-- A method that overrides the one of the parent does so after a step of a composition, unless the
step applies a rule to it. -/
theorem overrides_of_composesTo {traits : List ClassDef} {rules : List TraitRule} {key : String}
    {p : MethodDef} (hs : ClassDef.ComposesTo traits rules c d)
    (hr : ∀ rule ∈ rules, rule.adaptedKey? ≠ some key) (hp : c.parent? = some parent)
    (hf : parent.findMethod? key = some p) (hv : p.visibility ≠ .isPrivate)
    (hc : ∀ m, c.methods.get? key = some m → m.Overrides p) :
    ∀ m, d.methods.get? key = some m → m.Overrides p := by
  cases hs with
  | unchanged | property | constants => exact hc
  | @method trait key' m hm hk _ hcheck =>
    intro n hn
    obtain ⟨rfl, rfl⟩ | hold := OrderedMap.of_get?_insert hn
    · exact .of_checkOverride (hcheck p (by rw [hp, Option.bind_some, hf])) hv
    · exact hc n hold
  | @addition rule m hm hk _ =>
    intro n hn
    rw [OrderedMap.get?_insert, if_neg] at hn
    · exact hc n hn
    · rintro rfl
      exact hr rule hm hk
  | @visibility rule key' f hm hk _ =>
    intro n hn
    rw [OrderedMap.get?_modify, if_neg] at hn
    · exact hc n hn
    · rintro rfl
      exact hr rule hm hk

theorem overrides_of_reflTransGen {traits : List ClassDef} {rules : List TraitRule} {key : String}
    {p : MethodDef} (hg : Relation.ReflTransGen (ClassDef.ComposesTo traits rules) c d)
    (hr : ∀ rule ∈ rules, rule.adaptedKey? ≠ some key) (hp : c.parent? = some parent)
    (hf : parent.findMethod? key = some p) (hv : p.visibility ≠ .isPrivate)
    (hc : ∀ m, c.methods.get? key = some m → m.Overrides p) :
    ∀ m, d.methods.get? key = some m → m.Overrides p := by
  induction hg with
  | refl => exact hc
  | tail hg hs ih =>
    obtain ⟨_, _, _, rfl⟩ := ClassDef.exists_eq_of_reflTransGen hg
    exact overrides_of_composesTo hs hr hp hf hv ih

/-- Composition removes no method. -/
theorem isSome_of_reflTransGen {traits : List ClassDef} {rules : List TraitRule} {key : String}
    (hg : Relation.ReflTransGen (ClassDef.ComposesTo traits rules) c d)
    (hc : (c.methods.get? key).isSome) : (d.methods.get? key).isSome := by
  induction hg with
  | refl => exact hc
  | tail _ hs ih =>
    cases hs with
    | unchanged | property | constants => exact ih
    | method | addition =>
      rw [OrderedMap.get?_insert]
      split
      · rfl
      · exact ih
    | visibility =>
      rw [OrderedMap.get?_modify]
      split
      · rwa [Option.isSome_map]
      · exact ih

/-- The method of a class is the first that a look-up from it meets. -/
theorem findMethod?_of_get? {key : String} {m : MethodDef} (hk : c.methods.get? key = some m)
    (hkey : Name.foldCase key = key) : c.findMethod? key = some m := by
  rw [ClassDef.findMethod?, ClassDef.ancestors_eq, List.findSome?_cons, hkey, hk]

theorem offersOverride_of_get? {n : MethodDef} (hk : c.methods.get? n.key = some n) :
    c.OffersOverride n :=
  ⟨n, findMethod?_of_get? hk (Name.foldCase_foldCase n.name), .refl n, fun _ => hk⟩

/-- The methods of a class with a parent, before its traits: its own, which were checked, and those
that the parent hands down. -/
theorem methods_of_linkParent {c₁ : ClassDef} (hc : c.IsFresh)
    (h₁ : t.linkParent (markReadonly c) = .ok c₁) (hp : c₁.parent? = some parent) {key : String}
    {p : MethodDef} (hk : parent.methods.get? key = some p) :
    c₁.methods.get? key = (c.methods.get? key).or (if p.isInheritable then some p else none) ∧
      ∀ m, c.methods.get? key = some m → m.checkOverride c.name p = .ok () := by
  obtain ⟨-, rfl⟩ | ⟨name, parent', -, hn, hcheck, rfl⟩ := exists_of_linkParent h₁
  · rw [show (markReadonly c).parent? = c.parent? from rfl, hc.parent?_eq_none] at hp
    cases hp
  cases hp
  constructor
  · rw [ClassDef.withParent, get?_inheritMembers, hk, Option.filter_some]
    rfl
  · intro m hm
    exact checkOverrides_eq_ok (ClassDef.of_checkParent hcheck).2.2.1 hm hk

/-- The method of a class overrides that of its parent if no rule of the class adapts it. -/
theorem overrides_of_declare (hd : t.declare h c = .ok (t', h', d)) (hc : c.IsFresh)
    (hp : d.parent? = some parent) {key : String} (hkey : Name.foldCase key = key) {p : MethodDef}
    (hk : parent.methods.get? key = some p) (hv : p.visibility ≠ .isPrivate)
    (hr : ¬ d.Adapts key) : ∀ m, d.methods.get? key = some m → m.Overrides p := by
  obtain ⟨-, -, -, c₁, c₂, traits, ks, is, b, s, h₁, -, hg, rfl⟩ := exists_of_declare hd
  obtain ⟨_, _, _, hframe⟩ := ClassDef.exists_eq_of_reflTransGen hg
  have hp₁ : c₁.parent? = some parent := by
    subst hframe
    exact hp
  have hr₁ : ∀ rule ∈ c₁.traitRules, rule.adaptedKey? ≠ some key := by
    intro rule hm he
    subst hframe
    exact hr ⟨rule, hm, he⟩
  obtain ⟨hget, hcheck⟩ := methods_of_linkParent hc h₁ hp₁ hk
  apply overrides_of_reflTransGen (d := c₂) hg hr₁ hp₁ (findMethod?_of_get? hk hkey) hv
  intro m hm
  rw [hget, Option.or_eq_some_iff] at hm
  obtain hm | ⟨-, hm⟩ := hm
  · exact .of_checkOverride (hcheck m hm) hv
  · split at hm
    · cases hm
      exact .refl p
    · cases hm

/-- A class has every method that its parent hands down. -/
theorem isSome_of_declare (hd : t.declare h c = .ok (t', h', d)) (hc : c.IsFresh)
    (hp : d.parent? = some parent) {key : String} {p : MethodDef}
    (hk : parent.methods.get? key = some p) (hi : p.isInheritable = true) :
    (d.methods.get? key).isSome := by
  obtain ⟨-, -, -, c₁, c₂, traits, ks, is, b, s, h₁, -, hg, rfl⟩ := exists_of_declare hd
  obtain ⟨_, _, _, hframe⟩ := ClassDef.exists_eq_of_reflTransGen hg
  have hp₁ : c₁.parent? = some parent := by
    subst hframe
    exact hp
  apply isSome_of_reflTransGen (d := c₂) hg
  rw [(methods_of_linkParent hc h₁ hp₁ hk).1, hi, if_pos rfl, Option.or_some, Option.isSome_some]

/-- Whether every class between a class and one of its ancestors, the first included and the last
not, satisfies a condition. -/
def AllBelow (P : ClassDef → Prop) (c a : ClassDef) : Prop :=
  ∀ b ∈ c.ancestors, a ∈ b.ancestors.tail → P b

theorem AllBelow.of_parent {P : ClassDef → Prop} {a : ClassDef} (hb : AllBelow P c a)
    (hc : c.ancestors = c :: parent.ancestors) : AllBelow P parent a :=
  fun b hm ha => hb b (hc ▸ List.mem_cons_of_mem c hm) ha

/-- The method of a class overrides the one that its parent offers, unless linking skipped the
check. -/
theorem overrides_or_skipsCheck (hd : t.declare h c = .ok (t', h', d)) (hc : c.IsFresh)
    (hp : d.parent? = some parent) {key : String} (hkey : Name.foldCase key = key)
    {m p : MethodDef} (hm : d.methods.get? key = some m) (hf : parent.findMethod? key = some p)
    (hv : p.visibility ≠ .isPrivate)
    (hl : m.isLifecycle = false → (parent.methods.get? key).isSome) :
    m.Overrides p ∨ d.SkipsCheck key := by
  by_cases hr : d.Adapts key
  · exact .inr (.inl hr)
  cases hk : parent.methods.get? key with
  | some q =>
    cases (findMethod?_of_get? hk hkey).symm.trans hf
    exact .inl (overrides_of_declare hd hc hp hkey hk hv hr m hm)
  | none =>
    refine .inr (.inr ⟨m, parent, hm, ?_, hp, hk⟩)
    apply eq_true_of_ne_false
    intro h
    have hsome := hl h
    rw [hk] at hsome
    cases hsome

/-- A class offers a method that overrides `n` if its parent does, provided that the check was made
or is not missed. -/
theorem offersOverride_of_declare (ht : t.Reachable) (hd : t.declare h c = .ok (t', h', d))
    (hc : c.IsFresh) (hm : parent ∈ t.classes.values) (hp : d.parent? = some parent)
    {n : MethodDef} (hv : n.visibility ≠ .isPrivate) (ho : parent.OffersOverride n)
    (hs : d.SkipsCheck n.key → d.OverridesInherited n.key) : d.OffersOverride n := by
  obtain ⟨p, hfp, hpn, hpl⟩ := ho
  have hkey : Name.foldCase n.key = n.key := Name.foldCase_foldCase n.name
  have hpv : p.visibility ≠ .isPrivate := by
    intro h
    exact hv (Visibility.eq_isPrivate_of_atLeast hpn.atLeast h)
  cases hget : d.methods.get? n.key with
  | some m =>
    have hd' : d ∈ t'.classes.values :=
      mem_values_of_get? (by rw [get?_of_declare hd, if_pos rfl])
    have hl : m.isLifecycle = n.isLifecycle :=
      MethodDef.isLifecycle_congr ((ht.declare hc hd).keysMethods d hd' _ m hget)
    have hown : m.isLifecycle = false → (parent.methods.get? n.key).isSome := by
      intro h
      rw [hpl (hl ▸ h)]
      rfl
    refine ⟨m, findMethod?_of_get? hget hkey, ?_, fun _ => hget⟩
    obtain ho | hskip := overrides_or_skipsCheck hd hc hp hkey hget hfp hpv hown
    · exact ho.trans hpn
    · exact (hs hskip m parent p hget hp hfp hpv).trans hpn
  | none =>
    refine ⟨p, ?_, hpn, ?_⟩
    · rw [ClassDef.findMethod?, ClassDef.ancestors_eq, hp, List.findSome?_cons, hkey, hget]
      rwa [ClassDef.findMethod?, hkey] at hfp
    · intro h
      -- the parent would have handed its method down
      have hpk : p.key = n.key := ht.keysMethods parent hm _ p (hpl h)
      have hi : p.isInheritable = true := by
        rw [MethodDef.isInheritable, MethodDef.isLifecycle_congr hpk, h]
        simp [hpv]
      have hsome := isSome_of_declare hd hc hp (hpl h) hi
      rw [hget] at hsome
      cases hsome

/-- A class offers a method that overrides the one that an ancestor has itself, if every class
between them for which the check was skipped overrides what its parent offers. -/
theorem Reachable.offersOverride (ht : t.Reachable) :
    ∀ c ∈ t.classes.values, ∀ a ∈ c.ancestors.tail, ∀ n, a.methods.get? n.key = some n →
      n.visibility ≠ .isPrivate →
      AllBelow (fun b => b.SkipsCheck n.key → b.OverridesInherited n.key) c a →
      c.OffersOverride n := by
  apply ht.induction_on
    (Q := fun _ c => ∀ a ∈ c.ancestors.tail, ∀ n, a.methods.get? n.key = some n →
      n.visibility ≠ .isPrivate →
      AllBelow (fun b => b.SkipsCheck n.key → b.OverridesInherited n.key) c a →
      c.OffersOverride n)
  · intro _ _ _ _ hc
    exact hc
  · intro t t' h h' c d ht hc hd ih a ha n hk hv hb
    obtain he | ⟨parent, hm, hp, -, he⟩ := ancestors_of_declare hc hd
    · rw [he] at ha
      cases ha
    · have had : a ∈ d.ancestors.tail := ha
      apply offersOverride_of_declare ht hd hc hm hp hv ?_ (hb d d.self_mem_ancestors had)
      rw [he, List.tail_cons, ClassDef.ancestors_eq, List.mem_cons] at ha
      obtain rfl | ha := ha
      · exact offersOverride_of_get? hk
      · refine ih parent hm a ?_ n hk hv (hb.of_parent he)
        rw [ClassDef.ancestors_eq]
        exact ha

/-- What a class has itself under a name is stored under the key of the name. -/
theorem Reachable.get?_of_ownMethod? (ht : t.Reachable) {c : ClassDef} (hc : c ∈ t.classes.values)
    {name : String} {m : MethodDef} (hm : c.ownMethod? name = some m) :
    m.key = Name.foldCase name ∧ c.methods.get? m.key = some m ∧ m.declaringClass = c.name := by
  rw [ClassDef.ownMethod?, Option.filter_eq_some_iff, beq_iff_eq] at hm
  have hkey := ht.keysMethods c hc _ m hm.1
  exact ⟨hkey, hkey ▸ hm.1, hm.2⟩

/-- If a look-up from a class meets an override of what an ancestor has itself, then what the class
has itself under the name is that override. -/
theorem Reachable.overrides_of_offersOverride (ht : t.Reachable) {c a : ClassDef}
    (hc : c ∈ t.classes.values) (ha : a ∈ c.ancestors.tail) {name : String} {m n : MethodDef}
    (hm : c.ownMethod? name = some m) (hn : a.ownMethod? name = some n) (ho : c.OffersOverride n) :
    n.isFinal = false ∧ m.isStatic = n.isStatic ∧ m.visibility.atLeast n.visibility = true := by
  have ha' := ht.mem_of_mem_ancestors c hc a (List.mem_of_mem_tail ha)
  obtain ⟨hkm, hm, hmc⟩ := ht.get?_of_ownMethod? hc hm
  obtain ⟨hkn, -, hna⟩ := ht.get?_of_ownMethod? ha' hn
  rw [hkm, ← hkn] at hm
  obtain ⟨m', hm', ho, -⟩ := ho
  cases (findMethod?_of_get? hm (Name.foldCase_foldCase n.name)).symm.trans hm'
  refine ⟨?_, ho.isStatic_eq, ho.atLeast⟩
  apply Bool.eq_false_iff.2
  intro hf
  -- a final method would be that of the class itself, and name two classes as its own
  cases ho.eq_of_isFinal hf
  exact ht.name_ne_of_mem_ancestors c hc a ha (hna.symm.trans hmc)

/-- A method that a class has itself overrides the one that an ancestor has itself under the same
name, unless that is private: the ancestor's is not final, both are static or neither is, and the
visibility is not reduced. Where linking skips the check of a class between them, that class has to
override what its parent offers. -/
theorem overrides_of_ownMethod? (ht : t.Reachable) {c a : ClassDef} (hc : c ∈ t.classes.values)
    (ha : a ∈ c.ancestors.tail) {name : String} {m n : MethodDef}
    (hm : c.ownMethod? name = some m) (hn : a.ownMethod? name = some n)
    (hv : n.visibility ≠ .isPrivate)
    (hb : AllBelow (fun b => b.SkipsCheck (Name.foldCase name) →
      b.OverridesInherited (Name.foldCase name)) c a) :
    n.isFinal = false ∧ m.isStatic = n.isStatic ∧ m.visibility.atLeast n.visibility = true := by
  have ha' := ht.mem_of_mem_ancestors c hc a (List.mem_of_mem_tail ha)
  obtain ⟨hkey, hk, -⟩ := ht.get?_of_ownMethod? ha' hn
  apply ht.overrides_of_offersOverride hc ha hm hn
  exact ht.offersOverride c hc a ha n hk hv (hkey ▸ hb)

/-- One of the ancestors of a class with the methods that both have themselves under a name. -/
private def ownPair? (c : ClassDef) (ancestor name : String) :
    Option (ClassDef × MethodDef × MethodDef) := do
  let a ← c.ancestors.tail.find? (·.isNamed ancestor)
  return (a, ← c.ownMethod? name, ← a.ownMethod? name)

private theorem exists_of_ownPair? (cs : List ClassDef) (cls ancestor name : String)
    (p : ClassDef → MethodDef → MethodDef → Bool) (hcs : ∀ c ∈ cs, c.IsFresh)
    (h : ((declareAll {} {} cs).toOption.bind (·.1.get? cls)).any
      (fun c => (ownPair? c ancestor name).any fun (_, m, n) => p c m n) = true) :
    ∃ t : ClassTable, t.Reachable ∧ ∃ c ∈ t.classes.values, ∃ a ∈ c.ancestors.tail, ∃ m n,
      c.ownMethod? name = some m ∧ a.ownMethod? name = some n ∧ p c m n = true := by
  obtain ⟨t, ht, c, hc, hp⟩ := exists_of_declareAll cs cls _ hcs h
  obtain ⟨⟨a, m, n⟩, hf, hp⟩ := (Option.any_eq_true _ _).1 hp
  obtain ⟨a', ha, hf⟩ := Option.bind_eq_some_iff.1 hf
  obtain ⟨m', hm, hf⟩ := Option.bind_eq_some_iff.1 hf
  obtain ⟨n', hn, hf⟩ := Option.bind_eq_some_iff.1 hf
  cases hf
  exact ⟨t, ht, c, hc, a, List.mem_of_find?_eq_some ha, m, n, hm, hn, hp⟩

/-- A trait method that takes the place of an inherited one is checked against it. -/
theorem overrides_of_ownMethod?_from_trait :
    ∃ t : ClassTable, t.Reachable ∧ ∃ c ∈ t.classes.values, ∃ a ∈ c.ancestors.tail, ∃ m n,
      c.ownMethod? "save" = some m ∧ a.ownMethod? "save" = some n ∧ n.visibility ≠ .isPrivate ∧
        AllBelow (fun b => b.SkipsCheck (Name.foldCase "save") →
          b.OverridesInherited (Name.foldCase "save")) c a ∧
        n.isFinal = false ∧ m.isStatic = n.isStatic ∧
        m.visibility.atLeast n.visibility = true := by
  obtain ⟨t, ht, c, hc, a, ha, m, n, hm, hn, hp⟩ := exists_of_ownPair?
    [({ name := "Base" } : ClassDef).addMethod
        { name := "save", visibility := .isProtected },
      ({ name := "Saving", kind := .trait } : ClassDef).addMethod { name := "save" },
      { name := "Record", parentName? := some "Base", traitNames := ["Saving"] }]
    "Record" "Base" "save"
    (fun c _ n => decide (n.visibility ≠ .isPrivate) && c.ancestors.all fun b =>
      b.traitRules.isEmpty && b.methods.values.all (!·.isLifecycle))
    (by
      simp only [List.forall_mem_cons]
      exact ⟨.addMethod (.of_memberless rfl rfl rfl) _, .addMethod (.of_memberless rfl rfl rfl) _,
        .of_memberless rfl rfl rfl, nofun⟩)
    (by decide)
  simp only [Bool.and_eq_true, decide_eq_true_eq, List.all_eq_true, List.isEmpty_iff,
    Bool.not_eq_true'] at hp
  obtain ⟨hv, hplain⟩ := hp
  have hb : AllBelow (fun b => b.SkipsCheck (Name.foldCase "save") →
      b.OverridesInherited (Name.foldCase "save")) c a := by
    intro b hb _ hs
    refine absurd hs (ClassDef.not_skipsCheck ?_ fun m hm => ?_)
    · simp only [(hplain b hb).1]
      exact List.forall_mem_nil _
    · exact (hplain b hb).2 m (OrderedMap.mem_values_iff.2 ⟨_, hm⟩)
  exact ⟨t, ht, c, hc, a, ha, m, n, hm, hn, hv, hb, overrides_of_ownMethod? ht hc ha hm hn hv hb⟩

/-- If no class between them skips the check, a method that a class has itself overrides the one that
an ancestor has itself, unless that is private. -/
theorem overrides_of_not_skipsCheck (ht : t.Reachable) {c a : ClassDef} (hc : c ∈ t.classes.values)
    (ha : a ∈ c.ancestors.tail) {name : String} {m n : MethodDef}
    (hm : c.ownMethod? name = some m) (hn : a.ownMethod? name = some n)
    (hv : n.visibility ≠ .isPrivate)
    (hb : AllBelow (fun b => ¬ b.SkipsCheck (Name.foldCase name)) c a) :
    n.isFinal = false ∧ m.isStatic = n.isStatic ∧ m.visibility.atLeast n.visibility = true := by
  have ha' := ht.mem_of_mem_ancestors c hc a (List.mem_of_mem_tail ha)
  obtain ⟨hkey, hk, -⟩ := ht.get?_of_ownMethod? ha' hn
  apply ht.overrides_of_offersOverride hc ha hm hn
  exact ht.offersOverride c hc a ha n hk hv fun b hm hab hs => absurd (hkey ▸ hs) (hb b hm hab)

/-- A rule puts a method of a trait in the place of a final one. -/
theorem exists_final_overridden_by_rule :
    ∃ t : ClassTable, t.Reachable ∧ ∃ c ∈ t.classes.values, ∃ a ∈ c.ancestors.tail, ∃ m n,
      c.ownMethod? "save" = some m ∧ a.ownMethod? "save" = some n ∧
        n.visibility ≠ .isPrivate ∧ n.isFinal = true := by
  obtain ⟨t, ht, c, hc, a, ha, m, n, hm, hn, hp⟩ := exists_of_ownPair?
    [({ name := "P" } : ClassDef).addMethod { name := "save", isFinal := true },
      ({ name := "T", kind := .trait } : ClassDef).addMethod { name := "hello" },
      { name := "C", parentName? := some "P", traitNames := ["T"],
        traitRules := [.alias (some "T") "hello" (some "save") none] }]
    "C" "P" "save"
    (fun _ _ n => decide (n.visibility ≠ .isPrivate) && n.isFinal)
    (by
      simp only [List.forall_mem_cons]
      exact ⟨.addMethod (.of_memberless rfl rfl rfl) _, .addMethod (.of_memberless rfl rfl rfl) _,
        .of_memberless rfl rfl rfl, nofun⟩)
    (by decide)
  simp only [Bool.and_eq_true, decide_eq_true_eq] at hp
  exact ⟨t, ht, c, hc, a, ha, m, n, hm, hn, hp⟩

/-- A rule makes a public method protected. -/
theorem exists_visibility_reduced_by_rule :
    ∃ t : ClassTable, t.Reachable ∧ ∃ c ∈ t.classes.values, ∃ a ∈ c.ancestors.tail, ∃ m n,
      c.ownMethod? "hello" = some m ∧ a.ownMethod? "hello" = some n ∧
        n.visibility ≠ .isPrivate ∧ m.visibility.atLeast n.visibility = false := by
  obtain ⟨t, ht, c, hc, a, ha, m, n, hm, hn, hp⟩ := exists_of_ownPair?
    [({ name := "P" } : ClassDef).addMethod { name := "hello" },
      ({ name := "T", kind := .trait } : ClassDef).addMethod { name := "hello" },
      { name := "C", parentName? := some "P", traitNames := ["T"],
        traitRules := [.alias (some "T") "hello" none (some .isProtected)] }]
    "C" "P" "hello"
    (fun _ m n => decide (n.visibility ≠ .isPrivate) && !m.visibility.atLeast n.visibility)
    (by
      simp only [List.forall_mem_cons]
      exact ⟨.addMethod (.of_memberless rfl rfl rfl) _, .addMethod (.of_memberless rfl rfl rfl) _,
        .of_memberless rfl rfl rfl, nofun⟩)
    (by decide)
  simp only [Bool.and_eq_true, decide_eq_true_eq, Bool.not_eq_true'] at hp
  exact ⟨t, ht, c, hc, a, ha, m, n, hm, hn, hp⟩

/-- A final constructor is overridden by a class whose parent has none, without any rules. -/
theorem exists_final_constructor_overridden :
    ∃ t : ClassTable, t.Reachable ∧ ∃ c ∈ t.classes.values, ∃ a ∈ c.ancestors.tail, ∃ m n,
      c.ownMethod? "__construct" = some m ∧ a.ownMethod? "__construct" = some n ∧
        n.visibility ≠ .isPrivate ∧ n.isFinal = true ∧ ∀ b ∈ c.ancestors, b.traitRules = [] := by
  obtain ⟨t, ht, c, hc, a, ha, m, n, hm, hn, hp⟩ := exists_of_ownPair?
    [({ name := "A" } : ClassDef).addMethod { name := "__construct", isFinal := true },
      { name := "B", parentName? := some "A" },
      ({ name := "C", parentName? := some "B" } : ClassDef).addMethod { name := "__construct" }]
    "C" "A" "__construct"
    (fun c _ n => decide (n.visibility ≠ .isPrivate) && n.isFinal &&
      c.ancestors.all (·.traitRules.isEmpty))
    (by
      simp only [List.forall_mem_cons]
      exact ⟨.addMethod (.of_memberless rfl rfl rfl) _, .of_memberless rfl rfl rfl,
        .addMethod (.of_memberless rfl rfl rfl) _, nofun⟩)
    (by decide)
  simp only [Bool.and_eq_true, decide_eq_true_eq, List.all_eq_true, List.isEmpty_iff] at hp
  exact ⟨t, ht, c, hc, a, ha, m, n, hm, hn, hp.1.1, hp.1.2, hp.2⟩

end ClassTable

end ObjectModel
