import ObjectModel.Proofs.Class.Overriding
import ObjectModel.Proofs.Class.Readonly
/-!
# What a look-up finds

Beside its own members a class has copies of those that its parent hands down. Private members,
constructors and destructors are not copied, so a look-up that misses them goes on to the parent.
Either way it comes to the nearest class, from the class upwards, that has a member of the name
itself: a member that is not the class's own was copied from the parent's table
(`exists_of_get?_methods`, `exists_of_get?_properties`), and along the chain of parents the copies
lead back to their owner. A copied method may have got another visibility from a rule of the class,
and nothing else; a copied property is as its owner has it.

The slots of an object come from the owners in the same way, but only instance properties count.
-/

namespace ObjectModel

namespace MethodDef

/-- Whether a method is another one, but for its visibility. -/
def IsCopyOf (m n : MethodDef) : Prop := m = { n with visibility := m.visibility }

namespace IsCopyOf

variable {m n o : MethodDef}

theorem refl (m : MethodDef) : m.IsCopyOf m := rfl

theorem trans (h : m.IsCopyOf n) (h' : n.IsCopyOf o) : m.IsCopyOf o := by
  rw [IsCopyOf] at *
  rw [h, h']

theorem declaringClass_eq (h : m.IsCopyOf n) : m.declaringClass = n.declaringClass := by
  rw [h]

end IsCopyOf

end MethodDef

namespace ClassDef

/-- The method of the nearest class, from a class upwards, that has one of a name itself. -/
def nearestMethod? (c : ClassDef) (name : String) : Option MethodDef :=
  c.ancestors.findSome? (·.ownMethod? name)

def nearestProperty? (c : ClassDef) (name : String) : Option PropertyDef :=
  c.ancestors.findSome? (·.ownProperty? name)

section Composition

variable {traits : List ClassDef} {rules : List TraitRule} {c d : ClassDef} {key : String}
  {m : MethodDef}

theorem ComposesTo.get?_methods (h : ComposesTo traits rules c d)
    (hm : d.methods.get? key = some m) :
    m.declaringClass = c.name ∨ ∃ n, c.methods.get? key = some n ∧ m.IsCopyOf n := by
  cases h with
  | unchanged | property | constants => exact .inr ⟨m, hm, .refl m⟩
  | method =>
    obtain ⟨-, rfl⟩ | hold := OrderedMap.of_get?_insert hm
    · exact .inl rfl
    · exact .inr ⟨m, hold, .refl m⟩
  | addition _ _ hdecl =>
    obtain ⟨-, rfl⟩ | hold := OrderedMap.of_get?_insert hm
    · exact .inl hdecl
    · exact .inr ⟨m, hold, .refl m⟩
  | visibility _ _ hf =>
    rw [OrderedMap.get?_modify] at hm
    split at hm
    · obtain ⟨n, hn, rfl⟩ := Option.map_eq_some_iff.1 hm
      refine .inr ⟨n, hn, ?_⟩
      obtain he | ⟨v, he⟩ := hf n
      · rw [he]
        exact .refl n
      · rw [he]
        rfl
    · exact .inr ⟨m, hm, .refl m⟩

/-- Composition makes a method the class's own, or leaves it but for its visibility. -/
theorem get?_methods_of_reflTransGen (h : Relation.ReflTransGen (ComposesTo traits rules) c d)
    (hm : d.methods.get? key = some m) :
    m.declaringClass = c.name ∨ ∃ n, c.methods.get? key = some n ∧ m.IsCopyOf n := by
  induction h generalizing m with
  | refl => exact .inr ⟨m, hm, .refl m⟩
  | tail hg hs ih =>
    obtain ⟨_, _, _, rfl⟩ := exists_eq_of_reflTransGen hg
    obtain hdecl | ⟨n, hn, hmn⟩ := hs.get?_methods hm
    · exact .inl hdecl
    · obtain hdecl | ⟨o, ho, hno⟩ := ih hn
      · exact .inl (hmn.declaringClass_eq.trans hdecl)
      · exact .inr ⟨o, ho, hmn.trans hno⟩

end Composition

end ClassDef

namespace ClassTable

variable {t t' : ClassTable} {h h' : Heap} {c d : ClassDef} {key name : String} {m : MethodDef}

/-- A method of a class that has just been declared is its own, or a copy of one that its parent
has. -/
theorem exists_of_get?_methods (hc : c.IsFresh) (hd : t.declare h c = .ok (t', h', d))
    (hm : d.methods.get? key = some m) :
    m.declaringClass = d.name ∨ ∃ parent ∈ t.classes.values, d.ancestors = d :: parent.ancestors ∧
      ∃ n, parent.methods.get? key = some n ∧ m.IsCopyOf n := by
  obtain ⟨-, -, -, c₁, c₂, traits, ks, is, b, s, h₁, -, hg, rfl⟩ := exists_of_declare hd
  obtain ⟨_, _, _, hframe⟩ := ClassDef.exists_eq_of_reflTransGen hg
  obtain hdecl | ⟨n, hn, hmn⟩ := ClassDef.get?_methods_of_reflTransGen (d := c₂) hg hm
  · subst hframe
    exact .inl hdecl
  have hown (hn : c.methods.get? key = some n) : m.declaringClass = c.name :=
    hmn.declaringClass_eq.trans (hc.of_get?_methods key n hn).2
  obtain ⟨-, rfl⟩ | ⟨_, parent, -, hp, -, rfl⟩ := exists_of_linkParent h₁
  · subst hframe
    exact .inl (hown hn)
  · rw [ClassDef.withParent, get?_inheritMembers, Option.or_eq_some_iff,
      Option.filter_eq_some_iff] at hn
    obtain hn | ⟨-, hn, -⟩ := hn
    · subst hframe
      exact .inl (hown hn)
    · refine .inr ⟨parent, mem_values_of_get? hp, ?_, n, hn, hmn⟩
      rw [ClassDef.ancestors_eq]
      subst hframe
      rfl

/-- A look-up along the chain of parents comes to the nearest class whose member is its own, if in
every class that is declared a member of another class is a copy of its parent's. -/
theorem Reachable.rel_findSome?_ancestors {α : Type} {find : ClassDef → Option α}
    {isOwn : ClassDef → α → Bool} {R : α → α → Prop} (refl : ∀ a, R a a)
    (trans : ∀ {a b c}, R a b → R b c → R a c)
    (step : ∀ {t t' : ClassTable} {h h' : Heap} {c d : ClassDef} {a : α}, c.IsFresh →
      t.declare h c = .ok (t', h', d) → find d = some a → isOwn d a = false →
      ∃ parent ∈ t.classes.values, d.ancestors = d :: parent.ancestors ∧
        ∃ b, find parent = some b ∧ R a b)
    (ht : t.Reachable) : ∀ c ∈ t.classes.values, Option.Rel R (c.ancestors.findSome? find)
      (c.ancestors.findSome? fun a => (find a).filter (isOwn a)) := by
  apply ht.induction_on (Q := fun _ c => Option.Rel R (c.ancestors.findSome? find)
    (c.ancestors.findSome? fun a => (find a).filter (isOwn a)))
  · intro _ _ _ _ hc
    exact hc
  · intro t t' h h' c d _ hc hd ih
    cases hf : find d with
    | none =>
      obtain he | ⟨parent, hp, -, -, he⟩ := ancestors_of_declare hc hd
      · simp only [he, List.findSome?_cons, List.findSome?_nil, hf, Option.filter_none]
        exact .none
      · simp only [he, List.findSome?_cons, hf, Option.filter_none]
        exact ih parent hp
    | some a =>
      cases ho : isOwn d a with
      | true =>
        rw [ClassDef.ancestors_eq]
        simp only [List.findSome?_cons, hf, Option.filter_some, ho, if_true]
        exact .some (refl a)
      | false =>
        obtain ⟨parent, hp, he, b, hb, hab⟩ := step hc hd hf ho
        have hrel := ih parent hp
        rw [ClassDef.ancestors_eq parent, List.findSome?_cons, hb, ← ClassDef.ancestors_eq] at hrel
        simp only [he, List.findSome?_cons, hf, Option.filter_some, ho]
        generalize parent.ancestors.findSome? (fun a => (find a).filter (isOwn a)) = nearest at hrel
        cases hrel with
        | some hbc => exact .some (trans hab hbc)

/-- A look-up finds the method of the nearest class that has one itself, in a copy that may differ
in its visibility. -/
theorem Reachable.findMethod?_rel_nearestMethod? (ht : t.Reachable) (hc : c ∈ t.classes.values)
    (name : String) :
    Option.Rel MethodDef.IsCopyOf (c.findMethod? name) (c.nearestMethod? name) := by
  refine ht.rel_findSome?_ancestors .refl .trans ?_ c hc
  intro t t' h h' c d m hc hd hm hown
  obtain hdecl | hparent := exists_of_get?_methods hc hd hm
  · rw [hdecl, beq_self_eq_true] at hown
    cases hown
  · exact hparent

/-- A look-up finds the property of the nearest class that has one itself. -/
theorem Reachable.findProperty?_eq_nearestProperty? (ht : t.Reachable) (hc : c ∈ t.classes.values)
    (name : String) : c.findProperty? name = c.nearestProperty? name := by
  have hrel : Option.Rel Eq (c.findProperty? name) (c.nearestProperty? name) := by
    refine ht.rel_findSome?_ancestors .refl .trans ?_ c hc
    intro t t' h h' c d p hc hd hp hown
    rw [beq_eq_false_iff_ne] at hown
    obtain ⟨q, hq, -, rfl⟩ | ⟨parent, hm, he, hq⟩ | ⟨-, -, trait, q, -, -, rfl⟩ :=
      exists_of_get?_properties hc hd hp
    · rw [(frame_of_declare hd).1] at hown
      exact absurd (hc.of_get?_properties name q hq).2 hown
    · exact ⟨parent, hm, he, p, hq, rfl⟩
    · exact absurd rfl hown
  generalize c.findProperty? name = found, c.nearestProperty? name = nearest at hrel ⊢
  cases hrel with
  | some he => rw [he]
  | none => rfl

end ClassTable

namespace ClassDef

variable {c : ClassDef}

/-- Whether every property stands in the table of the class under its own name. -/
def HasNamedProperties (c : ClassDef) : Prop :=
  ∀ name p, c.properties.get? name = some p → p.name = name

/-- The instance properties that a class has itself, by the names under which they become slots. -/
def ownSlots (c : ClassDef) : List (String × PropertyDef) :=
  c.ownInstanceProperties.map fun p => (p.name, p)

theorem get?_instanceProperties (c : ClassDef) (name : String) :
    c.instanceProperties.get? name =
      c.ancestors.findSome? fun a => a.ownSlots.reverse.lookup name := by
  rw [ClassDef.instanceProperties, OrderedMap.get?_ofList, List.reverse_flatMap,
    List.reverse_reverse]
  induction c.ancestors with
  | nil => rfl
  | cons a as ih =>
    rw [List.flatMap_cons, List.lookup_append, ih, List.findSome?_cons, Function.comp_apply,
      ← ownSlots]
    cases a.ownSlots.reverse.lookup name <;> rfl

/-- Where properties stand under their names, no two own ones have one name. -/
theorem HasNamedProperties.nodup_ownSlots (hc : c.HasNamedProperties) :
    (c.ownSlots.map Prod.fst).Nodup := by
  have hkeys : c.properties.values.map (·.name) = c.properties.keys := by
    rw [OrderedMap.values, OrderedMap.keys, List.map_map]
    refine List.map_congr_left ?_
    rintro ⟨k, p⟩ hp
    exact hc k p (OrderedMap.mem_entries_iff.1 hp)
  rw [ownSlots, List.map_map]
  refine ((List.filter_sublist (l := c.properties.values)).map _).nodup ?_
  exact hkeys ▸ c.properties.nodup_keys'

/-- The own slot of a name is the own property that the class has under it, unless that is
static. -/
theorem HasNamedProperties.lookup_ownSlots (hc : c.HasNamedProperties) (name : String) :
    c.ownSlots.reverse.lookup name = (c.ownProperty? name).filter (!·.isStatic) := by
  have hnodup := hc.nodup_ownSlots
  rw [← (List.reverse_perm _).nodup_iff, ← List.map_reverse] at hnodup
  ext p
  rw [OrderedMap.lookup_eq_some_iff_mem hnodup, List.mem_reverse, Option.filter_eq_some_iff,
    ClassDef.ownProperty?, Option.filter_eq_some_iff]
  constructor
  · intro hm
    obtain ⟨q, hq, he⟩ := List.mem_map.1 hm
    cases he
    obtain ⟨hv, hq⟩ := List.mem_filter.1 hq
    obtain ⟨k, hk⟩ := OrderedMap.mem_values_iff.1 hv
    rw [Bool.and_eq_true] at hq
    exact ⟨⟨hc k p hk ▸ hk, hq.2⟩, hq.1⟩
  · rintro ⟨⟨hp, hdecl⟩, hs⟩
    refine List.mem_map.2 ⟨p, List.mem_filter.2 ⟨OrderedMap.mem_values_iff.2 ⟨name, hp⟩, ?_⟩, ?_⟩
    · rw [hs, hdecl]
      rfl
    · rw [hc name p hp]

/-- The definition behind a slot is that of the nearest class that has an instance property of the
name itself. -/
theorem get?_instanceProperties_eq_nearest (hc : ∀ a ∈ c.ancestors, a.HasNamedProperties)
    (name : String) : c.instanceProperties.get? name =
      c.ancestors.findSome? fun a => (a.ownProperty? name).filter (!·.isStatic) := by
  rw [get?_instanceProperties]
  exact findSome?_congr fun a ha => (hc a ha).lookup_ownSlots name

end ClassDef

namespace ClassTable

variable {t : ClassTable} {c : ClassDef}

theorem Reachable.get?_instanceProperties (ht : t.Reachable) (hc : c ∈ t.classes.values)
    (name : String) : c.instanceProperties.get? name =
      c.ancestors.findSome? fun a => (a.ownProperty? name).filter (!·.isStatic) := by
  refine ClassDef.get?_instanceProperties_eq_nearest (fun a ha name p hp => ?_) name
  exact (ht.isSound a (ht.mem_of_mem_ancestors c hc a ha) name p hp).name_eq

/-- If a look-up finds an instance property, the slot of that name has the same definition. -/
theorem Reachable.get?_instanceProperties_of_findProperty? (ht : t.Reachable)
    (hc : c ∈ t.classes.values) {name : String} {p : PropertyDef}
    (hp : c.findProperty? name = some p) (hs : p.isStatic = false) :
    c.instanceProperties.get? name = some p := by
  rw [ht.findProperty?_eq_nearestProperty? hc, ClassDef.nearestProperty?,
    List.findSome?_eq_some_iff] at hp
  obtain ⟨below, a, above, he, ha, hbelow⟩ := hp
  rw [ht.get?_instanceProperties hc, List.findSome?_eq_some_iff]
  refine ⟨below, a, above, he, ?_, ?_⟩
  · rw [ha, Option.filter_some, hs]
    rfl
  · intro b hb
    rw [hbelow b hb, Option.filter_none]

/-- A look-up is not affected by the copies that classes have of what they inherit. It finds a
method just if a class, from the given one upwards, has one of the name itself, and then that of the
nearest such class, though perhaps with another visibility. It finds the property of the nearest
class that has one itself; if that is an instance property, it is also the one behind the slot. -/
theorem Reachable.find?_rel_nearest (ht : t.Reachable) (hc : c ∈ t.classes.values) (name : String) :
    Option.Rel MethodDef.IsCopyOf (c.findMethod? name) (c.nearestMethod? name) ∧
      c.findProperty? name = c.nearestProperty? name ∧
      ∀ p, c.findProperty? name = some p → p.isStatic = false →
        c.instanceProperties.get? name = some p := by
  refine ⟨ht.findMethod?_rel_nearestMethod? hc name, ht.findProperty?_eq_nearestProperty? hc name,
    ?_⟩
  intro p hp hs
  exact ht.get?_instanceProperties_of_findProperty? hc hp hs

/-- A private method and a property are found from two levels below; the property has been copied
on the way, the method has not. -/
theorem find?_rel_nearest_two_levels_below :
    ∃ t : ClassTable, t.Reachable ∧ ∃ c ∈ t.classes.values,
      (Option.Rel MethodDef.IsCopyOf (c.findMethod? "secret") (c.nearestMethod? "secret") ∧
        c.findProperty? "secret" = c.nearestProperty? "secret" ∧
        ∀ p, c.findProperty? "secret" = some p → p.isStatic = false →
          c.instanceProperties.get? "secret" = some p) ∧
      c.methods.get? "secret" = none ∧
      (c.findMethod? "secret").map (·.declaringClass) = some "Top" ∧
      (c.properties.get? "secret").map (·.declaringClass) = some "Top" := by
  obtain ⟨t, ht, c, hc, hp⟩ := exists_of_declareAll
    [(({ name := "Top" } : ClassDef).addMethod
        { name := "secret", visibility := .isPrivate }).addProperty
        { name := "secret", default := .null },
      { name := "Middle", parentName? := some "Top" },
      { name := "Leaf", parentName? := some "Middle" }]
    "Leaf"
    (fun c => c.methods.get? "secret" = none &&
      (c.findMethod? "secret").map (·.declaringClass) = some "Top" &&
      (c.properties.get? "secret").map (·.declaringClass) = some "Top")
    (by
      simp only [List.forall_mem_cons]
      exact ⟨.addProperty (.addMethod (.of_memberless rfl rfl rfl) _) _, .of_memberless rfl rfl rfl,
        .of_memberless rfl rfl rfl, nofun⟩)
    (by decide)
  simp only [Bool.and_eq_true, decide_eq_true_eq] at hp
  exact ⟨t, ht, c, hc, ht.find?_rel_nearest hc "secret", hp.1.1, hp.1.2, hp.2⟩

end ClassTable

end ObjectModel
