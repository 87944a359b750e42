import ObjectModel.Proofs.Class.Lookup
import ObjectModel.Proofs.Object.Instance
/-!
# The order of slots

The slots of an object stand in the order in which its class and the classes above it, from the most
remote one on, come to own the properties. So a class begins with the slots of its parent, in the
order of the parent, and adds those of its own properties whose names are new: a property that it
declares again changes what the slot is and not where it stands. Slots go by the names that the
properties say they have, while a class is asked for its own property by the name under which it has
it. The two agree in every class that was put together by declaring, linking and composing,
`Assembled.hasNamedProperties`.
-/

namespace ObjectModel

namespace ClassDef

/-- Whether a class was put together from declarations by linking it to parents and composing
traits, all of which were put together likewise. -/
inductive Assembled : ClassDef → Prop
  | declared {c : ClassDef} : c.parent? = none → c.HasNamedProperties → Assembled c
  | addProperty {c : ClassDef} (p : PropertyDef) : Assembled c → Assembled (c.addProperty p)
  | markReadonly {c : ClassDef} : Assembled c → Assembled (ClassTable.markReadonly c)
  | inherit {c parent d : ClassDef} : Assembled c → Assembled parent → c.inherit parent = .ok d →
      Assembled d
  /-- The composition may have stopped at any step. -/
  | compose {c : ClassDef} {traits : List ClassDef} (h : Heap) : Assembled c →
      (∀ trait ∈ traits, Assembled trait) → Assembled (c.compose h traits).1
  /-- Nothing else about a class matters here. -/
  | keep {c d : ClassDef} : Assembled c → d.properties = c.properties → d.parent? = c.parent? →
      Assembled d

/-- Whether a class is what another one is after one composition, ended or not. -/
def ComposedInto (c d : ClassDef) : Prop :=
  ∃ h traits, (∀ trait ∈ traits, Assembled trait) ∧ d = (c.compose h traits).1

variable {c d parent : ClassDef}

theorem eq_withParent_of_inherit (hi : c.inherit parent = .ok d) : d = c.withParent parent := by
  obtain ⟨_, -, hd⟩ := exists_of_bind_eq_ok hi
  cases hd
  rfl

theorem ancestors_of_parent? (hp : d.parent? = some parent) :
    d.ancestors = d :: parent.ancestors := by
  rw [ancestors_eq, hp]

theorem parent?_compose (h : Heap) (c : ClassDef) (traits : List ClassDef) :
    (c.compose h traits).1.parent? = c.parent? := by
  obtain ⟨_, _, _, heq⟩ := exists_eq_of_reflTransGen (reflTransGen_compose h c traits)
  rw [heq]

/-- What holds of all ancestors of a class holds of those of a class with the same parent, if it
holds of this class. -/
theorem forall_mem_ancestors_of_parent?_eq {Q : ClassDef → Prop} (hp : d.parent? = c.parent?)
    (hc : ∀ a ∈ c.ancestors, Q a) (hd : Q d) : ∀ a ∈ d.ancestors, Q a := by
  rw [ancestors_eq, List.forall_mem_cons] at hc ⊢
  rw [hp]
  exact ⟨hd, hc.2⟩

/-- Every ancestor of a class that was put together has its properties under their names. -/
theorem Assembled.hasNamedProperties (hd : d.Assembled) :
    ∀ a ∈ d.ancestors, a.HasNamedProperties := by
  induction hd with
  | declared hp hn =>
    rw [ancestors_eq, hp]
    exact List.forall_mem_singleton.2 hn
  | @addProperty c p _ ih =>
    refine forall_mem_ancestors_of_parent?_eq (c := c) rfl ih fun name q hq => ?_
    obtain ⟨rfl, rfl⟩ | hold := OrderedMap.of_get?_insert hq
    · rfl
    · exact ih c c.self_mem_ancestors name q hold
  | @markReadonly c _ ih =>
    refine forall_mem_ancestors_of_parent?_eq (c := c) rfl ih fun name q hq => ?_
    rw [ClassTable.markReadonly, OrderedMap.get?_map] at hq
    obtain ⟨q', hq', rfl⟩ := Option.map_eq_some_iff.1 hq
    exact ih c c.self_mem_ancestors name q' hq'
  | @inherit c parent d _ _ hi ihc ihp =>
    obtain rfl := eq_withParent_of_inherit hi
    rw [ancestors_of_parent? rfl, List.forall_mem_cons]
    refine ⟨fun name q hq => ?_, ihp⟩
    rw [withParent, get?_inheritMembers, Option.or_eq_some_iff, Option.filter_eq_some_iff] at hq
    obtain hq | ⟨-, hq, -⟩ := hq
    · exact ihc c c.self_mem_ancestors name q hq
    · exact ihp parent parent.self_mem_ancestors name q hq
  | @compose c traits h _ _ ih iht =>
    refine forall_mem_ancestors_of_parent?_eq (parent?_compose h c traits) ih fun name q hq => ?_
    obtain hq | ⟨trait, ht, q', hq', rfl⟩ :=
      get?_properties_of_reflTransGen (reflTransGen_compose h c traits) hq
    · exact ih c c.self_mem_ancestors name q hq
    · exact iht trait ht trait trait.self_mem_ancestors name q' hq'
  | @keep c d _ hprops hparent ih =>
    refine forall_mem_ancestors_of_parent?_eq hparent ih fun name q hq => ?_
    rw [hprops] at hq
    exact ih c c.self_mem_ancestors name q hq

/-- Compositions leave a class linked to its parent. -/
theorem Assembled.of_composedInto (hc : c.Assembled) (hu : Relation.ReflTransGen ComposedInto c d) :
    d.Assembled ∧ d.parent? = c.parent? := by
  induction hu with
  | refl => exact ⟨hc, rfl⟩
  | tail _ hstep ih =>
    obtain ⟨h, traits, ht, rfl⟩ := hstep
    exact ⟨.compose h ih.1 ht, (parent?_compose h _ traits).trans ih.2⟩

/-- A class writes its own properties over the slots of its parent. -/
theorem instanceProperties_of_parent? (hp : d.parent? = some parent) :
    d.instanceProperties = parent.instanceProperties.insertMany d.ownSlots := by
  rw [instanceProperties, ancestors_of_parent? hp, List.reverse_cons, List.flatMap_append,
    List.flatMap_singleton, OrderedMap.ofList, OrderedMap.insertMany, List.foldl_append]
  rfl

/-- After the slots of its parent a class has those of its own properties whose names are new. -/
theorem keys_instanceProperties (hd : d.HasNamedProperties) (hp : d.parent? = some parent) :
    d.instanceProperties.keys = parent.instanceProperties.keys ++
      (d.ownInstanceProperties.map (·.name)).filter (· ∉ parent.instanceProperties.keys) := by
  rw [instanceProperties_of_parent? hp, OrderedMap.keys_insertMany hd.nodup_ownSlots, ownSlots,
    List.map_map]
  rfl

/-- A class begins with the slots of each of its ancestors. -/
theorem keys_prefix_of_mem_ancestors (hd : ∀ a ∈ d.ancestors, a.HasNamedProperties) :
    ∀ a ∈ d.ancestors, a.instanceProperties.keys <+: d.instanceProperties.keys := by
  induction d using ancestors.induct with
  | case1 decl parent is ih =>
    have hp : (ClassDef.mk decl (some parent) is).parent? = some parent := rfl
    rw [ancestors_of_parent? hp, List.forall_mem_cons] at hd ⊢
    refine ⟨List.prefix_rfl, fun a ha => (ih hd.2 a ha).trans ?_⟩
    rw [keys_instanceProperties hd.1 hp]
    exact List.prefix_append _ _
  | case2 decl is =>
    rw [ancestors]
    exact List.forall_mem_singleton.2 List.prefix_rfl

structure ExtendsSlots (d parent : ClassDef) : Prop where
  /-- The slots of the parent come first, then the own properties of new names. -/
  keys_eq : d.instanceProperties.keys = parent.instanceProperties.keys ++
    (d.ownInstanceProperties.map (·.name)).filter (· ∉ parent.instanceProperties.keys)
  /-- The class begins like each class above it. -/
  keys_prefix : ∀ a ∈ parent.ancestors,
    a.instanceProperties.keys <+: d.instanceProperties.keys
  /-- A slot is the own property of the class or, going up from it, of the first that has one of the
  name that is not static. -/
  get?_eq : ∀ name, d.instanceProperties.get? name =
    (d :: parent.ancestors).findSome? fun a => (a.ownProperty? name).filter (!·.isStatic)
  nodup_keys : d.instanceProperties.keys.Nodup
  /-- A new object has these slots in this order. -/
  of_instantiate : d.isInstantiable = true → ∀ h : Heap, ∃ h' r, h.instantiate d = .ok (h', r) ∧
    (h'.object r).slots.keys = d.instanceProperties.keys ∧
    ∀ name s, (h'.object r).slots.get? name = some s →
      ∃ p, d.instanceProperties.get? name = some p ∧ s = .ofProperty p s.value

variable {c' : ClassDef}

theorem Assembled.extendsSlots (hd : d.Assembled) (hp : d.parent? = some parent) :
    d.ExtendsSlots parent := by
  have hnames := hd.hasNamedProperties
  have hancestors := ancestors_of_parent? hp
  refine ⟨keys_instanceProperties (hnames d d.self_mem_ancestors) hp, fun a ha => ?_,
    fun name => ?_, d.instanceProperties.nodup_keys, fun hi h => ?_⟩
  · apply keys_prefix_of_mem_ancestors hnames
    rw [hancestors]
    exact List.mem_cons_of_mem d ha
  · rw [get?_instanceProperties_eq_nearest hnames, hancestors]
  · obtain ⟨h', r, hr, ho⟩ := Heap.exists_instantiate hi h
    exact ⟨h', r, hr, ho.keys_eq, ho.exists_of_get?⟩

/-- A class that was linked to a parent, and into which traits may have been composed since, begins
with the slots of its parent in their order, whatever it declares again. What a slot is says the
nearest of the class and its ancestors that has an instance property of the name itself. No name
comes twice, and a new object has exactly these slots in this order. -/
theorem Assembled.extendsSlots_of_inherit (hc : c.Assembled) (hparent : parent.Assembled)
    (hi : c.inherit parent = .ok c') (hu : Relation.ReflTransGen ComposedInto c' d) :
    d.parent? = some parent ∧ d.ExtendsSlots parent := by
  obtain ⟨hd, hkept⟩ := Assembled.of_composedInto (.inherit hc hparent hi) hu
  have hp : d.parent? = some parent := by
    rw [hkept, eq_withParent_of_inherit hi]
    rfl
  exact ⟨hp, hd.extendsSlots hp⟩

def declaring (name : String) (kind : ClassKind) (properties : List String) : ClassDef :=
  properties.foldl (fun c p => c.addProperty { name := p, default := .null }) { name, kind }

theorem assembled_declaring (name : String) (kind : ClassKind) (properties : List String) :
    (declaring name kind properties).Assembled := by
  refine List.foldlRecOn (motive := Assembled) properties _ (.declared rfl ?_) ?_
  · intro name p hp
    cases hp
  · intro c hc p _
    exact hc.addProperty _

/-- Three classes in a row and a trait: `C` declares `a` of the first class again and takes `b` from
the trait. Both keep their places and are properties of `C`. -/
theorem extendsSlots_of_trait_user :
    ∃ c' d parent : ClassDef, (declaring "P" .plain ["b", "c"]).inherit
        (declaring "G" .plain ["a", "b"]) = .ok parent ∧
      (declaring "C" .plain ["d", "a"]).inherit parent = .ok c' ∧
      Relation.ReflTransGen ComposedInto c' d ∧ d.parent? = some parent ∧ d.ExtendsSlots parent ∧
      d.isInstantiable = true ∧ parent.instanceProperties.keys = ["a", "b", "c"] ∧
      d.instanceProperties.entries.map (fun e => (e.1, e.2.declaringClass)) =
        [("a", "C"), ("b", "C"), ("c", "P"), ("d", "C"), ("e", "C")] := by
  obtain ⟨parent, hparent⟩ : ∃ parent, (declaring "P" .plain ["b", "c"]).inherit
      (declaring "G" .plain ["a", "b"]) = .ok parent := ⟨_, rfl⟩
  obtain ⟨c', hc'⟩ : ∃ c', (declaring "C" .plain ["d", "a"]).inherit parent = .ok c' := by
    cases hparent
    exact ⟨_, rfl⟩
  have hcomposed : Relation.ReflTransGen ComposedInto c'
      (c'.compose {} [declaring "T" .trait ["e", "b"]]).1 :=
    .single ⟨{}, _, List.forall_mem_singleton.2 (assembled_declaring _ _ _), rfl⟩
  have hextends := Assembled.extendsSlots_of_inherit (assembled_declaring _ _ _)
    (.inherit (assembled_declaring _ _ _) (assembled_declaring _ _ _) hparent) hc' hcomposed
  refine ⟨c', _, parent, hparent, hc', hcomposed, hextends.1, hextends.2, ?_⟩
  cases hparent
  cases hc'
  decide

end ClassDef

/-- The classes of a reachable table were put together step by step. -/
theorem ClassTable.Reachable.assembled {t : ClassTable} (ht : t.Reachable) :
    ∀ c ∈ t.classes.values, c.Assembled := by
  apply ht.induction_on (Q := fun _ c => c.Assembled)
  · intro _ _ _ _ hc
    exact hc
  · intro t t' h h' c d _ hc hd ih
    obtain ⟨c₁, c₂, l, b, s, h₁, h₂, h₃, -, rfl⟩ := exists_stages_of_declare hd
    have hfresh : (markReadonly c).Assembled :=
      .markReadonly (.declared hc.parent?_eq_none fun name p hp =>
        (hc.of_get?_properties name p hp).1)
    have hlinked : c₁.Assembled := by
      obtain ⟨-, rfl⟩ | ⟨_, parent, -, hp, hcheck, rfl⟩ := exists_of_linkParent h₁
      · exact hfresh
      · refine hfresh.inherit (ih parent (mem_values_of_get? hp)) ?_
        rw [ClassDef.inherit, hcheck]
        rfl
    have hcomposed : c₂.Assembled := by
      obtain rfl | ⟨traits, htraits, hu⟩ := useTraits_of_linkTraits h₂
      · exact hlinked
      · have hcompose : (c₁.compose h traits).1.Assembled := .compose h hlinked fun trait hm => by
          obtain ⟨_, -, htrait⟩ := htraits trait hm
          exact ih trait (mem_values_of_get? htrait)
        rwa [ClassDef.compose_of_useTraits hu] at hcompose
    obtain ⟨ks, is, rfl⟩ := exists_of_linkInterfaces h₃
    exact hcomposed.keep rfl rfl

/-- So a declared class lays out its slots as an extension of those of its parent. -/
theorem ClassTable.Reachable.extendsSlots {t : ClassTable} {c parent : ClassDef}
    (ht : t.Reachable) (hc : c ∈ t.classes.values) (hp : c.parent? = some parent) :
    c.ExtendsSlots parent :=
  (ht.assembled c hc).extendsSlots hp

end ObjectModel
