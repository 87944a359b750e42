import Mathlib.Logic.Basic
import ObjectModel.Class.Typing
import ObjectModel.Proofs.Class.Supertypes
/-!
# Subtyping

To be an instance of a name is a question about names: some ancestor has it, or some interface that
is reached from one. In a table where only classes in the narrow sense extend others, a class found
under a name of the first kind hands down its own supertypes along the chain of parents, and one of
the second kind is an interface without a parent, whose supertypes are the interfaces reached from
it. So subtyping is transitive, `Reachable.instanceOf_trans`, and a declared type that takes the
objects of a class takes those of its subtypes. `Reachable.subtyping` puts this together with the
list of all interfaces of a class, which represents every interface once.
-/

namespace ObjectModel

namespace ClassDef

variable {c a d : ClassDef} {n : String}

theorem instanceOf_iff : c.instanceOf n = true ↔
    (∃ a ∈ c.ancestors, a.isNamed n = true) ∨ ∃ i ∈ c.reachableInterfaces, i.isNamed n = true := by
  rw [instanceOf, Bool.or_eq_true, isSubclassOf, implementsInterface, List.any_eq_true,
    List.any_eq_true]

/-- The list of all interfaces of a class has a name, in some spelling, just if one of the
interfaces that are reached has it. -/
theorem exists_same_interfaceNamesClosure_iff :
    (∃ name ∈ c.interfaceNamesClosure, Name.same name n = true) ↔
      ∃ i ∈ c.reachableInterfaces, i.isNamed n = true := by
  simp only [isNamed, Name.same, beq_iff_eq]
  rw [interfaceNamesClosure]
  refine exists_mem_eraseDupsBy_iff.trans ?_
  simp only [List.mem_map, exists_exists_and_eq_and]

/-- The list of all interfaces of a class has no two spellings of one name. -/
theorem pairwise_interfaceNamesClosure (c : ClassDef) :
    c.interfaceNamesClosure.Pairwise fun a b => Name.same a b = false := by
  refine (pairwise_eraseDupsBy Name.foldCase _).imp fun hne => ?_
  rwa [Name.same, beq_eq_false_iff_ne]

/-- A class is an instance of its own name, the names of its ancestors, and the names on the list of
all its interfaces, in any spelling. -/
theorem instanceOf_iff_same : c.instanceOf n = true ↔
    Name.same c.name n = true ∨ (∃ a ∈ c.ancestors.tail, Name.same a.name n = true) ∨
      ∃ name ∈ c.interfaceNamesClosure, Name.same name n = true := by
  rw [instanceOf_iff, exists_same_interfaceNamesClosure_iff, ancestors_eq]
  simp only [List.mem_cons, exists_eq_or_imp, or_assoc]
  rfl

/-- The ancestors of an ancestor are ancestors. -/
theorem ancestors_subset (ha : a ∈ c.ancestors) : a.ancestors ⊆ c.ancestors := by
  induction c using ancestors.induct with
  | case1 d p is ih =>
    rw [ancestors] at ha ⊢
    obtain rfl | ha := List.mem_cons.1 ha
    · rw [ancestors]
      exact List.Subset.refl _
    · exact List.Subset.trans (ih ha) (List.subset_cons_self _ _)
  | case2 d is =>
    rw [ancestors, List.mem_singleton] at ha
    rw [ha]
    exact List.Subset.refl _

/-- A class reaches the interfaces that its ancestors reach. -/
theorem reachableInterfaces_subset (ha : a ∈ c.ancestors) :
    a.reachableInterfaces ⊆ c.reachableInterfaces := by
  intro j hj
  obtain ⟨b, hb, hj⟩ := mem_reachableInterfaces.1 hj
  exact mem_reachableInterfaces.2 ⟨b, ancestors_subset ha hb, hj⟩

/-- A class is an instance of everything that its ancestors are. -/
theorem instanceOf_of_mem_ancestors (ha : a ∈ c.ancestors) (hn : a.instanceOf n = true) :
    c.instanceOf n = true :=
  instanceOf_iff.2 <| (instanceOf_iff.1 hn).imp
    (fun ⟨b, hb, hbn⟩ => ⟨b, ancestors_subset ha hb, hbn⟩)
    (fun ⟨i, hi, hin⟩ => ⟨i, reachableInterfaces_subset ha hi, hin⟩)

end ClassDef

namespace Heap

variable {h h' : Heap} {r r' : ObjectRef}

mutual

/-- A type that takes an object takes every object whose class is an instance of as many names. -/
theorem conforms_of_instanceOf
    (hr : ∀ n, (h.object r).cls.instanceOf n = true → (h'.object r').cls.instanceOf n = true) :
    ∀ T : TypeHint, h.conforms (.object r) T = true → h'.conforms (.object r') T = true
  | .int | .float | .string | .bool | .array | .null => nofun
  | .object | .mixed => fun _ => rfl
  | .iterable => hr "Traversable"
  | .cls name => hr name
  | .nullable inner => conforms_of_instanceOf hr inner
  | .union members => conformsToAny_of_instanceOf hr members

theorem conformsToAny_of_instanceOf
    (hr : ∀ n, (h.object r).cls.instanceOf n = true → (h'.object r').cls.instanceOf n = true) :
    ∀ Ts : List TypeHint, h.conformsToAny (.object r) Ts = true →
      h'.conformsToAny (.object r') Ts = true
  | [] => nofun
  | T :: Ts => by
    rw [conformsToAny, conformsToAny, Bool.or_eq_true, Bool.or_eq_true]
    exact Or.imp (conforms_of_instanceOf hr T) (conformsToAny_of_instanceOf hr Ts)

end

end Heap

namespace ClassTable

variable {t : ClassTable} {c d i j : ClassDef}

/-- What is reached from an interface that is reached is reached itself. -/
theorem Reachable.closure_subset (ht : t.Reachable) :
    ∀ c ∈ t.classes.values, ∀ i ∈ c.closure, i.closure ⊆ c.closure := by
  apply ht.induction_on (Q := fun _ c => ∀ i ∈ c.closure, i.closure ⊆ c.closure)
  · intro _ _ _ _ hc
    exact hc
  · intro t t' h h' c d ht hc hd ih i hi
    rw [ClassDef.closure_eq] at hi
    obtain rfl | hi := List.mem_cons.1 hi
    · exact List.Subset.refl _
    · obtain ⟨k, hk, hi⟩ := List.mem_flatMap.1 hi
      intro j hj
      have hkt := ht.mem_of_mem_interfaces_of_declare hc hd hk
      exact ClassDef.mem_closure_of_mem_interfaces hk (ih k hkt i hi hj)

/-- What a class reaches by way of interfaces are interfaces. -/
theorem Reachable.kind_of_mem_reachableInterfaces (ht : t.Reachable) (hc : c ∈ t.classes.values)
    (hi : i ∈ c.reachableInterfaces) : i.kind = .interface := by
  have hclosure : ∀ e ∈ t.classes.values, ∀ j ∈ e.closure, j = e ∨ j.kind = .interface := by
    apply ht.induction_on (Q := fun _ e => ∀ j ∈ e.closure, j = e ∨ j.kind = .interface)
    · intro _ _ _ _ hc
      exact hc
    · intro t t' h h' c d ht hc hd ih j hj
      rw [ClassDef.closure_eq] at hj
      refine (List.mem_cons.1 hj).imp_right fun hj => ?_
      obtain ⟨k, hk, hj⟩ := List.mem_flatMap.1 hj
      obtain rfl | hj := ih k (ht.mem_of_mem_interfaces_of_declare hc hd hk) j hj
      · exact (ht.declare hc hd).of_mem_interfaces d (mem_values_of_get? (get?_self_of_declare hd))
          j hk |>.2
      · exact hj
  obtain ⟨k, hk, hi⟩ := (ht.mem_reachableInterfaces_iff hc).1 hi
  obtain ⟨hkt, hkind⟩ := ht.of_mem_interfaces c hc k hk
  obtain rfl | hi := hclosure k hkt i hi
  · exact hkind
  · exact hi

/-- A linked parent has been named. -/
theorem Reachable.parentName?_isSome (ht : t.Reachable) :
    ∀ c ∈ t.classes.values, c.parent?.isSome → c.parentName?.isSome := by
  apply ht.induction_on (Q := fun _ c => c.parent?.isSome → c.parentName?.isSome)
  · intro _ _ _ _ hc
    exact hc
  · intro t t' h h' c d _ hc hd _ hp
    obtain ⟨-, -, -, c₁, c₂, traits, ks, is, b, s, h₁, -, hg, rfl⟩ := exists_of_declare hd
    obtain ⟨_, _, _, rfl⟩ := ClassDef.exists_eq_of_reflTransGen hg
    obtain ⟨-, rfl⟩ | ⟨name, parent, -, -, -, rfl⟩ := exists_of_linkParent h₁
    · cases hc.parent?_eq_none ▸ hp
    · rfl

/-- Where only classes in the narrow sense extend others, an interface has no ancestor but itself. -/
theorem Reachable.ancestors_of_interface (ht : t.Reachable)
    (hext : ∀ c ∈ t.classes.values, c.parentName?.isSome → c.kind = .plain)
    (hi : i ∈ t.classes.values) (hk : i.kind = .interface) : i.ancestors = [i] := by
  rw [ClassDef.ancestors_eq]
  cases hp : i.parent? with
  | none => rfl
  | some p =>
    have hplain := hext i hi (ht.parentName?_isSome i hi (by rw [hp]; rfl))
    cases hplain.symm.trans hk

/-- Subtyping is transitive where only classes in the narrow sense extend others. -/
theorem Reachable.instanceOf_trans (ht : t.Reachable)
    (hext : ∀ c ∈ t.classes.values, c.parentName?.isSome → c.kind = .plain)
    (hc : c ∈ t.classes.values) (hd : d ∈ t.classes.values) (hcd : c.instanceOf d.name = true)
    {n : String} (hn : d.instanceOf n = true) : c.instanceOf n = true := by
  obtain ⟨a, ha, had⟩ | ⟨i, hi, hid⟩ := ClassDef.instanceOf_iff.1 hcd
  · cases ht.eq_of_isNamed (ht.mem_of_mem_ancestors c hc a ha) hd had
    exact ClassDef.instanceOf_of_mem_ancestors ha hn
  · obtain rfl : i = d := ht.eq_of_isNamed (ht.mem_of_mem_reachableInterfaces hc hi) hd hid
    -- the chain of parents of an interface is the interface itself
    have hself := ht.ancestors_of_interface hext hd (ht.kind_of_mem_reachableInterfaces hc hi)
    have hreach : ∃ j ∈ i.closure, j.isNamed n = true := by
      obtain ⟨a, ha, han⟩ | ⟨j, hj, hjn⟩ := ClassDef.instanceOf_iff.1 hn
      · rw [hself, List.mem_singleton] at ha
        exact ⟨i, i.self_mem_closure, ha ▸ han⟩
      · obtain ⟨k, hk, hj⟩ := (ht.mem_reachableInterfaces_iff hd).1 hj
        exact ⟨j, ClassDef.mem_closure_of_mem_interfaces hk hj, hjn⟩
    obtain ⟨j, hj, hjn⟩ := hreach
    obtain ⟨k, hk, hik⟩ := (ht.mem_reachableInterfaces_iff hc).1 hi
    have hjk := ht.closure_subset k (ht.of_mem_interfaces c hc k hk).1 i hik hj
    exact ClassDef.instanceOf_iff.2 <| .inr
      ⟨j, (ht.mem_reachableInterfaces_iff hc).2 ⟨k, hk, hjk⟩, hjn⟩

/-- Subtyping in a table where only classes in the narrow sense extend others: a class is an instance
of exactly the names of its ancestors and of the interfaces on its list, which names each once; and
what is a supertype of a supertype, or takes the objects of one, is a supertype or takes the objects
of the class. -/
theorem Reachable.subtyping (ht : t.Reachable)
    (hext : ∀ c ∈ t.classes.values, c.parentName?.isSome → c.kind = .plain)
    (hc : c ∈ t.classes.values) :
    (∀ n, c.instanceOf n = true ↔
      Name.same c.name n = true ∨ (∃ a ∈ c.ancestors.tail, Name.same a.name n = true) ∨
        ∃ name ∈ c.interfaceNamesClosure, Name.same name n = true) ∧
    (c.interfaceNamesClosure.Pairwise fun a b => Name.same a b = false) ∧
    ∀ d ∈ t.classes.values, c.instanceOf d.name = true →
      (∀ n, d.instanceOf n = true → c.instanceOf n = true) ∧
      ∀ (h h' : Heap) (v w : Val) (r r' : ObjectRef),
        h.deref v = .object r → (h.object r).cls = d →
        h'.deref w = .object r' → (h'.object r').cls = c →
        ∀ T : TypeHint, h.accepts T v = true → h'.accepts T w = true := by
  refine ⟨fun n => ClassDef.instanceOf_iff_same, c.pairwise_interfaceNamesClosure, ?_⟩
  intro d hd hcd
  have htrans (n : String) (hn : d.instanceOf n = true) : c.instanceOf n = true :=
    ht.instanceOf_trans hext hc hd hcd hn
  refine ⟨htrans, ?_⟩
  rintro h h' v w r r' hv rfl hw rfl T hT
  rw [Heap.accepts, hv] at hT
  rw [Heap.accepts, hw]
  exact Heap.conforms_of_instanceOf htrans T hT

/-- A class below one that implements an interface at the bottom of a diamond. -/
theorem subtyping_below_diamond :
    ∃ t : ClassTable, t.Reachable ∧
      (∀ c ∈ t.classes.values, c.parentName?.isSome → c.kind = .plain) ∧
      ∃ c ∈ t.classes.values, ∃ d ∈ t.classes.values, c.instanceOf d.name = true ∧
        d.instanceOf "traversable" = true ∧ c.instanceOf "traversable" = true ∧
        ∀ h h' : Heap, (h.object ⟨0⟩).cls = d → (h'.object ⟨0⟩).cls = c →
          h'.accepts (.union [.int, .nullable (.cls "traversable")]) (.object ⟨0⟩) = true := by
  obtain ⟨t, ht, hp⟩ := exists_table_of_declareAll
    [{ name := "Traversable", kind := .interface },
      { name := "Collection", kind := .interface, interfaceNames := ["Traversable"] },
      { name := "Countable", kind := .interface, interfaceNames := ["Traversable"] },
      { name := "Sized", kind := .interface, interfaceNames := ["collection", "Countable"] },
      { name := "Base", interfaceNames := ["Sized"] },
      { name := "Stack", parentName? := some "Base", interfaceNames := ["Countable"] }]
    (fun t => t.classes.values.all (fun c => c.parentName?.isNone || c.kind = .plain) &&
      (t.get? "Stack").any fun c => (t.get? "Base").any fun d =>
        c.instanceOf d.name && d.instanceOf "traversable")
    (by
      simp only [List.forall_mem_cons]
      exact ⟨.of_memberless rfl rfl rfl, .of_memberless rfl rfl rfl, .of_memberless rfl rfl rfl,
        .of_memberless rfl rfl rfl, .of_memberless rfl rfl rfl, .of_memberless rfl rfl rfl, nofun⟩)
    (by decide +kernel)
  simp only [Bool.and_eq_true, List.all_eq_true, Option.any_eq_true, Bool.or_eq_true,
    decide_eq_true_eq] at hp
  obtain ⟨hplain, c, hc, d, hd, hcd, hn⟩ := hp
  have hext : ∀ c ∈ t.classes.values, c.parentName?.isSome → c.kind = .plain := by
    intro e he hsome
    exact (hplain e he).resolve_left fun hnone => by simp_all
  have hdt := mem_values_of_get? hd
  obtain ⟨htrans, haccepts⟩ :=
    (ht.subtyping hext (mem_values_of_get? hc)).2.2 d hdt hcd
  refine ⟨t, ht, hext, c, mem_values_of_get? hc, d, hdt, hcd, hn, htrans _ hn, ?_⟩
  intro h h' hdh hch
  refine haccepts h h' (.object ⟨0⟩) (.object ⟨0⟩) ⟨0⟩ ⟨0⟩ (h.deref_eq_self rfl) hdh
    (h'.deref_eq_self rfl) hch _ ?_
  rw [Heap.accepts, h.deref_eq_self rfl]
  change (false || (false || (h.object ⟨0⟩).cls.instanceOf "traversable" || false)) = true
  rw [hdh, hn]
  rfl

end ClassTable

end ObjectModel
