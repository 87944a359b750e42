import ObjectModel.Proofs.Class.Overriding
/-!
# Abstract methods

A class whose methods need bodies is checked for abstract methods when it is declared, but only in
its own table, while a look-up goes on to the parent. The check sees every method that an ancestor
hands down, because a class has a method of that name itself then
(`Reachable.get?_methods_of_findMethod?`). It misses an abstract method that an ancestor keeps to
itself: a private one, a constructor or a destructor. `isAbstract_iff_of_findMethod?` says that such
a class dispatches to an abstract method in this case and in no other. That the case occurs is shown
last.
-/

namespace ObjectModel

namespace ClassDef

/-- Whether a class has an abstract method under a key that it does not hand down: a private one, a
constructor or a destructor. -/
def WithholdsAbstract (c : ClassDef) (key : String) : Prop :=
  ∃ m, c.methods.get? key = some m ∧ m.isAbstract = true ∧ m.isInheritable = false

/-- Whether the check for abstract methods misses the one that a look-up meets: the class has no
method of the key, and the nearest ancestor that has one withholds it. -/
def MissesAbstract (c : ClassDef) (key : String) : Prop :=
  c.methods.get? key = none ∧ ∃ a,
    c.ancestors.tail.find? (fun a => (a.methods.get? key).isSome) = some a ∧ a.WithholdsAbstract key

/-- A look-up goes to the ancestors if the class itself has no method of the name. -/
theorem findMethod?_of_get?_eq_none {c : ClassDef} {name : String}
    (h : c.methods.get? (Name.foldCase name) = none) :
    c.findMethod? name =
      c.ancestors.tail.findSome? (·.methods.get? (Name.foldCase name)) := by
  rw [findMethod?, ancestors_eq, List.findSome?_cons, h, List.tail_cons]

/-- Every method of a class needs a body if the class has objects. -/
theorem isConcrete_of_isInstantiable_or_isEnum {c : ClassDef}
    (h : c.isInstantiable = true ∨ c.isEnum = true) : c.isConcrete = true := by
  rw [isInstantiable, isEnum, Bool.and_eq_true, beq_iff_eq, beq_iff_eq] at h
  obtain ⟨hk, ha⟩ | hk := h
  · rw [isConcrete, hk]
    exact ha
  · rw [isConcrete, hk]

/-- A class that passes the check for abstract methods has none in its table. -/
theorem of_checkAbstract {c : ClassDef} (h : c.checkAbstract = .ok ()) (hc : c.isConcrete = true)
    {key : String} {m : MethodDef} (hm : c.methods.get? key = some m) : m.isAbstract = false := by
  rw [checkAbstract] at h
  split at h
  · rw [if_pos hc] at h
    cases h
  next hn =>
    have := List.find?_eq_none.1 hn m (OrderedMap.mem_values_iff.2 ⟨key, hm⟩)
    simpa using this

end ClassDef

namespace ClassTable

variable {t : ClassTable} {c : ClassDef} {name : String} {m : MethodDef}

/-- A method that is handed down is in the table of every class from which a look-up finds it. -/
theorem Reachable.get?_methods_of_findMethod? (ht : t.Reachable) :
    ∀ c ∈ t.classes.values, ∀ name m, c.findMethod? name = some m → m.isInheritable = true →
      c.methods.get? (Name.foldCase name) = some m := by
  apply ht.induction_on (Q := fun _ c => ∀ name m, c.findMethod? name = some m →
    m.isInheritable = true → c.methods.get? (Name.foldCase name) = some m)
  · intro _ _ _ _ hc
    exact hc
  · intro t t' h h' c d _ hc hd ih name m hm hi
    cases hget : d.methods.get? (Name.foldCase name) with
    | some n =>
      rw [ClassDef.findMethod?, ClassDef.ancestors_eq, List.findSome?_cons, hget] at hm
      exact hm
    | none =>
      rw [ClassDef.findMethod?_of_get?_eq_none hget] at hm
      obtain he | ⟨parent, hp, hparent, -, he⟩ := ancestors_of_declare hc hd
      · rw [he] at hm
        cases hm
      · -- the parent has the method in its table and would have handed it down
        rw [he, List.tail_cons] at hm
        have hsome := isSome_of_declare hd hc hparent (ih parent hp name m hm hi) hi
        rw [hget] at hsome
        cases hsome

/-- A class whose methods need bodies has no abstract method in its table. -/
theorem Reachable.isAbstract_of_get?_methods (ht : t.Reachable) : ∀ c ∈ t.classes.values,
    c.isConcrete = true → ∀ key m, c.methods.get? key = some m → m.isAbstract = false := by
  apply ht.induction_on
    (Q := fun _ c => c.isConcrete = true → ∀ key m, c.methods.get? key = some m →
      m.isAbstract = false)
  · intro _ _ _ _ hc
    exact hc
  · intro t t' h h' c d _ _ hd _ hcon key m hm
    obtain ⟨_, _, l, _, _, -, -, -, hcheck, rfl⟩ := exists_stages_of_declare hd
    exact ClassDef.of_checkAbstract (of_checkLinked_eq_ok hcheck).2.2 hcon hm

/-- A look-up from a class that has objects, or from an enumeration, finds an abstract method just
if the class has no method of the name and the nearest ancestor that has one withholds it: the
method is private, a constructor or a destructor. -/
theorem isAbstract_iff_of_findMethod? (ht : t.Reachable) (hc : c ∈ t.classes.values)
    (hi : c.isInstantiable = true ∨ c.isEnum = true) (hm : c.findMethod? name = some m) :
    m.isAbstract = true ↔ c.MissesAbstract (Name.foldCase name) := by
  have hown := ht.isAbstract_of_get?_methods c hc
    (ClassDef.isConcrete_of_isInstantiable_or_isEnum hi) (Name.foldCase name)
  constructor
  · intro ha
    have hnone : c.methods.get? (Name.foldCase name) = none := by
      cases hget : c.methods.get? (Name.foldCase name) with
      | none => rfl
      | some n =>
        rw [ClassDef.findMethod?, ClassDef.ancestors_eq, List.findSome?_cons, hget] at hm
        cases hm
        rw [hown m hget] at ha
        cases ha
    have hkept : m.isInheritable = false := by
      apply Bool.eq_false_iff.2
      intro h
      rw [ht.get?_methods_of_findMethod? c hc name m hm h] at hnone
      cases hnone
    rw [ClassDef.findMethod?_of_get?_eq_none hnone, findSome?_eq_find?_bind,
      Option.bind_eq_some_iff] at hm
    obtain ⟨a, hf, hma⟩ := hm
    exact ⟨hnone, a, hf, m, hma, ha, hkept⟩
  · rintro ⟨hnone, a, hf, n, hn, ha, -⟩
    rw [ClassDef.findMethod?_of_get?_eq_none hnone, findSome?_eq_find?_bind, hf, Option.bind_some,
      hn] at hm
    cases hm
    exact ha

/-- An abstract method that a class in between leaves open is found with a body below. -/
theorem isAbstract_iff_of_findMethod?_two_levels_below :
    ∃ t : ClassTable, t.Reachable ∧ ∃ c ∈ t.classes.values, c.isInstantiable = true ∧
      ∃ m, c.findMethod? "Area" = some m ∧
        (m.isAbstract = true ↔ c.MissesAbstract (Name.foldCase "Area")) ∧
        m.declaringClass = "Square" ∧ ∃ a ∈ c.ancestors.tail, ∃ n,
          a.findMethod? "Area" = some n ∧ n.isAbstract = true := by
  obtain ⟨t, ht, c, hc, hp⟩ := exists_of_declareAll
    [({ name := "Shape", isAbstract := true } : ClassDef).addMethod
        { name := "area", isAbstract := true },
      { name := "Polygon", isAbstract := true, parentName? := some "Shape" },
      ({ name := "Square", parentName? := some "Polygon" } : ClassDef).addMethod
        { name := "area" }]
    "Square"
    (fun c => c.isInstantiable && (c.findMethod? "Area").any (·.declaringClass = "Square") &&
      c.ancestors.tail.any fun a => (a.findMethod? "Area").any (·.isAbstract))
    (by
      simp only [List.forall_mem_cons]
      exact ⟨.addMethod (.of_memberless rfl rfl rfl) _, .of_memberless rfl rfl rfl,
        .addMethod (.of_memberless rfl rfl rfl) _, nofun⟩)
    (by decide)
  simp only [Bool.and_eq_true, List.any_eq_true] at hp
  obtain ⟨⟨hi, hm⟩, a, ha, hn⟩ := hp
  obtain ⟨m, hm, hdecl⟩ := (Option.any_eq_true _ _).1 hm
  obtain ⟨n, hn, habs⟩ := (Option.any_eq_true _ _).1 hn
  exact ⟨t, ht, c, hc, hi, m, hm, isAbstract_iff_of_findMethod? ht hc (.inl hi) hm,
    of_decide_eq_true hdecl, a, ha, n, hn, habs⟩

private theorem exists_of_foundAbstract (cs : List ClassDef) (cls name : String)
    (hcs : ∀ c ∈ cs, c.IsFresh)
    (h : ((declareAll {} {} cs).toOption.bind (·.1.get? cls)).any
      (fun c => c.isInstantiable && (c.findMethod? name).any (·.isAbstract)) = true) :
    ∃ t : ClassTable, t.Reachable ∧ ∃ c ∈ t.classes.values, c.isInstantiable = true ∧
      ∃ m, c.findMethod? name = some m ∧ m.isAbstract = true := by
  obtain ⟨t, ht, c, hc, hp⟩ := exists_of_declareAll cs cls _ hcs h
  obtain ⟨hi, hm⟩ := Bool.and_eq_true_iff.1 hp
  obtain ⟨m, hm, ha⟩ := (Option.any_eq_true _ _).1 hm
  exact ⟨t, ht, c, hc, hi, m, hm, ha⟩

/-- A class has objects although its constructor is abstract. -/
theorem exists_instantiable_with_abstract_constructor :
    ∃ t : ClassTable, t.Reachable ∧ ∃ c ∈ t.classes.values, c.isInstantiable = true ∧
      ∃ m, c.findMethod? "__construct" = some m ∧ m.isAbstract = true :=
  exists_of_foundAbstract
    [({ name := "A", isAbstract := true } : ClassDef).addMethod
        { name := "__construct", isAbstract := true },
      { name := "B", parentName? := some "A" }]
    "B" "__construct"
    (by
      simp only [List.forall_mem_cons]
      exact ⟨.addMethod (.of_memberless rfl rfl rfl) _, .of_memberless rfl rfl rfl, nofun⟩)
    (by decide)

/-- A class has objects although a look-up finds a private abstract method of its parent. -/
theorem exists_instantiable_with_private_abstract_method :
    ∃ t : ClassTable, t.Reachable ∧ ∃ c ∈ t.classes.values, c.isInstantiable = true ∧
      ∃ m, c.findMethod? "m" = some m ∧ m.isAbstract = true :=
  exists_of_foundAbstract
    [({ name := "A", isAbstract := true } : ClassDef).addMethod
        { name := "m", visibility := .isPrivate, isAbstract := true },
      { name := "B", parentName? := some "A" }]
    "B" "m"
    (by
      simp only [List.forall_mem_cons]
      exact ⟨.addMethod (.of_memberless rfl rfl rfl) _, .of_memberless rfl rfl rfl, nofun⟩)
    (by decide)

end ClassTable

end ObjectModel
