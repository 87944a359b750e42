import ObjectModel.Proofs.Class.Overriding
import ObjectModel.Proofs.Class.Supertypes
/-!
# The methods that interfaces ask for

A class whose objects can exist is checked against every interface in its list, and its list has all
interfaces of its ancestors; what an interface asks for includes the methods of the interfaces that
it extends. So the class offers, in public, a method under each key of each interface that it is an
instance of. The number of parameters is another matter. Of several methods under one key the first
counts, where an interface comes before those that it extends, and the others are not compared with
anything: an interface can mask a method of one that it extends. Up to that the numbers agree,
`Reachable.findMethod?_of_instanceOf`.
-/

namespace ObjectModel

namespace ClassDef

/-- The method that counts when an interface asks for one under a key. -/
def requiredMethod? (i : ClassDef) (key : String) : Option MethodDef :=
  i.closure.findSome? (·.methods.get? key)

/-- Whether what counts under the key of a method has another number of parameters. -/
def Masks (i : ClassDef) (m : MethodDef) : Prop :=
  ∃ n, i.requiredMethod? m.key = some n ∧ n.params ≠ m.params

variable {c i j : ClassDef} {key : String} {m n : MethodDef}

/-- Something counts under every key of an interface that is extended. -/
theorem exists_requiredMethod? (hi : i ∈ j.closure) (hm : i.methods.get? key = some m) :
    ∃ n, j.requiredMethod? key = some n := by
  rw [requiredMethod?, ← Option.isSome_iff_exists, List.findSome?_isSome_iff]
  exact ⟨i, hi, by rw [hm]; rfl⟩

/-- What counts is what an interface is checked for. -/
theorem exists_mem_requiredMethods (hk : ∀ k ∈ j.closure, k.KeysMethods)
    (hn : j.requiredMethod? key = some n) : ∃ owner, (owner, n) ∈ j.requiredMethods := by
  have hfind : j.requiredMethods.find? (·.2.key == key) =
      j.closure.findSome? fun k => (k.methods.get? key).map fun m => (k, m) := by
    rw [requiredMethods, find?_eraseDupsBy fun e : ClassDef × MethodDef => e.2.key,
      List.find?_flatMap]
    refine findSome?_congr fun k hm => ?_
    rw [List.find?_map, ← OrderedMap.find?_values (hk k hm)]
    rfl
  rw [requiredMethod?, List.findSome?_eq_some_iff] at hn
  obtain ⟨before, owner, after, he, hn, hbefore⟩ := hn
  refine ⟨owner, List.mem_of_find?_eq_some (hfind.trans ?_)⟩
  rw [List.findSome?_eq_some_iff]
  refine ⟨before, owner, after, he, by rw [hn, Option.map_some], ?_⟩
  intro k hm
  rw [hbefore k hm, Option.map_none]

theorem satisfies_of_checkInterface (h : c.checkInterface i = .ok ()) :
    ∀ e ∈ i.requiredMethods, c.satisfies e.2 = true := by
  rintro ⟨owner, m⟩ he
  have hcheck := forM_eq_ok_iff.1 h (owner, m) he
  dsimp only at hcheck
  split at hcheck
  next hs => exact hs
  next => cases hcheck

theorem exists_of_satisfies (h : c.satisfies m = true) :
    ∃ own, c.findMethod? m.name = some own ∧ own.visibility = .isPublic ∧
      own.params = m.params := by
  obtain ⟨own, hf, hown⟩ := (Option.any_eq_true _ _).1 h
  rw [Bool.and_eq_true, decide_eq_true_eq, beq_iff_eq] at hown
  exact ⟨own, hf, hown.1, hown.2⟩

end ClassDef

namespace ClassTable

variable {t : ClassTable} {c i j : ClassDef} {key : String} {m n : MethodDef}

/-- A class whose objects can exist offers what its interfaces are checked for. -/
theorem Reachable.satisfies_requiredMethods (ht : t.Reachable) :
    ∀ c ∈ t.classes.values, (c.isInstantiable || c.isEnum) = true →
      ∀ i ∈ c.interfaces, ∀ e ∈ i.requiredMethods, c.satisfies e.2 = true := by
  apply ht.induction_on (Q := fun _ c => (c.isInstantiable || c.isEnum) = true →
    ∀ i ∈ c.interfaces, ∀ e ∈ i.requiredMethods, c.satisfies e.2 = true)
  · intro _ _ _ _ hc
    exact hc
  · intro t t' h h' c d _ _ hd _ hk i hi e he
    obtain ⟨_, _, l, b, s, -, -, -, hcheck, rfl⟩ := exists_stages_of_declare hd
    have hs := ClassDef.satisfies_of_checkInterface ((of_checkLinked_eq_ok hcheck).1 hk i hi) e he
    have hf : ({ l with allowsDynamic := b, storage? := s } : ClassDef).findMethod? e.2.name =
        l.findMethod? e.2.name := by
      rw [ClassDef.findMethod?, ClassDef.findMethod?, ClassDef.ancestors_eq,
        ClassDef.ancestors_eq l, List.findSome?_cons, List.findSome?_cons]
    rwa [ClassDef.satisfies, hf]

/-- What counts under the key of a method, for an interface in the list of a class, is what the
class offers under its name: in public, with the number of parameters that is asked for. -/
theorem Reachable.findMethod?_of_requiredMethod? (ht : t.Reachable) (hc : c ∈ t.classes.values)
    (hk : (c.isInstantiable || c.isEnum) = true) (hj : j ∈ c.interfaces)
    (hn : j.requiredMethod? m.key = some n) :
    ∃ own, c.findMethod? m.name = some own ∧ own.visibility = .isPublic ∧
      own.params = n.params := by
  have hjt := (ht.of_mem_interfaces c hc j hj).1
  have hkeys (k : ClassDef) (hm : k ∈ j.closure) : k.KeysMethods :=
    ht.keysMethods k (ht.mem_of_mem_closure j hjt k hm)
  have hname : Name.foldCase n.name = Name.foldCase m.name := by
    obtain ⟨k, hkj, hkn⟩ := List.exists_of_findSome?_eq_some hn
    exact hkeys k hkj _ n hkn
  obtain ⟨owner, hm⟩ := ClassDef.exists_mem_requiredMethods hkeys hn
  have hs : c.satisfies n = true := ht.satisfies_requiredMethods c hc hk j hj (owner, n) hm
  rw [ClassDef.findMethod?, ← hname]
  exact ClassDef.exists_of_satisfies hs

/-- A class whose objects can exist offers every method of every interface that it is an instance
of, in public. It takes the same number of parameters just if no interface of the class that extends
this one masks the method. -/
theorem Reachable.findMethod?_of_instanceOf (ht : t.Reachable) (hc : c ∈ t.classes.values)
    (hk : (c.isInstantiable || c.isEnum) = true) (hi : i ∈ t.classes.values)
    (hik : i.kind = .interface) (hci : c.instanceOf i.name = true)
    (hm : i.methods.get? key = some m) :
    ∃ own, c.findMethod? m.name = some own ∧ own.visibility = .isPublic ∧
      (own.params = m.params ↔ ∀ j ∈ c.interfaces, i ∈ j.closure → ¬ j.Masks m) := by
  have hck : c.kind ≠ .interface := by
    intro he
    simp [ClassDef.isInstantiable, ClassDef.isEnum, he] at hk
  have himpl := ht.implementsInterface_of_instanceOf hc hi hik hck hci
  obtain ⟨j, hj, hij⟩ := (ht.mem_reachableInterfaces_iff hc).1
    ((ht.implementsInterface_iff hc hi).1 himpl)
  obtain ⟨n, hn⟩ := ClassDef.exists_requiredMethod? hij hm
  rw [← ht.keysMethods i hi key m hm] at hn
  obtain ⟨own, hf, hv, hp⟩ := ht.findMethod?_of_requiredMethod? hc hk hj hn
  refine ⟨own, hf, hv, ?_, ?_⟩
  · rintro hown j' hj' - ⟨n', hn', hne⟩
    obtain ⟨own', hf', -, hp'⟩ := ht.findMethod?_of_requiredMethod? hc hk hj' hn'
    cases hf.symm.trans hf'
    exact hne (hp'.symm.trans hown)
  · intro hmask
    refine Decidable.byContradiction fun hne => ?_
    exact hmask j hj hij ⟨n, hn, fun he => hne (hp.trans he)⟩

/-- An interface of a class with a method that it declares. -/
private def obligation? (c : ClassDef) (interface method : String) :
    Option (ClassDef × MethodDef) := do
  let i ← c.reachableInterfaces.find? (·.isNamed interface)
  return (i, ← i.methods.get? method)

private theorem exists_of_obligation? (cs : List ClassDef) (cls interface method : String)
    (p : ClassDef → ClassDef → MethodDef → Bool) (hcs : ∀ c ∈ cs, c.IsFresh)
    (h : ((declareAll {} {} cs).toOption.bind (·.1.get? cls)).any
      (fun c => (obligation? c interface method).any fun (i, m) => p c i m) = true) :
    ∃ t : ClassTable, t.Reachable ∧ ∃ c ∈ t.classes.values, ∃ i ∈ t.classes.values, ∃ m,
      i.methods.get? method = some m ∧ p c i m = true := by
  obtain ⟨t, ht, c, hc, hp⟩ := exists_of_declareAll cs cls _ hcs h
  obtain ⟨⟨i, m⟩, hf, hp⟩ := (Option.any_eq_true _ _).1 hp
  obtain ⟨i', hi, hf⟩ := Option.bind_eq_some_iff.1 hf
  obtain ⟨m', hm, hf⟩ := Option.bind_eq_some_iff.1 hf
  cases hf
  have hit := ht.mem_of_mem_reachableInterfaces hc (List.mem_of_find?_eq_some hi)
  exact ⟨t, ht, c, hc, i, hit, m, hm, hp⟩

/-- An abstract class leaves a method to its subclass, and the interface that it names extends the
one that asks for it. -/
theorem findMethod?_of_instanceOf_through_parent :
    ∃ t : ClassTable, t.Reachable ∧ ∃ c ∈ t.classes.values, ∃ i ∈ t.classes.values, ∃ m,
      i.methods.get? "size" = some m ∧ (c.isInstantiable || c.isEnum) = true ∧
        i.kind = .interface ∧ c.instanceOf i.name = true ∧
        ∃ own, c.findMethod? m.name = some own ∧ own.visibility = .isPublic ∧
          (own.params = m.params ↔ ∀ j ∈ c.interfaces, i ∈ j.closure → ¬ j.Masks m) := by
  obtain ⟨t, ht, c, hc, i, hi, m, hm, hp⟩ := exists_of_obligation?
    [({ name := "Sized", kind := .interface } : ClassDef).addMethod
        { name := "size", isAbstract := true },
      { name := "Container", kind := .interface, interfaceNames := ["Sized"] },
      { name := "Base", isAbstract := true, interfaceNames := ["Container"] },
      ({ name := "Stack", parentName? := some "Base" } : ClassDef).addMethod { name := "size" }]
    "Stack" "Sized" "size"
    (fun c i _ => (c.isInstantiable || c.isEnum) && i.kind = .interface && c.instanceOf i.name)
    (by
      simp only [List.forall_mem_cons]
      exact ⟨.addMethod (.of_memberless rfl rfl rfl) _, .of_memberless rfl rfl rfl,
        .of_memberless rfl rfl rfl, .addMethod (.of_memberless rfl rfl rfl) _, nofun⟩)
    (by decide)
  simp only [Bool.and_eq_true, decide_eq_true_eq] at hp
  exact ⟨t, ht, c, hc, i, hi, m, hm, hp.1.1, hp.1.2, hp.2,
    ht.findMethod?_of_instanceOf hc hp.1.1 hi hp.1.2 hp.2 hm⟩

/-- An interface masks a method of the one that it extends, and an instance of both takes another
number of parameters than the latter asks for. -/
theorem exists_params_ne_of_masks :
    ∃ t : ClassTable, t.Reachable ∧ ∃ c ∈ t.classes.values, ∃ i ∈ t.classes.values, ∃ m,
      i.methods.get? "m" = some m ∧ (c.isInstantiable || c.isEnum) = true ∧
        i.kind = .interface ∧ c.instanceOf i.name = true ∧
        ¬ ∃ own, c.findMethod? m.name = some own ∧ own.visibility = .isPublic ∧
          own.params = m.params := by
  obtain ⟨t, ht, c, hc, i, hi, m, hm, hp⟩ := exists_of_obligation?
    [({ name := "J", kind := .interface } : ClassDef).addMethod
        { name := "m", isAbstract := true, params := 2 },
      ({ name := "I", kind := .interface, interfaceNames := ["J"] } : ClassDef).addMethod
        { name := "m", isAbstract := true, params := 1 },
      ({ name := "C", interfaceNames := ["I"] } : ClassDef).addMethod { name := "m", params := 1 }]
    "C" "J" "m"
    (fun c i m => (c.isInstantiable || c.isEnum) && i.kind = .interface && c.instanceOf i.name &&
      (c.findMethod? m.name).all (·.params ≠ m.params))
    (by
      simp only [List.forall_mem_cons]
      exact ⟨.addMethod (.of_memberless rfl rfl rfl) _, .addMethod (.of_memberless rfl rfl rfl) _,
        .addMethod (.of_memberless rfl rfl rfl) _, nofun⟩)
    (by decide)
  simp only [Bool.and_eq_true, decide_eq_true_eq, Option.all_eq_true] at hp
  refine ⟨t, ht, c, hc, i, hi, m, hm, hp.1.1.1, hp.1.1.2, hp.1.2, ?_⟩
  rintro ⟨own, hf, -, he⟩
  exact hp.2 own hf he

end ClassTable

end ObjectModel
