import ObjectModel.Proofs.Class.Reachable
/-!
# The supertypes of a class

Names that differ in case alone are one key of the table, so a class of a reachable table is
determined by its name up to case, `Reachable.eq_of_isNamed`. Hence an interface that a class gets
from its parent is never mistaken for another one: a class lists every interface of its ancestors
itself (`Reachable.interfaces_subset`), all of them are interfaces of the table, and what a class
implements is what is reached from its own list by following interfaces that extend others.
-/

namespace ObjectModel

namespace Name

private theorem toLower_eq_backslash_iff (c : Char) : c.toLower = '\\' ↔ c = '\\' := by
  by_cases h : c.val ≥ 'A'.val ∧ c.val ≤ 'Z'.val
  · have hv : c.toLower.val = c.val + 32 := congrArg Char.val (dif_pos h)
    simp only [Char.ext_iff, hv, ← UInt32.toNat_inj, ge_iff_le, UInt32.le_iff_toNat_le,
      UInt32.toNat_add, UInt32.reduceToNat, Char.reduceVal] at h ⊢
    omega
  · rw [show c.toLower = c from dif_neg h]

theorem beq_backslash_comp_toLower : (· == '\\') ∘ Char.toLower = (· == '\\') := by
  funext c
  rw [Function.comp_apply, Bool.eq_iff_iff, beq_iff_eq, beq_iff_eq, toLower_eq_backslash_iff]

theorem classKey_eq (name : String) : classKey name = unqualified (foldCase name) := by
  rw [classKey, foldCase, unqualified, unqualified, foldCase, String.toList_ofList,
    String.toList_ofList, List.dropWhile_map, beq_backslash_comp_toLower]

theorem classKey_congr {a b : String} (h : same a b = true) : classKey a = classKey b := by
  rw [classKey_eq, classKey_eq, beq_iff_eq.1 h]

end Name

namespace ClassDef

theorem closures_eq (is : List ClassDef) : closures is = is.flatMap closure := by
  induction is with
  | nil => rfl
  | cons i is ih => rw [closures, ih, List.flatMap_cons]

theorem closure_eq (c : ClassDef) : c.closure = c :: c.interfaces.flatMap closure := by
  cases c
  rw [closure, closures_eq]

theorem self_mem_closure (c : ClassDef) : c ∈ c.closure := by
  rw [closure_eq]
  exact List.mem_cons_self

theorem mem_closure_of_mem_interfaces {c i j : ClassDef} (hi : i ∈ c.interfaces)
    (hj : j ∈ i.closure) : j ∈ c.closure := by
  rw [closure_eq]
  exact List.mem_cons_of_mem c (List.mem_flatMap.2 ⟨i, hi, hj⟩)

theorem mem_reachableInterfaces {c j : ClassDef} :
    j ∈ c.reachableInterfaces ↔ ∃ a ∈ c.ancestors, ∃ i ∈ a.interfaces, j ∈ i.closure := by
  simp only [reachableInterfaces, closures_eq, List.mem_flatMap]

variable {is js : List ClassDef} {i j : ClassDef}

theorem mem_of_mem_addInterface (h : j ∈ addInterface is i) : j ∈ is ∨ j = i := by
  rw [addInterface] at h
  split at h
  · exact .inl h
  · simpa using h

theorem mem_addInterface_of_mem (h : j ∈ is) : j ∈ addInterface is i := by
  rw [addInterface]
  split
  · exact h
  · exact List.mem_append_left _ h

theorem exists_isNamed_of_addInterface (is : List ClassDef) (i : ClassDef) :
    ∃ j ∈ addInterface is i, j.isNamed i.name = true := by
  rw [addInterface]
  split
  next h => exact List.any_eq_true.1 h
  next => exact ⟨i, List.mem_append_right _ List.mem_cons_self, Name.same_refl _⟩

theorem mem_of_mem_foldl_addInterface (h : j ∈ js.foldl addInterface is) : j ∈ is ∨ j ∈ js := by
  induction js generalizing is with
  | nil => exact .inl h
  | cons i js ih =>
    obtain h | h := ih h
    · refine (mem_of_mem_addInterface h).imp_right ?_
      rintro rfl
      exact List.mem_cons_self
    · exact .inr (List.mem_cons_of_mem i h)

theorem mem_foldl_addInterface_of_mem (js : List ClassDef) (h : j ∈ is) :
    j ∈ js.foldl addInterface is := by
  induction js generalizing is with
  | nil => exact h
  | cons i js ih => exact ih (mem_addInterface_of_mem h)

theorem exists_isNamed_of_foldl_addInterface (is : List ClassDef) (h : i ∈ js) :
    ∃ j ∈ js.foldl addInterface is, j.isNamed i.name = true := by
  induction js generalizing is with
  | nil => cases h
  | cons k js ih =>
    obtain rfl | h := List.mem_cons.1 h
    · obtain ⟨j, hj, hn⟩ := exists_isNamed_of_addInterface is i
      exact ⟨j, mem_foldl_addInterface_of_mem js hj, hn⟩
    · exact ih (addInterface is k) h

theorem kind_of_extendFault?_eq_none {c parent : ClassDef} (h : c.extendFault? parent = none) :
    parent.kind = .plain := by
  rw [extendFault?] at h
  split at h
  · cases h
  cases hk : parent.kind with
  | plain => rfl
  | interface | trait | enumeration => simp [hk] at h

end ClassDef

namespace ClassTable

variable {t t' : ClassTable} {h h' : Heap} {c d : ClassDef}

/-- Classes of a table whose names differ at most in case are the same. -/
theorem Reachable.eq_of_isNamed (ht : t.Reachable) (hc : c ∈ t.classes.values)
    (hd : d ∈ t.classes.values) (hn : c.isNamed d.name = true) : c = d := by
  have hgc := ht.get?_name c hc
  rw [get?, Name.classKey_congr hn] at hgc
  exact Option.some.inj (hgc.symm.trans (ht.get?_name d hd))

/-- Only classes in the narrow sense are extended. -/
theorem Reachable.kind_of_mem_ancestors (ht : t.Reachable) :
    ∀ c ∈ t.classes.values, ∀ a ∈ c.ancestors.tail, a.kind = .plain := by
  apply ht.induction_on (Q := fun _ c => ∀ a ∈ c.ancestors.tail, a.kind = .plain)
  · intro _ _ _ _ hc
    exact hc
  · intro t t' h h' c d ht hc hd ih a ha
    obtain he | ⟨parent, hm, -, hcheck, he⟩ := ancestors_of_declare hc hd
    · rw [he] at ha
      cases ha
    · rw [he, List.tail_cons, ClassDef.ancestors_eq] at ha
      obtain rfl | ha := List.mem_cons.1 ha
      · exact ClassDef.kind_of_extendFault?_eq_none (ClassDef.of_checkParent hcheck).1
      · refine ih parent hm a ?_
        rw [ClassDef.ancestors_eq]
        exact ha

theorem interfaces_markReadonly (hc : c.IsFresh) : (markReadonly c).interfaces = [] :=
  hc.interfaces_eq_nil

/-- Implementing interfaces of the table adds to what a class has from its parent. -/
theorem interfaces_of_linkInterfaces (hd : t.linkInterfaces c = .ok d) :
    d.parent? = c.parent? ∧ (∀ i ∈ c.interfaces, i ∈ d.interfaces) ∧
      ∀ i ∈ d.interfaces, (i ∈ t.classes.values ∧ i.kind = .interface) ∨ i ∈ c.interfaces := by
  obtain ⟨is, his, hf⟩ := exists_implemented_of_linkInterfaces hd
  refine foldlM_induction (P := fun d : ClassDef => d.parent? = c.parent? ∧
    (∀ i ∈ c.interfaces, i ∈ d.interfaces) ∧
    ∀ i ∈ d.interfaces, (i ∈ t.classes.values ∧ i.kind = .interface) ∨ i ∈ c.interfaces) ?_ hf ?_
  · rintro i hi l _ himpl ⟨hp, hsub, hfrom⟩
    obtain ⟨hk, -, rfl⟩ := of_implement_eq_ok himpl
    refine ⟨hp, fun j hj => ClassDef.mem_addInterface_of_mem (hsub j hj), ?_⟩
    intro j hj
    obtain hj | rfl := ClassDef.mem_of_mem_addInterface hj
    · exact hfrom j hj
    · obtain ⟨name, hn⟩ := his j hi
      exact .inl ⟨mem_values_of_get? hn, hk⟩
  · exact ⟨rfl, fun _ => id, fun _ => .inr⟩

/-- A class that has just been declared lists interfaces of the table and those of its parent, and
none of the latter is left out unless one of its name is there. -/
theorem interfaces_of_declare (hc : c.IsFresh) (hd : t.declare h c = .ok (t', h', d)) :
    (∀ i ∈ d.interfaces, (i ∈ t.classes.values ∧ i.kind = .interface) ∨
      ∃ parent ∈ t.classes.values, d.parent? = some parent ∧ i ∈ parent.interfaces) ∧
    ∀ parent, d.parent? = some parent → ∀ i ∈ parent.interfaces,
      ∃ j ∈ d.interfaces, j.isNamed i.name = true := by
  obtain ⟨c₁, c₂, l, b, s, h₁, h₂, h₃, -, rfl⟩ := exists_stages_of_declare hd
  obtain ⟨traits, -, hg⟩ := exists_of_linkTraits h₂
  obtain ⟨hp, hsub, hfrom⟩ := interfaces_of_linkInterfaces h₃
  obtain ⟨_, _, _, rfl⟩ := ClassDef.exists_eq_of_reflTransGen hg
  obtain ⟨-, rfl⟩ | ⟨_, parent, -, hn, -, rfl⟩ := exists_of_linkParent h₁
  · constructor
    · intro i hi
      refine .inl ((hfrom i hi).resolve_right ?_)
      rw [interfaces_markReadonly hc]
      exact List.not_mem_nil
    · intro parent hparent
      cases hc.parent?_eq_none.symm.trans (hp.symm.trans hparent)
  · constructor
    · intro i hi
      refine (hfrom i hi).imp_right fun hi => ⟨parent, mem_values_of_get? hn, hp, ?_⟩
      refine (ClassDef.mem_of_mem_foldl_addInterface hi).resolve_left ?_
      rw [interfaces_markReadonly hc]
      exact List.not_mem_nil
    · intro parent' hparent i hi
      cases hp.symm.trans hparent
      obtain ⟨j, hj, hji⟩ := ClassDef.exists_isNamed_of_foldl_addInterface _ hi
      exact ⟨j, hsub j hj, hji⟩

/-- The interfaces of a class are interfaces of the table. -/
theorem Reachable.of_mem_interfaces (ht : t.Reachable) :
    ∀ c ∈ t.classes.values, ∀ i ∈ c.interfaces, i ∈ t.classes.values ∧ i.kind = .interface := by
  have hget : ∀ c ∈ t.classes.values, ∀ i ∈ c.interfaces,
      t.get? i.name = some i ∧ i.kind = .interface := by
    apply ht.induction_on
      (Q := fun t c => ∀ i ∈ c.interfaces, t.get? i.name = some i ∧ i.kind = .interface)
    · intro t t' e he hc i hi
      exact ⟨he _ _ (hc i hi).1, (hc i hi).2⟩
    · intro t t' h h' c d ht hc hd ih i hi
      obtain ⟨hm, hk⟩ | ⟨parent, hm, -, hi⟩ := (interfaces_of_declare hc hd).1 i hi
      · exact ⟨extends_of_declare hd _ _ (ht.get?_name i hm), hk⟩
      · exact ⟨extends_of_declare hd _ _ (ih parent hm i hi).1, (ih parent hm i hi).2⟩
  intro c hc i hi
  exact ⟨mem_values_of_get? (hget c hc i hi).1, (hget c hc i hi).2⟩

/-- The interfaces of a class that has just been declared were in the table before. -/
theorem Reachable.mem_of_mem_interfaces_of_declare (ht : t.Reachable) (hc : c.IsFresh)
    (hd : t.declare h c = .ok (t', h', d)) {i : ClassDef} (hi : i ∈ d.interfaces) :
    i ∈ t.classes.values := by
  obtain ⟨hm, -⟩ | ⟨parent, hm, -, hi⟩ := (interfaces_of_declare hc hd).1 i hi
  · exact hm
  · exact (ht.of_mem_interfaces parent hm i hi).1

/-- What the interfaces of a class extend is in the table. -/
theorem Reachable.mem_of_mem_closure (ht : t.Reachable) :
    ∀ c ∈ t.classes.values, ∀ j ∈ c.closure, j ∈ t.classes.values := by
  have hget : ∀ c ∈ t.classes.values, ∀ j ∈ c.closure, t.get? j.name = some j := by
    apply ht.induction_on (Q := fun t c => ∀ j ∈ c.closure, t.get? j.name = some j)
    · intro t t' e he hc j hj
      exact he _ _ (hc j hj)
    · intro t t' h h' c d ht hc hd ih j hj
      rw [ClassDef.closure_eq] at hj
      obtain rfl | hj := List.mem_cons.1 hj
      · exact get?_self_of_declare hd
      · obtain ⟨i, hi, hj⟩ := List.mem_flatMap.1 hj
        exact extends_of_declare hd _ _ (ih i (ht.mem_of_mem_interfaces_of_declare hc hd hi) j hj)
  intro c hc j hj
  exact mem_values_of_get? (hget c hc j hj)

/-- A class lists the interfaces of its ancestors. -/
theorem Reachable.interfaces_subset (ht : t.Reachable) :
    ∀ c ∈ t.classes.values, ∀ a ∈ c.ancestors, ∀ i ∈ a.interfaces, i ∈ c.interfaces := by
  apply ht.induction_on (Q := fun _ c => ∀ a ∈ c.ancestors, ∀ i ∈ a.interfaces, i ∈ c.interfaces)
  · intro _ _ _ _ hc
    exact hc
  · intro t t' h h' c d ht hc hd ih a ha i hi
    obtain he | ⟨parent, hm, hp, -, he⟩ := ancestors_of_declare hc hd
    · rw [he, List.mem_singleton] at ha
      exact ha ▸ hi
    · rw [he] at ha
      obtain rfl | ha := List.mem_cons.1 ha
      · exact hi
      · have hip := ih parent hm a ha i hi
        obtain ⟨j, hj, hji⟩ := (interfaces_of_declare hc hd).2 parent hp i hip
        have hjt := ht.mem_of_mem_interfaces_of_declare hc hd hj
        rwa [← ht.eq_of_isNamed hjt (ht.of_mem_interfaces parent hm i hip).1 hji]

/-- A class implements what is reached from its own list of interfaces. -/
theorem Reachable.mem_reachableInterfaces_iff (ht : t.Reachable) (hc : c ∈ t.classes.values)
    {j : ClassDef} : j ∈ c.reachableInterfaces ↔ ∃ i ∈ c.interfaces, j ∈ i.closure := by
  rw [ClassDef.mem_reachableInterfaces]
  constructor
  · rintro ⟨a, ha, i, hi, hj⟩
    exact ⟨i, ht.interfaces_subset c hc a ha i hi, hj⟩
  · rintro ⟨i, hi, hj⟩
    exact ⟨c, c.self_mem_ancestors, i, hi, hj⟩

theorem Reachable.mem_of_mem_reachableInterfaces (ht : t.Reachable) (hc : c ∈ t.classes.values)
    {j : ClassDef} (hj : j ∈ c.reachableInterfaces) : j ∈ t.classes.values := by
  obtain ⟨i, hi, hj⟩ := (ht.mem_reachableInterfaces_iff hc).1 hj
  exact ht.mem_of_mem_closure i (ht.of_mem_interfaces c hc i hi).1 j hj

/-- Whether a class implements an interface is a question of names, but in a table the name stands
for the interface. -/
theorem Reachable.implementsInterface_iff (ht : t.Reachable) (hc : c ∈ t.classes.values)
    {i : ClassDef} (hi : i ∈ t.classes.values) :
    c.implementsInterface i.name = true ↔ i ∈ c.reachableInterfaces := by
  rw [ClassDef.implementsInterface, List.any_eq_true]
  constructor
  · rintro ⟨j, hj, hn⟩
    rwa [← ht.eq_of_isNamed (ht.mem_of_mem_reachableInterfaces hc hj) hi hn]
  · intro hm
    exact ⟨i, hm, Name.same_refl _⟩

/-- An instance of an interface implements it, unless it is the interface itself. -/
theorem Reachable.implementsInterface_of_instanceOf (ht : t.Reachable) (hc : c ∈ t.classes.values)
    {i : ClassDef} (hi : i ∈ t.classes.values) (hk : i.kind = .interface)
    (hck : c.kind ≠ .interface) (h : c.instanceOf i.name = true) :
    c.implementsInterface i.name = true := by
  rw [ClassDef.instanceOf, Bool.or_eq_true] at h
  refine h.resolve_left fun hs => ?_
  obtain ⟨a, ha, hn⟩ := List.any_eq_true.1 hs
  cases ht.eq_of_isNamed (ht.mem_of_mem_ancestors c hc a ha) hi hn
  have htail := ht.kind_of_mem_ancestors c hc
  rw [ClassDef.ancestors_eq] at ha htail
  obtain rfl | ha := List.mem_cons.1 ha
  · exact hck hk
  · cases (htail i ha).symm.trans hk

end ClassTable

end ObjectModel
