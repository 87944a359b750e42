import ObjectModel.Proofs.Class.Overriding
import ObjectModel.Proofs.Class.Supertypes
/-!
# What constants promise

A class has a constant for every constant that its ancestors and its interfaces show it, at least as
visible, and the same one if that is final. Constants come in from the parent, from traits and from
interfaces in this order, each time only under names that are new, so what is there stays. The class
is checked against its parent and against each interface when it meets them; as the promise is
transitive (`HonoursConstants.trans`), these checks cover the whole hierarchy.

A check against an interface is skipped for a constant that says it is declared in the same class.
That is sound because a constant is the one that the class named by it has under its name, so two
constants that agree on both are the same, `Declares.unique`.
-/

namespace ObjectModel

namespace ConstantDef

structure Overrides (own inherited : ConstantDef) : Prop where
  atLeast : own.visibility.atLeast inherited.visibility = true
  eq_of_isFinal : inherited.isFinal = true → own = inherited

variable {own k l : ConstantDef} {cls : String}

theorem Overrides.refl (k : ConstantDef) : k.Overrides k :=
  ⟨Visibility.atLeast_refl _, fun _ => rfl⟩

theorem Overrides.trans (h : own.Overrides k) (h' : k.Overrides l) : own.Overrides l := by
  constructor
  · exact Visibility.atLeast_trans h.atLeast h'.atLeast
  · intro hl
    cases h'.eq_of_isFinal hl
    exact h.eq_of_isFinal hl

theorem overrides_of_checkRedefinition (h : own.checkRedefinition cls k = .ok ()) :
    own.Overrides k := by
  rw [checkRedefinition] at h
  split at h
  · cases h
  next hf =>
    split at h
    · cases h
    next hv => exact ⟨by simpa using hv, fun hk => absurd hk hf⟩

end ConstantDef

namespace ClassDef

/-- Whether a class has a constant in place of every constant of another that is not private. -/
def HonoursConstants (c s : ClassDef) : Prop :=
  ∀ name k, s.constants.get? name = some k → k.visibility ≠ .isPrivate →
    ∃ own, c.constants.get? name = some own ∧ own.Overrides k

namespace HonoursConstants

variable {c d s r : ClassDef}

theorem refl (c : ClassDef) : c.HonoursConstants c := fun _ k hk _ => ⟨k, hk, .refl k⟩

theorem trans (h : c.HonoursConstants s) (h' : s.HonoursConstants r) : c.HonoursConstants r := by
  intro name k hk hv
  obtain ⟨l, hl, hlk⟩ := h' name k hk hv
  have hvl : l.visibility ≠ .isPrivate :=
    fun he => hv (Visibility.eq_isPrivate_of_atLeast hlk.atLeast he)
  obtain ⟨own, hown, ho⟩ := h name l hl hvl
  exact ⟨own, hown, ho.trans hlk⟩

theorem of_keeps (h : c.HonoursConstants s)
    (hd : ∀ name k, c.constants.get? name = some k → d.constants.get? name = some k) :
    d.HonoursConstants s := by
  intro name k hk hv
  obtain ⟨own, hown, ho⟩ := h name k hk hv
  exact ⟨own, hd name own hown, ho⟩

end HonoursConstants

/-- The constants of the class itself come first. -/
theorem findConstant?_of_get? {c : ClassDef} {name : String} {k : ConstantDef}
    (hk : c.constants.get? name = some k) : c.findConstant? name = some k := by
  obtain ⟨d, p?, is⟩ := c
  rw [findConstant?, ancestors_eq, List.findSome?_cons, hk]

theorem get?_constants_withParent (c parent : ClassDef) (name : String) :
    (c.withParent parent).constants.get? name = (c.constants.get? name).or
      ((parent.constants.get? name).filter ConstantDef.isInheritable) :=
  get?_inheritMembers ConstantDef.isInheritable c.constants parent.constants name

/-- A class is checked against its parent before it gets the other constants from it. -/
theorem honoursConstants_withParent {c parent : ClassDef} (hc : c.checkParent parent = .ok ()) :
    (c.withParent parent).HonoursConstants parent := by
  intro name k hk hv
  rw [get?_constants_withParent]
  cases hs : c.constants.get? name with
  | some own =>
    have hover := checkOverrides_eq_ok (of_checkParent hc).2.2.2.2 hs hk
    rw [ConstantDef.checkOverride, if_neg hv] at hover
    exact ⟨own, Option.some_or, ConstantDef.overrides_of_checkRedefinition hover⟩
  | none =>
    refine ⟨k, ?_, .refl k⟩
    rw [hk, Option.none_or, Option.filter_some, ConstantDef.isInheritable,
      if_pos (decide_eq_true hv)]

theorem ComposesTo.get?_constants {traits : List ClassDef} {rules : List TraitRule} {c d : ClassDef}
    (h : ComposesTo traits rules c d) :
    ∃ new? : String → Option ConstantDef,
      (∀ name, d.constants.get? name = (c.constants.get? name).or (new? name)) ∧
      ∀ name k, new? name = some k → ∃ trait ∈ traits, ∃ l, trait.constants.get? name = some l ∧
        k = { l with declaringClass := c.name } := by
  cases h with
  | unchanged | method | property | addition | visibility =>
    refine ⟨fun _ => none, fun _ => Option.or_none.symm, ?_⟩
    rintro _ _ ⟨⟩
  | constants ht =>
    refine ⟨_, fun name => OrderedMap.get?_foldl_insertIfNew Prod.fst _ _ _ name, ?_⟩
    intro name k hk
    obtain ⟨⟨n, l⟩, hl, rfl⟩ := Option.map_eq_some_iff.1 hk
    have hn : n = name := by simpa only [beq_iff_eq] using List.find?_some hl
    exact ⟨_, ht, l, OrderedMap.mem_entries_iff.1 (hn ▸ List.mem_of_find?_eq_some hl), rfl⟩

/-- Composition keeps the constants of a class and adds some of its traits. -/
theorem get?_constants_of_reflTransGen {traits : List ClassDef} {rules : List TraitRule}
    {c d : ClassDef} (h : Relation.ReflTransGen (ComposesTo traits rules) c d) :
    ∃ new? : String → Option ConstantDef,
      (∀ name, d.constants.get? name = (c.constants.get? name).or (new? name)) ∧
      ∀ name k, new? name = some k → ∃ trait ∈ traits, ∃ l, trait.constants.get? name = some l ∧
        k = { l with declaringClass := c.name } := by
  induction h with
  | refl =>
    refine ⟨fun _ => none, fun _ => Option.or_none.symm, ?_⟩
    rintro _ _ ⟨⟩
  | tail hg hs ih =>
    obtain ⟨a, ha, hta⟩ := ih
    obtain ⟨b, hb, htb⟩ := hs.get?_constants
    obtain ⟨_, _, _, rfl⟩ := exists_eq_of_reflTransGen hg
    refine ⟨fun name => (a name).or (b name), ?_, ?_⟩
    · intro name
      rw [hb, ha, Option.or_assoc]
    · intro name k hk
      obtain hk | ⟨-, hk⟩ := Option.or_eq_some_iff.1 hk
      · exact hta name k hk
      · exact htb name k hk

/-- The constants of an interface are found by name if those of all that it extends are. -/
theorem find?_inheritedConstants {i : ClassDef}
    (hi : ∀ j ∈ i.closure, ∀ name k, j.constants.get? name = some k → k.name = name)
    (name : String) : i.inheritedConstants.find? (·.name == name) =
      i.closure.findSome? (·.constants.get? name) := by
  rw [inheritedConstants, find?_eraseDupsBy, List.find?_flatMap]
  exact findSome?_congr fun j hj => OrderedMap.find?_values (hi j hj) name

/-- An interface adds its constants, and its own come before those of the interfaces that it
extends. A constant of the class that is in the way may stand in its place, or says that it is
declared in the same class. -/
theorem constants_of_implement {c d i : ClassDef} (h : c.implement i = .ok d)
    (hi : ∀ j ∈ i.closure, ∀ name k, j.constants.get? name = some k → k.name = name)
    (name : String) :
    d.constants.get? name =
      (c.constants.get? name).or (i.closure.findSome? (·.constants.get? name)) ∧
    ∀ own k, c.constants.get? name = some own → i.constants.get? name = some k →
      own.declaringClass = k.declaringClass ∨ own.Overrides k := by
  obtain ⟨-, hcheck, rfl⟩ := ClassTable.of_implement_eq_ok h
  have hfind := find?_inheritedConstants hi name
  constructor
  · refine (OrderedMap.get?_foldl_insertIfNew ConstantDef.name id _ _ name).trans ?_
    rw [hfind, Option.map_id_fun]
    rfl
  · intro own k hown hk
    rw [closure_eq, List.findSome?_cons, hk] at hfind
    have hname : k.name = name := hi i i.self_mem_closure name k hk
    have hcheck := forM_eq_ok_iff.1 hcheck k (List.mem_of_find?_eq_some hfind)
    simp only [hname, hown] at hcheck
    split at hcheck
    next hdecl => exact .inl hdecl
    next => exact .inr (ConstantDef.overrides_of_checkRedefinition hcheck)

end ClassDef

namespace ClassTable

variable {t t' : ClassTable} {h h' : Heap} {c d i parent : ClassDef} {k l : ConstantDef}

def Declares (t : ClassTable) (k : ConstantDef) : Prop :=
  ∃ o, t.get? k.declaringClass = some o ∧ o.constants.get? k.name = some k

theorem Declares.mono (he : t.Extends t') (hk : t.Declares k) : t'.Declares k := by
  obtain ⟨o, ho, hk⟩ := hk
  exact ⟨o, he _ _ ho, hk⟩

/-- A constant is known by its name and the class that declares it. -/
theorem Declares.unique (hk : t.Declares k) (hl : t.Declares l) (hn : k.name = l.name)
    (hd : k.declaringClass = l.declaringClass) : k = l := by
  obtain ⟨o, ho, hk⟩ := hk
  obtain ⟨p, hp, hl⟩ := hl
  rw [hd] at ho
  cases ho.symm.trans hp
  rw [hn] at hk
  exact Option.some.inj (hk.symm.trans hl)

/-- What linking makes of the constants of a class: they go by their names, are its own or declared
in the table, and honour those of the parent and of the interfaces of the class. -/
structure HasLawfulConstants (t : ClassTable) (c : ClassDef) : Prop where
  name_eq : ∀ name k, c.constants.get? name = some k → k.name = name
  own_or_declares :
    ∀ name k, c.constants.get? name = some k → k.declaringClass = c.name ∨ t.Declares k
  honours_parent : ∀ parent, c.parent? = some parent → c.HonoursConstants parent
  honours_interface : ∀ i ∈ c.interfaces, c.HonoursConstants i

namespace HasLawfulConstants

theorem mono (he : t.Extends t') (hc : t.HasLawfulConstants c) : t'.HasLawfulConstants c :=
  { hc with
    own_or_declares := fun name k hk => (hc.own_or_declares name k hk).imp_right (·.mono he) }

/-- In a class of the table, the class itself is as good as any other. -/
theorem declares (hc : t.HasLawfulConstants c) (hn : t.get? c.name = some c) {name : String}
    (hk : c.constants.get? name = some k) : t.Declares k := by
  obtain hd | hd := hc.own_or_declares name k hk
  · exact ⟨c, hd ▸ hn, (hc.name_eq name k hk).symm ▸ hk⟩
  · exact hd

/-- In a class of a new name, a constant that says it is declared where one of the table is, and
goes by the same name, is that constant: the class itself declares none of the table. -/
theorem eq_of_declaringClass_eq (hc : t.HasLawfulConstants c) (hn : t.get? c.name = none)
    (hk : t.Declares k) (hl : c.constants.get? k.name = some l)
    (hd : l.declaringClass = k.declaringClass) : l = k := by
  obtain hself | hdown := hc.own_or_declares k.name l hl
  · obtain ⟨o, ho, -⟩ := hk
    rw [← hd, hself, hn] at ho
    cases ho
  · exact hdown.unique hk (hc.name_eq k.name l hl) hd

/-- Adding constants under new names leaves the rest in order. -/
theorem of_or {new? : String → Option ConstantDef} (hc : t.HasLawfulConstants c)
    (hn : d.name = c.name)
    (hd : ∀ name, d.constants.get? name = (c.constants.get? name).or (new? name))
    (hnew : ∀ name k, new? name = some k →
      k.name = name ∧ (k.declaringClass = c.name ∨ t.Declares k))
    (hp : ∀ parent, d.parent? = some parent →
      c.parent? = some parent ∨ d.HonoursConstants parent)
    (hi : ∀ i ∈ d.interfaces, i ∈ c.interfaces ∨ d.HonoursConstants i) :
    t.HasLawfulConstants d := by
  have hkeeps (name : String) (k : ConstantDef) (hk : c.constants.get? name = some k) :
      d.constants.get? name = some k := by
    rw [hd, hk, Option.some_or]
  constructor
  case name_eq =>
    intro name k hk
    obtain hk | ⟨-, hk⟩ := Option.or_eq_some_iff.1 ((hd name).symm.trans hk)
    · exact hc.name_eq name k hk
    · exact (hnew name k hk).1
  case own_or_declares =>
    intro name k hk
    rw [hn]
    obtain hk | ⟨-, hk⟩ := Option.or_eq_some_iff.1 ((hd name).symm.trans hk)
    · exact hc.own_or_declares name k hk
    · exact (hnew name k hk).2
  case honours_parent =>
    intro parent hparent
    obtain hparent | hparent := hp parent hparent
    · exact (hc.honours_parent parent hparent).of_keeps hkeeps
    · exact hparent
  case honours_interface =>
    intro i hm
    obtain hm | hm := hi i hm
    · exact (hc.honours_interface i hm).of_keeps hkeeps
    · exact hm

theorem of_isFresh (hc : c.IsFresh) : t.HasLawfulConstants (markReadonly c) := by
  constructor
  case name_eq => exact fun name k hk => (hc.of_get?_constants name k hk).1
  case own_or_declares => exact fun name k hk => .inl (hc.of_get?_constants name k hk).2
  case honours_parent =>
    intro parent hparent
    cases hc.parent?_eq_none.symm.trans hparent
  case honours_interface =>
    rw [interfaces_markReadonly hc]
    exact nofun

/-- A class that is linked to its parent honours what the parent has and what the parent honours. -/
theorem of_linkParent (ht : t.Reachable) (hl : ∀ e ∈ t.classes.values, t.HasLawfulConstants e)
    (hc : t.HasLawfulConstants c) (hd : t.linkParent c = .ok d) : t.HasLawfulConstants d := by
  obtain ⟨-, rfl⟩ | ⟨_, parent, -, hp, hcheck, rfl⟩ := exists_of_linkParent hd
  · exact hc
  · have hpt := mem_values_of_get? hp
    have hhonours := ClassDef.honoursConstants_withParent hcheck
    refine hc.of_or rfl (ClassDef.get?_constants_withParent c parent) ?_ ?_ ?_
    · intro name k hk
      obtain ⟨hk, -⟩ := Option.filter_eq_some_iff.1 hk
      exact ⟨(hl parent hpt).name_eq name k hk,
        .inr ((hl parent hpt).declares (ht.get?_name parent hpt) hk)⟩
    · rintro _ ⟨⟩
      exact .inr hhonours
    · intro i hi
      refine (ClassDef.mem_of_mem_foldl_addInterface hi).imp_right fun hi => ?_
      exact hhonours.trans ((hl parent hpt).honours_interface i hi)

theorem of_reflTransGen {traits : List ClassDef} {rules : List TraitRule}
    (hl : ∀ trait ∈ traits, t.HasLawfulConstants trait) (hc : t.HasLawfulConstants c)
    (hg : Relation.ReflTransGen (ClassDef.ComposesTo traits rules) c d) :
    t.HasLawfulConstants d := by
  obtain ⟨new?, hd, hnew⟩ := ClassDef.get?_constants_of_reflTransGen hg
  obtain ⟨_, _, _, rfl⟩ := ClassDef.exists_eq_of_reflTransGen hg
  refine hc.of_or rfl hd ?_ (fun _ => .inl) (fun _ => .inl)
  intro name k hk
  obtain ⟨trait, ht, l, hl', rfl⟩ := hnew name k hk
  exact ⟨(hl trait ht).name_eq name l hl', .inl rfl⟩

/-- A class of a new name honours every interface that it implements. -/
theorem of_implement (ht : t.Reachable) (hl : ∀ e ∈ t.classes.values, t.HasLawfulConstants e)
    (hi : i ∈ t.classes.values) (hn : t.get? c.name = none) (hc : t.HasLawfulConstants c)
    (hd : c.implement i = .ok d) : t.HasLawfulConstants d := by
  have hclosure := ht.mem_of_mem_closure i hi
  have hdeclares (j : ClassDef) (hj : j ∈ i.closure) (name : String) (k : ConstantDef)
      (hk : j.constants.get? name = some k) : t.Declares k :=
    (hl j (hclosure j hj)).declares (ht.get?_name j (hclosure j hj)) hk
  have hstep (name : String) := ClassDef.constants_of_implement hd
    (fun j hj => (hl j (hclosure j hj)).name_eq) name
  have hhonours : d.HonoursConstants i := by
    intro name k hk _
    cases hs : c.constants.get? name with
    | none =>
      refine ⟨k, ?_, .refl k⟩
      rw [(hstep name).1, hs, Option.none_or, ClassDef.closure_eq, List.findSome?_cons, hk]
    | some own =>
      refine ⟨own, by rw [(hstep name).1, hs, Option.some_or], ?_⟩
      obtain hsame | hover := (hstep name).2 own k hs hk
      · have hname : k.name = name := (hl i hi).name_eq name k hk
        have hdk := hdeclares i i.self_mem_closure name k hk
        rw [hc.eq_of_declaringClass_eq hn hdk (hname ▸ hs) hsame]
        exact .refl k
      · exact hover
  obtain ⟨-, -, rfl⟩ := of_implement_eq_ok hd
  refine hc.of_or rfl (fun name => (hstep name).1) ?_ (fun _ => .inl) ?_
  · intro name k hk
    obtain ⟨j, hj, hk⟩ := List.exists_of_findSome?_eq_some hk
    exact ⟨(hl j (hclosure j hj)).name_eq name k hk, .inr (hdeclares j hj name k hk)⟩
  · intro j hj
    refine (ClassDef.mem_of_mem_addInterface hj).imp_right ?_
    rintro rfl
    exact hhonours

end HasLawfulConstants

/-- The constants of every class are in order. -/
theorem Reachable.hasLawfulConstants (ht : t.Reachable) :
    ∀ c ∈ t.classes.values, t.HasLawfulConstants c := by
  apply ht.induction_on (Q := fun t c => t.HasLawfulConstants c)
  · intro _ _ _ he hc
    exact hc.mono he
  · intro t t' h h' c d ht hc hd hl
    have hnew := (exists_of_declare hd).1
    have he := extends_of_declare hd
    obtain ⟨c₁, c₂, l, b, s, h₁, h₂, h₃, -, rfl⟩ := exists_stages_of_declare hd
    obtain ⟨traits, htraits, hg⟩ := exists_of_linkTraits h₂
    obtain ⟨is, his, hf⟩ := exists_implemented_of_linkInterfaces h₃
    have hlc₁ := HasLawfulConstants.of_linkParent ht hl (.of_isFresh hc) h₁
    have hlc₂ : t.HasLawfulConstants c₂ := by
      refine .of_reflTransGen ?_ hlc₁ hg
      intro trait hm
      obtain ⟨name, -, hn⟩ := htraits trait hm
      exact hl trait (mem_values_of_get? hn)
    have hname : c₂.name = c.name := by
      obtain ⟨_, _, _, rfl⟩ := ClassDef.exists_eq_of_reflTransGen hg
      obtain ⟨-, rfl⟩ | ⟨_, _, -, -, -, rfl⟩ := exists_of_linkParent h₁ <;> rfl
    have hll : l.name = c.name ∧ t.HasLawfulConstants l := by
      refine foldlM_induction (P := fun l : ClassDef => l.name = c.name ∧ t.HasLawfulConstants l)
        ?_ hf ⟨hname, hlc₂⟩
      rintro i hi l l' himpl ⟨hn, hl'⟩
      obtain ⟨_, hi⟩ := his i hi
      refine ⟨?_, .of_implement ht hl (mem_values_of_get? hi) (hn ▸ hnew) hl' himpl⟩
      obtain ⟨-, -, rfl⟩ := of_implement_eq_ok himpl
      exact hn
    exact { hll.2.mono he with }

/-- A class honours the constants of its ancestors and of the interfaces that it implements. -/
theorem Reachable.honoursConstants (ht : t.Reachable) : ∀ c ∈ t.classes.values,
    (∀ a ∈ c.ancestors, c.HonoursConstants a) ∧ ∀ j ∈ c.closure, c.HonoursConstants j := by
  apply ht.induction_on (Q := fun _ c =>
    (∀ a ∈ c.ancestors, c.HonoursConstants a) ∧ ∀ j ∈ c.closure, c.HonoursConstants j)
  · intro _ _ _ _ hc
    exact hc
  · intro t t' h h' c d ht hc hd ih
    have hdt := mem_values_of_get? (get?_self_of_declare hd)
    have hl := (ht.declare hc hd).hasLawfulConstants d hdt
    constructor
    · intro a ha
      obtain he | ⟨parent, hm, hp, -, he⟩ := ancestors_of_declare hc hd
      · rw [he, List.mem_singleton] at ha
        exact ha ▸ .refl d
      · rw [he] at ha
        obtain rfl | ha := List.mem_cons.1 ha
        · exact .refl a
        · exact (hl.honours_parent parent hp).trans ((ih parent hm).1 a ha)
    · intro j hj
      rw [ClassDef.closure_eq] at hj
      obtain rfl | hj := List.mem_cons.1 hj
      · exact .refl j
      · obtain ⟨i, hi, hj⟩ := List.mem_flatMap.1 hj
        have him := ht.mem_of_mem_interfaces_of_declare hc hd hi
        exact (hl.honours_interface i hi).trans ((ih i him).2 j hj)

/-- In place of a constant of an ancestor or an interface, unless it is private, a look-up finds one
that is at least as visible. If the inherited constant is final, it is the one that is found. -/
theorem Reachable.findConstant?_of_inherited (ht : t.Reachable) (hc : c ∈ t.classes.values)
    {s : ClassDef} (hs : s ∈ c.ancestors.tail ∨
      (s ∈ t.classes.values ∧ c.implementsInterface s.name = true))
    {name : String} (hk : s.constants.get? name = some k) (hv : k.visibility ≠ .isPrivate) :
    ∃ own, c.findConstant? name = some own ∧ own.visibility.atLeast k.visibility = true ∧
      (k.isFinal = true → own = k) := by
  have hhonours : c.HonoursConstants s := by
    obtain hs | ⟨hst, hs⟩ := hs
    · exact (ht.honoursConstants c hc).1 s (List.mem_of_mem_tail hs)
    · obtain ⟨i, hi, hsi⟩ := (ht.mem_reachableInterfaces_iff hc).1
        ((ht.implementsInterface_iff hc hst).1 hs)
      exact (ht.honoursConstants c hc).2 s (ClassDef.mem_closure_of_mem_interfaces hi hsi)
  obtain ⟨own, hown, ho⟩ := hhonours name k hk hv
  refine ⟨own, ?_, ho.atLeast, ho.eq_of_isFinal⟩
  exact ClassDef.findConstant?_of_get? hown

/-- A final constant comes from an interface that the interface of the parent extends. -/
theorem findConstant?_of_inherited_through_parent :
    ∃ t : ClassTable, t.Reachable ∧ ∃ c ∈ t.classes.values, ∃ s k,
      (s ∈ c.ancestors.tail ∨ (s ∈ t.classes.values ∧ c.implementsInterface s.name = true)) ∧
        s.constants.get? "VERSION" = some k ∧ k.visibility ≠ .isPrivate ∧ k.isFinal = true ∧
        ∃ own, c.findConstant? "VERSION" = some own ∧
          own.visibility.atLeast k.visibility = true ∧ (k.isFinal = true → own = k) := by
  obtain ⟨t, ht, c, hc, hp⟩ := exists_of_declareAll
    [({ name := "Versioned", kind := .interface } : ClassDef).addConstant
        { name := "VERSION", value := .int 1, isFinal := true },
      { name := "Format", kind := .interface, interfaceNames := ["Versioned"] },
      { name := "Base", interfaceNames := ["Format"] },
      { name := "Text", parentName? := some "Base" }]
    "Text"
    (fun c => c.reachableInterfaces.any fun s => s.isNamed "Versioned" &&
      (s.constants.get? "VERSION").any fun k => k.visibility != .isPrivate && k.isFinal)
    (by
      simp only [List.forall_mem_cons]
      exact ⟨.addConstant (.of_memberless rfl rfl rfl) _, .of_memberless rfl rfl rfl,
        .of_memberless rfl rfl rfl, .of_memberless rfl rfl rfl, nofun⟩)
    (by decide)
  obtain ⟨s, hs, hp⟩ := List.any_eq_true.1 hp
  rw [Bool.and_eq_true] at hp
  obtain ⟨k, hk, hp⟩ := (Option.any_eq_true _ _).1 hp.2
  rw [Bool.and_eq_true, bne_iff_ne] at hp
  have hst := ht.mem_of_mem_reachableInterfaces hc hs
  have hcs : s ∈ c.ancestors.tail ∨
      (s ∈ t.classes.values ∧ c.implementsInterface s.name = true) :=
    .inr ⟨hst, (ht.implementsInterface_iff hc hst).2 hs⟩
  exact ⟨t, ht, c, hc, s, k, hcs, hk, hp.1, hp.2, ht.findConstant?_of_inherited hc hcs hk hp.1⟩

end ClassTable

end ObjectModel
