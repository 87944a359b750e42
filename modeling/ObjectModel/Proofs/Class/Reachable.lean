import ObjectModel.Proofs.Class.Linking
/-!
# Reachable class tables

A class table is reachable if it comes from an empty one by declaring classes that were built from
scratch. Declared classes never go away or change, so a class links only to classes of the table it
is in. `Reachable.induction_on` reduces an invariant of all declared classes to the one that has
just been declared, where it may be assumed of those before.
-/

namespace ObjectModel

namespace ClassDef

/-- Whether a class is as its declaration says: it has no links yet, and its members are its own,
under their own names. -/
structure IsFresh (c : ClassDef) : Prop where
  parent?_eq_none : c.parent? = none
  interfaces_eq_nil : c.interfaces = []
  of_get?_methods : ∀ k m, c.methods.get? k = some m → m.key = k ∧ m.declaringClass = c.name
  of_get?_properties :
    ∀ k p, c.properties.get? k = some p → p.name = k ∧ p.declaringClass = c.name
  of_get?_constants : ∀ k d, c.constants.get? k = some d → d.name = k ∧ d.declaringClass = c.name

namespace IsFresh

variable {c : ClassDef}

/-- A declaration without members is fresh. -/
theorem of_memberless {d : Declaration} (hp : d.properties = ∅) (hm : d.methods = ∅)
    (hk : d.constants = ∅) : ({ toDeclaration := d } : ClassDef).IsFresh := by
  exact ⟨rfl, rfl, fun k m h => by simp [hm] at h, fun k p h => by simp [hp] at h,
    fun k e h => by simp [hk] at h⟩

theorem addMethod (h : c.IsFresh) (m : MethodDef) : (c.addMethod m).IsFresh := by
  refine { h with of_get?_methods := fun k n hn => ?_ }
  obtain ⟨rfl, rfl⟩ | hold := OrderedMap.of_get?_insert hn
  · exact ⟨rfl, rfl⟩
  · exact h.of_get?_methods k n hold

theorem addProperty (h : c.IsFresh) (p : PropertyDef) : (c.addProperty p).IsFresh := by
  refine { h with of_get?_properties := fun k q hq => ?_ }
  obtain ⟨rfl, rfl⟩ | hold := OrderedMap.of_get?_insert hq
  · exact ⟨rfl, rfl⟩
  · exact h.of_get?_properties k q hold

theorem addConstant (h : c.IsFresh) (d : ConstantDef) : (c.addConstant d).IsFresh := by
  refine { h with of_get?_constants := fun k e he => ?_ }
  obtain ⟨rfl, rfl⟩ | hold := OrderedMap.of_get?_insert he
  · exact ⟨rfl, rfl⟩
  · exact h.of_get?_constants k e hold

end IsFresh

end ClassDef

namespace ClassTable

variable {t t' t'' : ClassTable} {h h' : Heap} {c d : ClassDef}

/-- Whether every class of a table is in another under the same names. -/
def Extends (t t' : ClassTable) : Prop := ∀ name c, t.get? name = some c → t'.get? name = some c

theorem Extends.refl (t : ClassTable) : t.Extends t := fun _ _ => id

theorem Extends.trans (h₁ : t.Extends t') (h₂ : t'.Extends t'') : t.Extends t'' :=
  fun name c hc => h₂ name c (h₁ name c hc)

/-- What declaring a class means for it, stage by stage, and for the table. -/
theorem exists_of_declare (hd : t.declare h c = .ok (t', h', d)) :
    t.get? c.name = none ∧
      (∀ p ∈ c.properties.values, checkReadonly c p = .ok ()) ∧
      t'.classes = t.classes.insert (Name.classKey d.name) d ∧
      ∃ c₁ c₂ traits ks is b s, t.linkParent (markReadonly c) = .ok c₁ ∧
        (∀ trait ∈ traits, ∃ name ∈ c₁.traitNames, t.get? name = some trait) ∧
        Relation.ReflTransGen (ClassDef.ComposesTo traits c₁.traitRules) c₁ c₂ ∧
        d = { c₂ with constants := ks, interfaces := is, allowsDynamic := b, storage? := s } := by
  obtain ⟨l, hl, hd⟩ := exists_of_bind_eq_ok hd
  cases hd
  obtain ⟨hn, hr, c₁, c₂, traits, ks, is, h₁, ht, hg, rfl⟩ := exists_of_link hl
  exact ⟨hn, hr, rfl, c₁, c₂, traits, ks, is, _, _, h₁, ht, hg, rfl⟩

/-- A declared class went through every stage of linking and passed the checks at the end. Entering
it in the table changes no member and no link. -/
theorem exists_stages_of_declare (hd : t.declare h c = .ok (t', h', d)) :
    ∃ c₁ c₂ l b s, t.linkParent (markReadonly c) = .ok c₁ ∧ t.linkTraits h c₁ = .ok c₂ ∧
      t.linkInterfaces c₂ = .ok l ∧ checkLinked h l = .ok () ∧
      d = { l with allowsDynamic := b, storage? := s } := by
  obtain ⟨l, hl, hd⟩ := exists_of_bind_eq_ok hd
  cases hd
  obtain ⟨c₁, c₂, h₁, h₂, h₃, h₄⟩ := exists_stages_of_link hl
  exact ⟨c₁, c₂, l, _, _, h₁, h₂, h₃, h₄, rfl⟩

/-- A declared class keeps its name, whether it is readonly, and what it says about traits. Its
parent is the one that it is linked to. -/
theorem frame_of_declare (hd : t.declare h c = .ok (t', h', d)) :
    d.name = c.name ∧ d.isReadonly = c.isReadonly ∧ d.traitNames = c.traitNames ∧
      d.traitRules = c.traitRules ∧
      ((d.parent? = c.parent?) ∨ ∃ name parent, t.get? name = some parent ∧
        (markReadonly c).checkParent parent = .ok () ∧ d.parent? = some parent) := by
  obtain ⟨-, -, -, c₁, c₂, traits, ks, is, b, s, h₁, -, hg, rfl⟩ := exists_of_declare hd
  obtain ⟨_, _, _, rfl⟩ := ClassDef.exists_eq_of_reflTransGen hg
  obtain ⟨-, rfl⟩ | ⟨name, parent, -, hp, hc, rfl⟩ := exists_of_linkParent h₁
  · exact ⟨rfl, rfl, rfl, rfl, .inl rfl⟩
  · exact ⟨rfl, rfl, rfl, rfl, .inr ⟨name, parent, hp, hc, rfl⟩⟩

theorem get?_of_declare (hd : t.declare h c = .ok (t', h', d)) (name : String) :
    t'.get? name = if Name.classKey name = Name.classKey d.name then some d else t.get? name := by
  obtain ⟨-, -, hc, -⟩ := exists_of_declare hd
  rw [get?, hc, OrderedMap.get?_insert]
  rfl

theorem get?_self_of_declare (hd : t.declare h c = .ok (t', h', d)) : t'.get? d.name = some d := by
  rw [get?_of_declare hd, if_pos rfl]

theorem extends_of_declare (hd : t.declare h c = .ok (t', h', d)) : t.Extends t' := by
  intro name e he
  rw [get?_of_declare hd, if_neg, he]
  intro hk
  have hn := (exists_of_declare hd).1
  rw [← (frame_of_declare hd).1, get?, ← hk] at hn
  cases hn.symm.trans he

theorem mem_values_of_get? {name : String} (hg : t.get? name = some c) : c ∈ t.classes.values :=
  OrderedMap.mem_values_iff.2 ⟨_, hg⟩

theorem mem_values_of_declare (hd : t.declare h c = .ok (t', h', d)) {e : ClassDef} :
    e ∈ t'.classes.values → e = d ∨ e ∈ t.classes.values := by
  obtain ⟨-, -, hc, -⟩ := exists_of_declare hd
  intro he
  obtain ⟨k, hk⟩ := OrderedMap.mem_values_iff.1 he
  rw [hc] at hk
  obtain ⟨-, rfl⟩ | hold := OrderedMap.of_get?_insert hk
  · exact .inl rfl
  · exact .inr (OrderedMap.mem_values_iff.2 ⟨k, hold⟩)

/-- Whether a table comes from an empty one by declaring fresh classes, at any heaps. -/
inductive Reachable : ClassTable → Prop
  | empty (generation : Nat) (allowsDynamic : Bool) : Reachable { generation, allowsDynamic }
  | declare {t t' : ClassTable} {h h' : Heap} {c d : ClassDef} : Reachable t → c.IsFresh →
      t.declare h c = .ok (t', h', d) → Reachable t'

/-- An invariant holds of all classes of reachable tables if tables that grow keep it and a class
that has just been declared has it, provided that the classes before it do. -/
theorem Reachable.induction_on {Q : ClassTable → ClassDef → Prop}
    (mono : ∀ {t t' : ClassTable} {e : ClassDef}, t.Extends t' → Q t e → Q t' e)
    (step : ∀ {t t' : ClassTable} {h h' : Heap} {c d : ClassDef}, t.Reachable → c.IsFresh →
      t.declare h c = .ok (t', h', d) → (∀ e ∈ t.classes.values, Q t e) → Q t' d)
    (ht : t.Reachable) : ∀ e ∈ t.classes.values, Q t e := by
  induction ht with
  | empty => exact nofun
  | declare ht hc hd ih =>
    intro e he
    obtain rfl | he := mem_values_of_declare hd he
    · exact step ht hc hd ih
    · exact mono (extends_of_declare hd) (ih e he)

private theorem isFresh_of_mem_builtins : ∀ c ∈ builtins, c.IsFresh := by
  intro c hc
  simp only [builtins, List.mem_cons, List.not_mem_nil, or_false] at hc
  rcases hc with rfl | rfl | rfl | rfl | rfl <;> exact .of_memberless rfl rfl rfl

/-- The built-in classes are fresh, so a table that starts with them is reachable. -/
theorem reachable_initial (generation : Nat) (allowsDynamic : Bool) (h : Heap) :
    (initial generation allowsDynamic h).1.Reachable := by
  apply List.foldlRecOn (motive := fun s : ClassTable × Heap => s.1.Reachable)
  · exact .empty generation allowsDynamic
  intro s hs c hc
  dsimp only
  split
  next hd => exact hs.declare (isFresh_of_mem_builtins c hc) hd
  next => exact hs

def declareAll (t : ClassTable) (h : Heap) : List ClassDef → Except Error (ClassTable × Heap)
  | [] => .ok (t, h)
  | c :: cs => do
    let (t, h, _) ← t.declare h c
    declareAll t h cs

theorem Reachable.declareAll (ht : t.Reachable) {cs : List ClassDef} (hc : ∀ c ∈ cs, c.IsFresh)
    (hd : t.declareAll h cs = .ok (t', h')) : t'.Reachable := by
  induction cs generalizing t h with
  | nil =>
    cases hd
    exact ht
  | cons c cs ih =>
    obtain ⟨⟨t₁, h₁, d⟩, hd₁, hd⟩ := exists_of_bind_eq_ok hd
    exact ih (ht.declare (hc c List.mem_cons_self) hd₁)
      (fun e he => hc e (List.mem_cons_of_mem c he)) hd

/-- A table that results from some declarations is reachable. -/
theorem exists_table_of_declareAll (cs : List ClassDef) (p : ClassTable → Bool)
    (hc : ∀ c ∈ cs, c.IsFresh)
    (h : ((declareAll {} {} cs).toOption.any (p ·.1)) = true) :
    ∃ t : ClassTable, t.Reachable ∧ p t = true := by
  obtain ⟨⟨t, h⟩, ht, hp⟩ := (Option.any_eq_true _ _).1 h
  exact ⟨t, .declareAll (.empty 0 true) hc (eq_ok_of_toOption_eq_some ht), hp⟩

/-- A class that results from some declarations is in a reachable table. -/
theorem exists_of_declareAll (cs : List ClassDef) (name : String) (p : ClassDef → Bool)
    (hc : ∀ c ∈ cs, c.IsFresh)
    (h : ((declareAll {} {} cs).toOption.bind (·.1.get? name)).any p = true) :
    ∃ t : ClassTable, t.Reachable ∧ ∃ c ∈ t.classes.values, p c = true := by
  obtain ⟨t, ht, hp⟩ := exists_table_of_declareAll cs (fun t => (t.get? name).any p) hc
    (by rwa [Option.any_bind] at h)
  obtain ⟨c, hf, hp⟩ := (Option.any_eq_true _ _).1 hp
  exact ⟨t, ht, c, mem_values_of_get? hf, hp⟩

/-- A class that has just been declared has no parent, or one of the table that was checked. -/
theorem ancestors_of_declare (hc : c.IsFresh) (hd : t.declare h c = .ok (t', h', d)) :
    d.ancestors = [d] ∨ ∃ parent ∈ t.classes.values, d.parent? = some parent ∧
      (markReadonly c).checkParent parent = .ok () ∧ d.ancestors = d :: parent.ancestors := by
  rw [ClassDef.ancestors_eq]
  obtain ⟨-, -, -, -, hp | ⟨name, parent, hn, hcheck, hp⟩⟩ := frame_of_declare hd
  · rw [hp, hc.parent?_eq_none]
    exact .inl rfl
  · rw [hp]
    exact .inr ⟨parent, mem_values_of_get? hn, rfl, hcheck, rfl⟩

/-- A class is found under its name. -/
theorem Reachable.get?_name (ht : t.Reachable) :
    ∀ c ∈ t.classes.values, t.get? c.name = some c := by
  apply ht.induction_on (Q := fun t c => t.get? c.name = some c)
  · intro t t' e he hc
    exact he _ _ hc
  · intro t t' h h' c d _ _ hd _
    exact get?_self_of_declare hd

/-- The ancestors of a class are in the table as well. -/
theorem Reachable.mem_of_mem_ancestors (ht : t.Reachable) :
    ∀ c ∈ t.classes.values, ∀ a ∈ c.ancestors, a ∈ t.classes.values := by
  have hget : ∀ c ∈ t.classes.values, ∀ a ∈ c.ancestors, t.get? a.name = some a := by
    apply ht.induction_on (Q := fun t c => ∀ a ∈ c.ancestors, t.get? a.name = some a)
    · intro t t' e he hc a ha
      exact he _ _ (hc a ha)
    · intro t t' h h' c d ht hc hd ih a ha
      have hself := get?_self_of_declare hd
      obtain he | ⟨parent, hp, -, -, he⟩ := ancestors_of_declare hc hd
      · rw [he, List.mem_singleton] at ha
        exact ha ▸ hself
      · rw [he] at ha
        obtain rfl | ha := List.mem_cons.1 ha
        · exact hself
        · exact extends_of_declare hd _ _ (ih parent hp a ha)
  intro c hc a ha
  exact mem_values_of_get? (hget c hc a ha)

/-- No proper ancestor of a class has its name. -/
theorem Reachable.name_ne_of_mem_ancestors (ht : t.Reachable) :
    ∀ c ∈ t.classes.values, ∀ a ∈ c.ancestors.tail, a.name ≠ c.name := by
  apply ht.induction_on (Q := fun _ c => ∀ a ∈ c.ancestors.tail, a.name ≠ c.name)
  · intro _ _ _ _ hc
    exact hc
  · intro t t' h h' c d ht hc hd ih a ha hn
    obtain he | ⟨parent, hp, -, -, he⟩ := ancestors_of_declare hc hd
    · rw [he] at ha
      cases ha
    · rw [he] at ha
      have hg := ht.get?_name a (ht.mem_of_mem_ancestors parent hp a ha)
      rw [hn, (frame_of_declare hd).1, (exists_of_declare hd).1] at hg
      cases hg

end ClassTable

end ObjectModel
