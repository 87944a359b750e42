import ObjectModel.Class.InPlace
import ObjectModel.Proofs.Class.Supertypes
/-!
# Linking is all or nothing

Linking works on a class in place, but its steps are in an order that makes this invisible: every
check comes before the first write, and no write fails. `inheritInPlace_eq` and
`implementInPlace_eq` say so for the whole class: either it is what `ClassDef.inherit` or
`ClassDef.implement` makes of it, or it is what it was. For a sequence of steps this is said by
`takeSteps_map_checking`, which puts checks in front of steps that are known, and
`takeSteps_map_writing`, which takes writes away.

What a class then has from its parent is the same for every member (`Adopts`): a look-up finds what
the class had in its table, and otherwise what it would find from the parent. It does not matter
whether the parent's member was copied, or passed over since it is private or a constructor.
-/

namespace ObjectModel

namespace ClassDef

variable {α β : Type} {c d parent i : ClassDef} {steps : List Step} {r : Except Error ClassDef}

/-- A class after an attempt to link it that does all of its work or none. -/
def allOrNothing (c : ClassDef) : Except Error ClassDef → ClassDef × Except Error Unit
  | .ok d => (d, .ok ())
  | .error e => (c, .error e)

theorem allOrNothing_eq_error {e : Error} (h : c.allOrNothing r = (d, .error e)) : d = c := by
  cases r with
  | ok => cases h
  | error =>
    cases h
    rfl

theorem allOrNothing_eq_ok (h : c.allOrNothing r = (d, .ok ())) : r = .ok d := by
  cases r with
  | ok =>
    cases h
    rfl
  | error => cases h

/-- A check in front of steps stops them all or none. -/
theorem takeSteps_checking (check : ClassDef → Except Error Unit)
    (h : c.takeSteps steps = c.allOrNothing r) :
    c.takeSteps (checking check :: steps) = c.allOrNothing (check c >>= fun _ => r) := by
  cases hc : check c with
  | error e =>
    have hstep : checking check c = .error e := by
      simp only [checking, hc]
      rfl
    rw [takeSteps_cons_error hstep]
    rfl
  | ok =>
    have hstep : checking check c = .ok c := by
      simp only [checking, hc]
      rfl
    rw [takeSteps_cons_ok hstep, h]
    rfl

theorem takeSteps_map_checking (check : α → ClassDef → Except Error Unit) (l : List α)
    (h : c.takeSteps steps = c.allOrNothing r) :
    c.takeSteps (l.map (fun a => checking (check a)) ++ steps) =
      c.allOrNothing (l.forM (check · c) >>= fun _ => r) := by
  induction l with
  | nil => exact h
  | cons a l ih =>
    rw [List.map_cons, List.cons_append, takeSteps_checking (check a) ih]
    congr 1
    show _ = (check a c >>= fun _ => l.forM (check · c)) >>= fun _ => r
    rw [bind_assoc]

/-- Writes are taken one after another, whatever comes after them. -/
theorem takeSteps_map_writing (write : α → ClassDef → ClassDef) (l : List α) (c : ClassDef) :
    c.takeSteps (l.map (fun a => writing (write a)) ++ steps) =
      (l.foldl (fun c a => write a c) c).takeSteps steps := by
  induction l generalizing c with
  | nil => rfl
  | cons a l ih =>
    have hstep : writing (write a) c = .ok (write a c) := rfl
    rw [List.map_cons, List.cons_append, takeSteps_cons_ok hstep, ih, List.foldl_cons]

/-- Writes to one part of a class come to one write of that part. -/
theorem foldl_write (get : ClassDef → β) (set : β → ClassDef → ClassDef)
    (get_set : ∀ b c, get (set b c) = b) (set_set : ∀ b b' c, set b' (set b c) = set b' c)
    (set_get : ∀ c, set (get c) c = c) (f : β → α → β) (l : List α) (c : ClassDef) :
    l.foldl (fun c a => set (f (get c) a) c) c = set (l.foldl f (get c)) c := by
  induction l generalizing c with
  | nil => exact (set_get c).symm
  | cons a l ih => rw [List.foldl_cons, ih, get_set, set_set, List.foldl_cons]

theorem takeSteps_parentWrites (c parent : ClassDef) :
    c.takeSteps (parentWrites parent) = (c.withParent parent, .ok ()) := by
  simp only [parentWrites, List.append_assoc, takeSteps_map_writing]
  rw [foldl_write (fun c => c.methods) (fun ms c => { c with methods := ms })
      (fun _ _ => rfl) (fun _ _ _ => rfl) (fun c => by cases c; rfl)
      (inheritEntry MethodDef.isInheritable),
    foldl_write (fun c => c.properties) (fun ps c => { c with properties := ps })
      (fun _ _ => rfl) (fun _ _ _ => rfl) (fun c => by cases c; rfl)
      (inheritEntry PropertyDef.isInheritable),
    foldl_write (fun c => c.constants) (fun ks c => { c with constants := ks })
      (fun _ _ => rfl) (fun _ _ _ => rfl) (fun c => by cases c; rfl)
      (inheritEntry ConstantDef.isInheritable),
    foldl_write (fun c => c.interfaces) (fun is c => { c with interfaces := is })
      (fun _ _ => rfl) (fun _ _ _ => rfl) (fun c => by cases c; rfl) addInterface]
  rfl

/-- What is checked against a parent, one thing after another. -/
theorem checkParent_eq (c parent : ClassDef) :
    c.checkParent parent = (do
      checkExtends parent c
      checkReadonlyLike parent c
      checkOverrides (MethodDef.checkOverride c.name) c.methods parent.methods
      checkOverrides (PropertyDef.checkOverride c.name) c.properties parent.properties
      checkOverrides (ConstantDef.checkOverride c.name) c.constants parent.constants) := by
  rw [checkParent, checkExtends, checkReadonlyLike]
  cases c.extendFault? parent with
  | some fault => rfl
  | none =>
    by_cases hr : c.isReadonly = parent.isReadonly
    · simp only [ne_eq, hr, not_true_eq_false, if_false]
      rfl
    · simp only [ne_eq, hr, not_false_eq_true, if_true]
      rfl

/-- Linking a class to its parent makes it what `ClassDef.inherit` says, or leaves it alone. -/
theorem inheritInPlace_eq (c parent : ClassDef) :
    c.inheritInPlace parent = c.allOrNothing (c.inherit parent) := by
  -- From the last step to the first: the writes succeed, and each group of checks goes before what
  -- is known already.
  have hwrites : c.takeSteps (parentWrites parent) = c.allOrNothing (.ok (c.withParent parent)) :=
    takeSteps_parentWrites c parent
  have hconstants := takeSteps_map_checking
    (fun e c => checkEntry (ConstantDef.checkOverride c.name) c.constants e)
    parent.constants.entries hwrites
  have hproperties := takeSteps_map_checking
    (fun e c => checkEntry (PropertyDef.checkOverride c.name) c.properties e)
    parent.properties.entries hconstants
  have hmethods := takeSteps_map_checking
    (fun e c => checkEntry (MethodDef.checkOverride c.name) c.methods e)
    parent.methods.entries hproperties
  have hreadonly := takeSteps_checking (checkReadonlyLike parent) hmethods
  have hextends := takeSteps_checking (checkExtends parent) hreadonly
  rw [inheritInPlace, parentChecks]
  simp only [List.append_assoc, List.cons_append, List.nil_append]
  rw [hextends, inherit, checkParent_eq]
  simp only [bind_assoc]
  rfl

/-- Linking a class to an interface makes it what `ClassDef.implement` says, or leaves it alone. -/
theorem implementInPlace_eq (c i : ClassDef) :
    c.implementInPlace i = c.allOrNothing (c.implement i) := by
  have hwrites : c.takeSteps (i.inheritedConstants.map (fun k => writing fun c =>
        { c with constants := c.constants.insertIfNew k.name k }) ++
      [writing fun c => { c with interfaces := addInterface c.interfaces i }]) =
      c.allOrNothing (.ok { c with
        constants := i.inheritedConstants.foldl (fun m k => m.insertIfNew k.name k) c.constants
        interfaces := addInterface c.interfaces i }) := by
    rw [takeSteps_map_writing,
      foldl_write (fun c => c.constants) (fun ks c => { c with constants := ks })
      (fun _ _ => rfl) (fun _ _ _ => rfl) (fun c => by cases c; rfl)
      (fun (m : OrderedMap String ConstantDef) k => m.insertIfNew k.name k)]
    rfl
  have hconstants := takeSteps_map_checking
    checkInterfaceConstant i.inheritedConstants hwrites
  have hkind := takeSteps_checking (checkIsInterface i) hconstants
  rw [implementInPlace]
  simp only [List.append_assoc, List.cons_append, List.nil_append]
  rw [hkind, implement, checkIsInterface]
  by_cases hk : i.kind = .interface
  · simp only [ne_eq, hk, not_true_eq_false, if_false]
    rfl
  · simp only [ne_eq, hk, not_false_eq_true, if_true]
    rfl

/-- A class has adopted what a parent offers: `d` is what `c` has become. -/
structure Adopts (c parent d : ClassDef) : Prop where
  /-- The methods in the table of the class stay in front of those that the parent finds. -/
  findMethod?_eq (name : String) :
    d.findMethod? name = (c.methods.get? (Name.foldCase name)).or (parent.findMethod? name)
  /-- The properties in the table of the class stay in front of those that the parent finds. -/
  findProperty?_eq (name : String) :
    d.findProperty? name = (c.properties.get? name).or (parent.findProperty? name)
  /-- The class lists the interfaces of the parent, or others of the same names. -/
  exists_interface : ∀ i ∈ parent.interfaces, ∃ j ∈ d.interfaces, j.isNamed i.name = true

/-- Copying some members of a table down makes no difference to a look-up that goes on to that
table. -/
theorem get?_inheritMembers_or (inheritable : β → Bool) (own inherited : OrderedMap String β)
    (key : String) (rest : Option β) :
    ((inheritMembers inheritable own inherited).get? key).or ((inherited.get? key).or rest) =
      (own.get? key).or ((inherited.get? key).or rest) := by
  rw [get?_inheritMembers]
  cases own.get? key with
  | some => rfl
  | none =>
    cases inherited.get? key with
    | none => rfl
    | some b =>
      rw [Option.some_or, Option.none_or, Option.none_or, Option.filter_some]
      split <;> rfl

theorem tail_ancestors_withParent (c parent : ClassDef) :
    (c.withParent parent).ancestors.tail = parent.ancestors := by
  rw [ancestors_eq]
  rfl

theorem adopts_withParent (c parent : ClassDef) : c.Adopts parent (c.withParent parent) where
  findMethod?_eq name := by
    rw [findMethod?, findMethod?, findSome?_ancestors, tail_ancestors_withParent,
      findSome?_ancestors parent]
    exact get?_inheritMembers_or MethodDef.isInheritable c.methods parent.methods _ _
  findProperty?_eq name := by
    rw [findProperty?, findProperty?, findSome?_ancestors, tail_ancestors_withParent,
      findSome?_ancestors parent]
    exact get?_inheritMembers_or PropertyDef.isInheritable c.properties parent.properties _ _
  exists_interface _ hi := exists_isNamed_of_foldl_addInterface c.interfaces hi

/-- Linking a class to its parent or to an interface leaves the class exactly as it was if it fails,
and a class that has been linked to its parent has adopted what the parent offers. -/
theorem linking_all_or_nothing (c parent i : ClassDef) :
    (∀ d e, c.inheritInPlace parent = (d, .error e) → d = c) ∧
    (∀ d, c.inheritInPlace parent = (d, .ok ()) → c.Adopts parent d) ∧
    ∀ d e, c.implementInPlace i = (d, .error e) → d = c := by
  refine ⟨fun d e he => ?_, fun d hd => ?_, fun d e he => ?_⟩
  · rw [inheritInPlace_eq] at he
    exact allOrNothing_eq_error he
  · rw [inheritInPlace_eq] at hd
    obtain ⟨⟨⟩, -, hd⟩ := exists_of_bind_eq_ok (allOrNothing_eq_ok hd)
    cases hd
    exact adopts_withParent c parent
  · rw [implementInPlace_eq] at he
    exact allOrNothing_eq_error he

def elder : ClassDef :=
  ({ name := "Elder", interfaces := [{ name := "I", kind := .interface }] } : ClassDef)
    |>.addMethod { name := "greet" }
    |>.addMethod { name := "ponder", visibility := .isPrivate }
    |>.addProperty { name := "age", default := .int 80 }

/-- A child finds its own greeting and everything else from its parent. A child whose greeting is
static, and one that takes the parent for an interface, stay as they were. -/
theorem linking_all_or_nothing_of_elder :
    (∃ d, (({ name := "C" } : ClassDef)
          |>.addMethod { name := "greet", params := 1 }).inheritInPlace elder = (d, .ok ()) ∧
      d.findMethod? "greet" = some { name := "greet", params := 1, declaringClass := "C" } ∧
      d.findMethod? "Ponder" =
        some { name := "ponder", visibility := .isPrivate, declaringClass := "Elder" } ∧
      d.findProperty? "age" =
        some { name := "age", default := .int 80, declaringClass := "Elder" } ∧
      ∃ j ∈ d.interfaces, j.isNamed "i" = true) ∧
    (∃ c e, c = ({ name := "C" } : ClassDef).addMethod { name := "greet", isStatic := true } ∧
      c.inheritInPlace elder = (c, .error e)) ∧
    ∃ e, ({ name := "C" } : ClassDef).implementInPlace elder = ({ name := "C" }, .error e) := by
  refine ⟨?_, ?_, ?_⟩
  · obtain ⟨d, hd⟩ : ∃ d, (({ name := "C" } : ClassDef)
        |>.addMethod { name := "greet", params := 1 }).inheritInPlace elder = (d, .ok ()) :=
      ⟨_, rfl⟩
    have hadopts := (linking_all_or_nothing _ elder elder).2.1 d hd
    refine ⟨d, hd, hadopts.findMethod?_eq _, hadopts.findMethod?_eq _, hadopts.findProperty?_eq _,
      ?_⟩
    obtain ⟨j, hj, hn⟩ := hadopts.exists_interface { name := "I", kind := .interface }
      (List.mem_singleton.2 rfl)
    exact ⟨j, hj, Name.same_trans hn (by decide)⟩
  · obtain ⟨d, e, he⟩ : ∃ d e, (({ name := "C" } : ClassDef)
        |>.addMethod { name := "greet", isStatic := true }).inheritInPlace elder = (d, .error e) :=
      ⟨_, _, rfl⟩
    have hd := (linking_all_or_nothing _ elder elder).1 d e he
    exact ⟨_, e, rfl, hd ▸ he⟩
  · obtain ⟨d, e, he⟩ : ∃ d e, ({ name := "C" } : ClassDef).implementInPlace elder =
        (d, .error e) := ⟨_, _, rfl⟩
    have hd := (linking_all_or_nothing _ elder elder).2.2 d e he
    exact ⟨e, hd ▸ he⟩

end ClassDef

end ObjectModel
