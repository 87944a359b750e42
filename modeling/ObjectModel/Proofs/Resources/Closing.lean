import Mathlib.Data.List.Basic
import Mathlib.Logic.Relation
import ObjectModel.Resources
/-!
# Closing resources

Closing a resource runs its destructor, which may close another resource by its number, and so on.
The chain ends at the first resource that is closed already, so no resource is closed twice on the
way. `Closes` says what a whole chain does: which resources it closes and in which order, and that
nothing else changes. `exists_closes_of_close` proves it of closing; the destructors that run are
those of the resources on the chain, each once.
-/

namespace ObjectModel

/-- What is left of a resource that has been closed. -/
def Resource.closed (r : Resource) : Resource :=
  { r with isClosed := true, destructor? := none, payload? := none }

namespace Resources

variable {rs rs' : Resources} {id other x : ResourceId} {r : Resource}

theorem find?_eq (rs : Resources) (id : ResourceId) :
    rs.find? id = if id.number = 0 then none else rs.all[id.number - 1]? := by
  rw [find?, indexOf?]
  split
  next h =>
    rw [if_neg (by omega), Option.map_some, Array.getElem?_eq_getElem]
    rfl
  next h =>
    rw [Option.map_none]
    split
    · rfl
    · exact (Array.getElem?_eq_none (by omega)).symm

theorem getElem?_all_modify (rs : Resources) (id : ResourceId) (f : Resource → Resource) (j : Nat) :
    (rs.modify id f).all[j]? =
      if id.number = j + 1 then rs.all[j]?.map f else rs.all[j]? := by
  rw [modify, indexOf?]
  by_cases h : 1 ≤ id.number ∧ id.number ≤ rs.all.size
  · simp only [dif_pos h, Fin.getElem_fin, Array.getElem?_set]
    by_cases hj : id.number = j + 1
    · have hlt : j < rs.all.size := by omega
      simp only [hj, Nat.add_sub_cancel, if_true, Array.getElem?_eq_getElem hlt, Option.map_some]
    · rw [if_neg (by omega), if_neg hj]
  · simp only [dif_neg h]
    split
    next hj => rw [Array.getElem?_eq_none (by omega), Option.map_none]
    next => rfl

@[simp] theorem size_modify (rs : Resources) (id : ResourceId) (f : Resource → Resource) :
    (rs.modify id f).all.size = rs.all.size := by
  rw [modify]
  split <;> simp

@[simp] theorem find?_modify (rs : Resources) (id x : ResourceId) (f : Resource → Resource) :
    (rs.modify id f).find? x = if x = id then (rs.find? x).map f else rs.find? x := by
  rw [find?_eq, find?_eq, getElem?_all_modify]
  obtain ⟨n⟩ := x
  obtain ⟨k⟩ := id
  simp only [ResourceId.mk.injEq]
  cases n with
  | zero => simp
  | succ n => by_cases h : k = n + 1 <;> simp [h, eq_comm]

def open? (rs : Resources) (id : ResourceId) : Option Resource :=
  (rs.find? id).filter (!·.isClosed)

theorem open?_eq_some_iff : rs.open? id = some r ↔ rs.find? id = some r ∧ r.isClosed = false := by
  rw [open?, Option.filter_eq_some_iff, Bool.not_eq_true']

/-- The label that the destructor of a resource reports, if it has one. -/
def label? (rs : Resources) (id : ResourceId) : Option String :=
  ((rs.find? id).bind (·.destructor?)).map (·.label)

/-- The resource that the destructor of an open one closes, if it closes any. -/
def next? (rs : Resources) (id : ResourceId) : Option ResourceId :=
  (((rs.open? id).bind (·.destructor?)).bind (·.closes?)).bind rs.registered?

def LeadsTo (rs : Resources) (a b : ResourceId) : Prop :=
  rs.next? a = some b ∧ (rs.open? b).isSome

/-- What is reached from an open resource is open. -/
theorem isSome_open?_of_reflTransGen (h : Relation.ReflTransGen rs.LeadsTo id x)
    (hid : (rs.open? id).isSome) : (rs.open? x).isSome := by
  induction h with
  | refl => exact hid
  | tail _ hs _ => exact hs.2

def markClosed (rs : Resources) (id : ResourceId) : Resources :=
  rs.modify id fun r => { r with isClosed := true, destructor? := none }

theorem registered?_markClosed : (rs.markClosed id).registered? x = rs.registered? x := by
  rw [registered?, registered?, markClosed, find?_modify]
  split
  · cases rs.find? x <;> rfl
  · rfl

theorem open?_markClosed : (rs.markClosed id).open? x = if x = id then none else rs.open? x := by
  rw [open?, open?, markClosed, find?_modify]
  split
  · cases rs.find? x <;> rfl
  · rfl

/-- A resource whose destructor runs leads nowhere, and nothing leads to it. -/
theorem leadsTo_markClosed_iff {a b : ResourceId} :
    (rs.markClosed id).LeadsTo a b ↔ rs.LeadsTo a b ∧ a ≠ id ∧ b ≠ id := by
  have hreg : (rs.markClosed id).registered? = rs.registered? :=
    funext fun x => registered?_markClosed
  simp only [LeadsTo, next?, open?_markClosed, hreg]
  by_cases ha : a = id <;> by_cases hb : b = id <;> simp [ha, hb]

theorem label?_markClosed (h : x ≠ id) : (rs.markClosed id).label? x = rs.label? x := by
  rw [label?, label?, markClosed, find?_modify, if_neg h]

/-- Whether closing a resource leads from one registry to another and closes the given resources,
each once: those that are reached from it by way of destructors. Nothing happens to the others. -/
structure Closes (rs : Resources) (id : ResourceId) (ids : List ResourceId) (rs' : Resources) :
    Prop where
  nodup : ids.Nodup
  mem_iff : ∀ x, x ∈ ids ↔ (rs.open? id).isSome ∧ Relation.ReflTransGen rs.LeadsTo id x
  size_eq : rs'.all.size = rs.all.size
  find?_eq : ∀ x, rs'.find? x = if x ∈ ids then (rs.find? x).map Resource.closed else rs.find? x

namespace Closes

variable {ids : List ResourceId}

theorem isSome_open? (h : rs.Closes id ids rs') (hx : x ∈ ids) : (rs.open? x).isSome :=
  let ⟨hid, hr⟩ := (h.mem_iff x).1 hx
  isSome_open?_of_reflTransGen hr hid

/-- Closing what is not open does nothing. -/
theorem nil (h : rs.open? id = none) : rs.Closes id [] rs where
  nodup := List.nodup_nil
  mem_iff x := by simp [h]
  size_eq := rfl
  find?_eq x := by simp

/-- What has been closed while the destructor of a resource ran, and then the resource itself. -/
theorem find?_cons {rs₂ : Resources} (hr : rs.open? id = some r) (hid : id ∉ ids)
    (hfind : ∀ x, rs₂.find? x = if x ∈ ids then ((rs.markClosed id).find? x).map Resource.closed
      else (rs.markClosed id).find? x) :
    (rs₂.modify id fun r => { r with payload? := none }).find? x =
      if x ∈ id :: ids then (rs.find? x).map Resource.closed else rs.find? x := by
  rw [find?_modify, hfind, markClosed, find?_modify]
  by_cases hx : x = id
  · subst hx
    simp only [hid, if_true, if_false, List.mem_cons, true_or, Option.map_map]
    rfl
  · simp only [hx, if_false, List.mem_cons, false_or]

/-- A resource whose destructor closes no other. -/
theorem last (hr : rs.open? id = some r) (hnext : rs.next? id = none) :
    rs.Closes id [id] ((rs.markClosed id).modify id fun r => { r with payload? := none }) where
  nodup := List.nodup_cons.2 ⟨List.not_mem_nil, List.nodup_nil⟩
  mem_iff x := by
    rw [hr, List.mem_singleton, Option.isSome_some, eq_self, true_and]
    constructor
    · rintro rfl
      exact .refl
    · intro h
      obtain rfl | ⟨y, hy, -⟩ := Relation.ReflTransGen.cases_head h
      · rfl
      · cases hnext.symm.trans hy.1
  size_eq := by rw [size_modify, markClosed, size_modify]
  find?_eq x := find?_cons hr List.not_mem_nil (by simp)

/-- A resource whose destructor runs is not closed another time meanwhile. -/
theorem notMem (h : (rs.markClosed id).Closes other ids rs') : id ∉ ids := by
  intro hm
  have hopen := h.isSome_open? hm
  rw [open?_markClosed, if_pos rfl] at hopen
  cases hopen

/-- A resource whose destructor closes another one. -/
theorem cons {rs₂ : Resources} (hr : rs.open? id = some r) (hnext : rs.next? id = some other)
    (h : (rs.markClosed id).Closes other ids rs₂) :
    rs.Closes id (id :: ids) (rs₂.modify id fun r => { r with payload? := none }) := by
  refine ⟨List.nodup_cons.2 ⟨h.notMem, h.nodup⟩, ?_, ?_, fun x => find?_cons hr h.notMem h.find?_eq⟩
  · intro x
    rw [List.mem_cons, h.mem_iff, open?_markClosed, hr, Option.isSome_some, eq_self, true_and]
    constructor
    · rintro (rfl | ⟨ho, hx⟩)
      · exact .refl
      · have hle : ∀ a b, (rs.markClosed id).LeadsTo a b → rs.LeadsTo a b :=
          fun a b hab => (leadsTo_markClosed_iff.1 hab).1
        split at ho
        · cases ho
        · exact .head ⟨hnext, ho⟩ (Relation.ReflTransGen.mono hle _ _ hx)
    · intro hx
      induction hx with
      | refl => exact .inl rfl
      | @tail y z _ hyz ih =>
        by_cases hz : z = id
        · exact .inl hz
        right
        obtain rfl | ⟨ho, hy⟩ := ih
        · obtain rfl : other = z := Option.some.inj (hnext.symm.trans hyz.1)
          rw [if_neg hz]
          exact ⟨hyz.2, .refl⟩
        · -- what is reached without the first resource is not the first resource
          have hyo := isSome_open?_of_reflTransGen hy (by rwa [open?_markClosed])
          have hyne : y ≠ id := by
            rintro rfl
            rw [open?_markClosed, if_pos rfl] at hyo
            cases hyo
          exact ⟨ho, hy.tail (leadsTo_markClosed_iff.2 ⟨hyz, hyne, hz⟩)⟩
  · rw [size_modify, h.size_eq, markClosed, size_modify]

end Closes

def openCount (rs : Resources) : Nat := rs.all.countP (!·.isClosed)

theorem openCount_markClosed (hr : rs.open? id = some r) :
    (rs.markClosed id).openCount + 1 = rs.openCount := by
  obtain ⟨hf, ho⟩ := open?_eq_some_iff.1 hr
  obtain ⟨i, hi, he⟩ := Option.map_eq_some_iff.1 hf
  have hp : (!rs.all[i].isClosed) = true := by rw [he, ho, Bool.not_false]
  have hpos := Array.boole_getElem_le_countP (p := fun r : Resource => !r.isClosed) i.isLt
  rw [markClosed, modify, hi, openCount, openCount, Array.countP_set]
  simp only [Fin.getElem_fin] at hp
  simp only [hp, if_true] at hpos ⊢
  simp only [Bool.not_true, Bool.false_eq_true, if_false]
  omega

/-- Closing an open resource: it is marked, then its destructor reports and closes the next one, and
last of all its payload goes. -/
theorem closeWithin_succ {n : Nat} (hr : rs.open? id = some r) :
    closeWithin (n + 1) rs id =
      let tail := match rs.next? id with
        | none => (rs.markClosed id, [])
        | some other =>
          ((closeWithin n (rs.markClosed id) other).1, (closeWithin n (rs.markClosed id) other).2.2)
      (tail.1.modify id fun r => { r with payload? := none }, true,
        (rs.label? id).toList ++ tail.2) := by
  have hreg : (rs.markClosed id).registered? = rs.registered? :=
    funext fun x => registered?_markClosed
  have hlabel : rs.label? id = r.destructor?.map (·.label) := by
    rw [label?, (open?_eq_some_iff.1 hr).1, Option.bind_some]
  have hnext : rs.next? id = (r.destructor?.bind (·.closes?)).bind rs.registered? := by
    rw [next?, hr, Option.bind_some]
  rw [open?] at hr
  rw [closeWithin, hr, hlabel, hnext]
  dsimp only
  cases r.destructor? with
  | none => rfl
  | some d =>
    rw [markClosed] at hreg ⊢
    simp only [hreg, Option.bind_some]
    cases d.closes?.bind rs.registered? <;> rfl

/-- Following as many destructors as there are open resources is following all of them. -/
theorem exists_closes_of_closeWithin {n : Nat} (hn : rs.openCount ≤ n) :
    ∃ ids, rs.Closes id ids (closeWithin n rs id).1 ∧
      (closeWithin n rs id).2 = ((rs.open? id).isSome, ids.filterMap rs.label?) := by
  induction n generalizing rs id with
  | zero =>
    cases hr : rs.open? id with
    | none => exact ⟨[], .nil hr, rfl⟩
    | some r =>
      have := openCount_markClosed hr
      omega
  | succ n ih =>
    cases hr : rs.open? id with
    | none =>
      have he : closeWithin (n + 1) rs id = (rs, false, []) := by
        rw [open?] at hr
        simp only [closeWithin, hr]
      exact ⟨[], he ▸ .nil hr, he ▸ rfl⟩
    | some r =>
      rw [closeWithin_succ hr]
      cases hnext : rs.next? id with
      | none =>
        refine ⟨[id], .last hr hnext, ?_⟩
        cases hl : rs.label? id <;> simp [hl]
      | some other =>
        have hcount := openCount_markClosed hr
        obtain ⟨ids, hc, he⟩ := @ih (rs.markClosed id) other (by omega)
        have hlabels : ids.filterMap (rs.markClosed id).label? = ids.filterMap rs.label? := by
          refine List.filterMap_congr fun x hx => label?_markClosed ?_
          rintro rfl
          exact hc.notMem hx
        refine ⟨id :: ids, .cons hr hnext hc, ?_⟩
        rw [Prod.ext_iff] at he
        simp only [he.2, hlabels, Option.isSome_some]
        cases hl : rs.label? id <;> simp [hl]

/-- Closing closes a resource and those that are reached from it by way of destructors. The answer
tells whether it was open, and the reports are those of the resources that have been closed. -/
theorem exists_closes_of_close (rs : Resources) (id : ResourceId) :
    ∃ ids, rs.Closes id ids (rs.close id).1 ∧
      (rs.close id).2 = ((rs.open? id).isSome, ids.filterMap rs.label?) := by
  apply exists_closes_of_closeWithin
  exact Nat.le_succ_of_le Array.countP_le_size

end Resources

end ObjectModel
