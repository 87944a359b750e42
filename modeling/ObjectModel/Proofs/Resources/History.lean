import Mathlib.Data.List.Induction
import ObjectModel.Proofs.Resources.Closing
/-!
# Runs of the resource registry

A run registers resources, closes them by their handles or by their numbers, and purges the
registry. `Continues` is the invariant of all runs: a resource is as it was registered for as long
as it is open, and is never taken out of the registry before it is closed. So closing by number
comes to the same as closing by the handle.
-/

namespace ObjectModel

/-- What a resource may have come to since it was registered: as long as it is open, its destructor
is still to run and it can be found by its number. -/
structure Resource.Continues (r₀ r : Resource) : Prop where
  kind_eq : r.kind = r₀.kind
  destructor?_eq : r.isClosed = false → r.destructor? = r₀.destructor?
  isRegistered : r.isClosed = false → r.isRegistered = true

namespace Resources

variable {rs₀ rs rs' : Resources} {id x : ResourceId} {r r₀ : Resource}

inductive Operation where
  | register (kind : String) (destructor? : Option Destructor) (payload? : Option Int64)
  /-- Closing through a handle, which is good for ever. -/
  | close (id : ResourceId)
  /-- Closing by number, which works while the number is registered. -/
  | closeRegistered (id : ResourceId)
  | purge

inductive Answer where
  | handle (id : ResourceId)
  /-- Whether the resource was open, and what the destructors reported. -/
  | closed (wasOpen : Bool) (reports : List String)
  | purged (n : Nat)

def Answer.handle? : Answer → Option ResourceId
  | handle id => some id
  | _ => none

def Answer.reports : Answer → List String
  | closed _ reports => reports
  | _ => []

namespace Operation

def resource? : Operation → Option Resource
  | register kind destructor? payload? => some { kind, destructor?, payload? }
  | _ => none

def target? : Operation → Option ResourceId
  | close id | closeRegistered id => some id
  | _ => none

/-- Whether an operation closes a resource: it finds its target open, and comes from there to the
resource by way of destructors. -/
def Reaches (op : Operation) (rs : Resources) (x : ResourceId) : Prop :=
  ∃ target, op.target? = some target ∧ (rs.open? target).isSome ∧
    Relation.ReflTransGen rs.LeadsTo target x

theorem target?_of_resource? {op : Operation} {r : Resource} (h : op.resource? = some r) :
    op.target? = none := by
  cases op <;> cases h
  rfl

theorem resource?_of_target? {op : Operation} {id : ResourceId} (h : op.target? = some id) :
    op.resource? = none := by
  cases op <;> cases h <;> rfl

/-- The three kinds of operation. -/
theorem registers_or_closes_or_purges (op : Operation) :
    (∃ r, op.resource? = some r) ∨ (∃ id, op.target? = some id) ∨ op = .purge := by
  cases op with
  | register kind destructor? payload? => exact .inl ⟨_, rfl⟩
  | close id => exact .inr (.inl ⟨id, rfl⟩)
  | closeRegistered id => exact .inr (.inl ⟨id, rfl⟩)
  | purge => exact .inr (.inr rfl)

end Operation

def perform (rs : Resources) : Operation → Resources × Answer
  | .register kind destructor? payload? =>
    let (rs, id) := rs.register { kind, destructor?, payload? }
    (rs, .handle id)
  | .close id =>
    let (rs, wasOpen, reports) := rs.close id
    (rs, .closed wasOpen reports)
  | .closeRegistered id =>
    let (rs, wasOpen, reports) := rs.closeRegistered id
    (rs, .closed wasOpen reports)
  | .purge =>
    let (rs, n) := rs.purge
    (rs, .purged n)

/-- The registry after some operations, which start with an empty one, and their answers. -/
def run (ops : List Operation) : Resources × List Answer :=
  ops.foldl (fun (rs, answers) op => ((rs.perform op).1, answers ++ [(rs.perform op).2])) ({}, [])

def after (ops : List Operation) : Resources := (run ops).1

def handles (ops : List Operation) : List ResourceId := (run ops).2.filterMap Answer.handle?

def reports (ops : List Operation) : List String := (run ops).2.flatMap Answer.reports

/-- The resources as they were registered, as if nothing had been done to them since. -/
def registrations (ops : List Operation) : Resources :=
  ⟨(ops.filterMap Operation.resource?).toArray⟩

section Concat

variable (ops : List Operation) (op : Operation)

theorem run_concat : run (ops ++ [op]) =
    (((run ops).1.perform op).1, (run ops).2 ++ [((run ops).1.perform op).2]) := by
  simp [run, List.foldl_append]

theorem after_concat : after (ops ++ [op]) = ((after ops).perform op).1 := by
  rw [after, run_concat, after]

theorem handles_concat :
    handles (ops ++ [op]) = handles ops ++ ((after ops).perform op).2.handle?.toList := by
  have hlast : ∀ a : Answer, [a].filterMap Answer.handle? = a.handle?.toList := by
    intro a
    cases a <;> rfl
  rw [handles, run_concat, List.filterMap_append, hlast, after, handles]

theorem reports_concat :
    reports (ops ++ [op]) = reports ops ++ ((after ops).perform op).2.reports := by
  rw [reports, run_concat, List.flatMap_append, List.flatMap_singleton, after, reports]

variable {op}

theorem registrations_concat (h : op.resource? = some r) :
    registrations (ops ++ [op]) = ((registrations ops).register r).1 := by
  simp [registrations, register, h]

theorem registrations_concat_of_eq_none (h : op.resource? = none) :
    registrations (ops ++ [op]) = registrations ops := by
  simp [registrations, h]

end Concat

theorem isSome_find?_iff : (rs.find? x).isSome ↔ 1 ≤ x.number ∧ x.number ≤ rs.all.size := by
  rw [find?, Option.isSome_map, indexOf?]
  split <;> simp_all

theorem find?_register (rs : Resources) (r : Resource) (x : ResourceId) :
    (rs.register r).1.find? x = if x = (rs.register r).2 then some r else rs.find? x := by
  rw [find?_eq, find?_eq]
  obtain ⟨n⟩ := x
  simp only [register, ResourceId.mk.injEq, Array.getElem?_push]
  cases n with
  | zero => simp
  | succ n => simp

/-- The number of a new resource stood for nothing before. -/
theorem find?_new (rs : Resources) (r : Resource) : rs.find? (rs.register r).2 = none := by
  rw [← Option.not_isSome_iff_eq_none, isSome_find?_iff]
  simp only [register]
  omega

theorem find?_purge (rs : Resources) (x : ResourceId) :
    rs.purge.1.find? x = (rs.find? x).map fun r =>
      { r with isRegistered := r.isRegistered && !r.isClosed } := by
  rw [find?_eq, find?_eq, purge, Array.getElem?_map]
  split <;> rfl

theorem isSome_open?_iff :
    (rs.open? x).isSome ↔ (rs.find? x).isSome ∧ rs.isClosed x = false := by
  rw [open?, isClosed]
  cases rs.find? x with
  | none => simp
  | some r => cases h : r.isClosed <;> simp [h]

theorem perform_of_resource? {op : Operation} (h : op.resource? = some r) :
    rs.perform op = ((rs.register r).1, .handle (rs.register r).2) := by
  cases op <;> cases h
  rfl

/-- One registry as it has become of another that nothing was done to after registering. -/
structure Continues (rs₀ rs : Resources) : Prop where
  size_eq : rs.all.size = rs₀.all.size
  exists_of_find? : ∀ {x r}, rs.find? x = some r → ∃ r₀, rs₀.find? x = some r₀ ∧ r₀.Continues r

namespace Continues

/-- What changes each resource, but so that it goes on, makes the registry go on. -/
theorem trans_map (h : rs₀.Continues rs) (hsize : rs'.all.size = rs.all.size)
    (f : ResourceId → Resource → Resource) (hfind : ∀ x, rs'.find? x = (rs.find? x).map (f x))
    (hf : ∀ x r₀ r, Resource.Continues r₀ r → r₀.Continues (f x r)) : rs₀.Continues rs' := by
  refine ⟨hsize.trans h.size_eq, fun {x r'} hr' => ?_⟩
  rw [hfind] at hr'
  obtain ⟨r, hr, rfl⟩ := Option.map_eq_some_iff.1 hr'
  obtain ⟨r₀, hr₀, hc⟩ := h.exists_of_find? hr
  exact ⟨r₀, hr₀, hf x r₀ r hc⟩

theorem register (h : rs₀.Continues rs) (hr : r.Continues r) :
    (rs₀.register r).1.Continues (rs.register r).1 := by
  have hid : (rs.register r).2 = (rs₀.register r).2 := by simp only [Resources.register, h.size_eq]
  constructor
  · simp only [Resources.register, Array.size_push, h.size_eq]
  · intro x r' hr'
    rw [find?_register, hid] at hr'
    rw [find?_register]
    split at hr'
    next hx =>
      cases hr'
      exact ⟨r, if_pos hx, hr⟩
    next hx =>
      rw [if_neg hx]
      exact h.exists_of_find? hr'

theorem close (h : rs₀.Continues rs) (id : ResourceId) : rs₀.Continues (rs.close id).1 := by
  obtain ⟨ids, hc, -⟩ := exists_closes_of_close rs id
  apply h.trans_map hc.size_eq fun x r => if x ∈ ids then r.closed else r
  · intro x
    rw [hc.find?_eq]
    by_cases hx : x ∈ ids <;> simp [hx]
  · intro x r₀ r hr
    split
    · exact ⟨hr.kind_eq, nofun, nofun⟩
    · exact hr

theorem purge (h : rs₀.Continues rs) : rs₀.Continues rs.purge.1 := by
  apply h.trans_map (by simp [Resources.purge]) _ (find?_purge rs)
  intro _ r₀ r hr
  refine ⟨hr.kind_eq, hr.destructor?_eq, fun ho => ?_⟩
  change r.isClosed = false at ho
  simp only [hr.isRegistered ho, ho, Bool.not_false, Bool.and_self]

/-- An open resource is registered. -/
theorem registered?_eq (h : rs₀.Continues rs) (hx : (rs.open? x).isSome) :
    rs.registered? x = some x := by
  obtain ⟨r, hr⟩ := Option.isSome_iff_exists.1 hx
  obtain ⟨hf, ho⟩ := open?_eq_some_iff.1 hr
  obtain ⟨_, _, hc⟩ := h.exists_of_find? hf
  simp only [registered?, hf, Option.any_some, hc.isRegistered ho, if_true]

/-- An open resource still has the destructor that it was registered with. -/
theorem label?_eq (h : rs₀.Continues rs) (hx : (rs.open? x).isSome) :
    rs.label? x = rs₀.label? x := by
  obtain ⟨r, hr⟩ := Option.isSome_iff_exists.1 hx
  obtain ⟨hf, ho⟩ := open?_eq_some_iff.1 hr
  obtain ⟨r₀, hr₀, hc⟩ := h.exists_of_find? hf
  simp only [label?, hf, hr₀, Option.bind_some, hc.destructor?_eq ho]

/-- Closing by number comes to the same as closing by the handle, since what is not found by its
number is closed. -/
theorem closeRegistered_eq (h : rs₀.Continues rs) (id : ResourceId) :
    rs.closeRegistered id = rs.close id := by
  cases hopen : rs.open? id with
  | some r => rw [closeRegistered, h.registered?_eq (hopen ▸ rfl)]
  | none =>
    have hclose : rs.close id = (rs, false, []) := by
      rw [open?] at hopen
      simp only [Resources.close, closeWithin, hopen]
    rw [closeRegistered, registered?]
    split
    next hid =>
      split at hid
      · cases hid
        rfl
      · cases hid
    next => exact hclose.symm

theorem perform_of_target? (h : rs₀.Continues rs) {op : Operation} (hop : op.target? = some id) :
    rs.perform op = ((rs.close id).1, .closed (rs.close id).2.1 (rs.close id).2.2) := by
  cases op <;> cases hop
  · rfl
  · rw [perform, h.closeRegistered_eq]

end Continues

/-- Whatever is done, the resources go on from their registration. -/
theorem continues_after (ops : List Operation) : (registrations ops).Continues (after ops) := by
  induction ops using List.reverseRecOn with
  | nil =>
    constructor
    · rfl
    · intro x r hr
      have hx := isSome_find?_iff.1 (Option.isSome_of_mem hr)
      exact absurd hx.2 (Nat.not_le.2 hx.1)
  | append_singleton ops op ih =>
    rw [after_concat]
    obtain ⟨r, hr⟩ | ⟨id, hid⟩ | rfl := op.registers_or_closes_or_purges
    · rw [registrations_concat ops hr, perform_of_resource? hr]
      apply ih.register
      cases op <;> cases hr
      exact ⟨rfl, fun _ => rfl, fun _ => rfl⟩
    · rw [registrations_concat_of_eq_none ops (Operation.resource?_of_target? hid),
        ih.perform_of_target? hid]
      exact ih.close id
    · rw [registrations_concat_of_eq_none ops rfl]
      exact ih.purge

end Resources

end ObjectModel
