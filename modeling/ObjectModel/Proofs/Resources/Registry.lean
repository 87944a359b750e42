import Mathlib.Data.List.Nodup
import ObjectModel.Proofs.OrderedMap
import ObjectModel.Proofs.Resources.Lifecycle
import ObjectModel.Registry
/-!
# The registry and its resources

The registry has a counter and a table of numbers, but neither tells anything that the list of
resources does not: `Registry.IsSound` says that the first resource has the number one, and so on,
and that the table finds a resource under its own number. Under this invariant each operation of the
registry does to the list of resources what the operation of that name does, with the same answer.
`Registry.run_eq` carries this over any run that does not exhaust the numbers.
-/

namespace ObjectModel

/-- The place that the number of a resource tells. -/
def SharedResource.handle {δ : Type} (r : SharedResource δ) : Handle := ⟨r.id.toNat - 1⟩

namespace Registry

section Program

variable {δ α β : Type} (rg : Registry δ) (h : Handle)

theorem run_bind (p : Program δ α) (f : α → Program δ β) :
    (p >>= f).run rg = (f (p.run rg).1).run (p.run rg).2 := rfl

theorem run_get : (get : Program δ (Registry δ)).run rg = (rg, rg) := rfl

theorem run_pure (x : α) : (pure x : Program δ α).run rg = (x, rg) := rfl

theorem run_register (kind : String) (destructor? : Option δ) (payload? : Option Int64) :
    (register kind destructor? payload?).run rg = (⟨rg.resources.size⟩, {
      nextId := rg.nextId + 1
      entries := rg.entries.insert rg.nextId ⟨rg.resources.size⟩
      resources := rg.resources.push { id := rg.nextId, kind, destructor?, payload? } }) := rfl

def updated (f : SharedResource δ → SharedResource δ) : Registry δ := ((update h f).run rg).2

theorem resource?_updated (f : SharedResource δ → SharedResource δ) (x : Handle) :
    (rg.updated h f).resource? x = if x = h then (rg.resource? x).map f else rg.resource? x := by
  obtain ⟨i⟩ := x
  obtain ⟨j⟩ := h
  change (rg.resources.modify j f)[i]? = _
  rw [Array.getElem?_modify, resource?]
  by_cases hij : i = j <;> simp [hij, eq_comm]

theorem updated_eq_self {f : SharedResource δ → SharedResource δ}
    (hf : ∀ r, rg.resource? h = some r → f r = r) : rg.updated h f = rg := by
  have he : rg.resources.modify h.index f = rg.resources := by
    apply Array.ext_getElem?
    intro i
    rw [Array.getElem?_modify]
    split
    next hi =>
      subst hi
      cases hr : rg.resources[h.index]? with
      | none => rfl
      | some r => exact congrArg some (hf r hr)
    next => rfl
  change ({ rg with resources := rg.resources.modify h.index f } : Registry δ) = rg
  rw [he]

def markClosed : Registry δ := rg.updated h fun r => { r with isClosed := true, destructor? := none }

def dropPayload : Registry δ := rg.updated h fun r => { r with payload? := none }

def open? : Option (SharedResource δ) := (rg.resource? h).filter (!·.isClosed)

theorem run_beginClose :
    (beginClose h).run rg = match rg.open? h with
      | none => (none, rg)
      | some r => (some r.destructor?, rg.markClosed h) := by
  rw [beginClose, run_bind, run_get, open?]
  cases rg.resource? h with
  | none => rfl
  | some r =>
    obtain ⟨id, kind, d?, p?, isClosed⟩ := r
    cases isClosed <;> rfl

theorem run_close (run : δ → Program δ α) :
    (close run h).run rg = match rg.open? h with
      | none => (none, rg)
      | some r =>
        let a? := r.destructor?.map fun d => (run d).run (rg.markClosed h)
        (some (a?.map Prod.fst), ((a?.map Prod.snd).getD (rg.markClosed h)).dropPayload h) := by
  rw [close, run_bind, run_beginClose]
  cases rg.open? h with
  | none => rfl
  | some r =>
    obtain ⟨id, kind, d?, p?, isClosed⟩ := r
    cases d? <;> rfl

theorem run_withPayload (f : Int64 → β × Int64) :
    (withPayload h f).run rg = match (rg.resource? h).bind (·.payload?) with
      | none => (none, rg)
      | some p => (some (f p).1, rg.updated h fun r => { r with payload? := some (f p).2 }) := by
  rw [withPayload, run_bind, run_get]
  cases (rg.resource? h).bind (·.payload?) <;> rfl

end Program

section Scripts

variable {rg : Registry Script} {h : Handle}

def label? (rg : Registry Script) (h : Handle) : Option String :=
  ((rg.resource? h).bind (·.destructor?)).map (·.label)

def next? (rg : Registry Script) (h : Handle) : Option Handle :=
  (((rg.open? h).bind (·.destructor?)).bind (·.closes?)).bind rg.find?

theorem run_closeWithin_of_eq_none (n : Nat) (hr : rg.open? h = none) :
    (closeWithin n h).run rg = ((false, []), rg) := by
  cases n with
  | zero => rfl
  | succ n => rw [closeWithin, run_bind, run_close, hr, run_pure]

theorem run_closeWithin_succ {n : Nat} {r : SharedResource Script} (hr : rg.open? h = some r) :
    (closeWithin (n + 1) h).run rg =
      let tail := match rg.next? h with
        | none => ([], rg.markClosed h)
        | some other =>
          (((closeWithin n other).run (rg.markClosed h)).1.2,
            ((closeWithin n other).run (rg.markClosed h)).2)
      ((true, (rg.label? h).toList ++ tail.1), tail.2.dropPayload h) := by
  have hlabel : rg.label? h = r.destructor?.map (·.label) := by
    rw [open?, Option.filter_eq_some_iff] at hr
    rw [label?, hr.1, Option.bind_some]
  rw [closeWithin, run_bind, run_close, hlabel, next?, hr]
  obtain ⟨id, kind, d?, p?, isClosed⟩ := r
  cases d? with
  | none => rfl
  | some d =>
    have hfind : (rg.markClosed h).find? = rg.find? := rfl
    simp only [Option.map_some, Option.bind_some, Option.getD_some, run_bind, run_get, hfind]
    cases d.closes?.bind rg.find? <;> rfl

end Scripts

/-- Whether a number is the place of its resource, and the next number is the next place. -/
structure IsSound {δ : Type} (rg : Registry δ) : Prop where
  toNat_nextId : rg.nextId.toNat = rg.resources.size + 1
  toNat_id : ∀ {h r}, rg.resource? h = some r → r.id.toNat = h.index + 1
  exists_of_find? : ∀ {id h}, rg.find? id = some h → ∃ r, rg.resource? h = some r ∧ r.id = id

namespace IsSound

variable {δ : Type} {rg : Registry δ} {h : Handle}

theorem init : IsSound ({} : Registry δ) where
  toNat_nextId := rfl
  toNat_id := nofun
  exists_of_find? := nofun

theorem register (hs : rg.IsSound) (hsize : rg.resources.size + 2 < UInt64.size) (kind : String)
    (destructor? : Option δ) (payload? : Option Int64) :
    ((Registry.register kind destructor? payload?).run rg).2.IsSound := by
  rw [run_register]
  have hlt {h : Handle} {r : SharedResource δ} (hr : rg.resource? h = some r) :
      h.index < rg.resources.size := (Array.getElem?_eq_some_iff.1 hr).1
  constructor
  · simp only [UInt64.toNat_add, UInt64.toNat_one, Array.size_push, hs.toNat_nextId]
    exact Nat.mod_eq_of_lt hsize
  · intro h r hr
    simp only [resource?, Array.getElem?_push] at hr
    split at hr
    next hi =>
      cases hr
      rw [hi, hs.toNat_nextId]
    next => exact hs.toNat_id hr
  · intro id h hh
    simp only [find?, OrderedMap.get?_insert] at hh
    simp only [resource?, Array.getElem?_push]
    split at hh
    next hid =>
      cases hh
      exact ⟨_, if_pos rfl, hid.symm⟩
    next =>
      obtain ⟨r, hr, hid⟩ := hs.exists_of_find? hh
      exact ⟨r, by rw [if_neg (Nat.ne_of_lt (hlt hr))]; exact hr, hid⟩

theorem updated (hs : rg.IsSound) {f : SharedResource δ → SharedResource δ}
    (hf : ∀ r, (f r).id = r.id) : (rg.updated h f).IsSound where
  toNat_nextId := by
    change rg.nextId.toNat = (rg.resources.modify h.index f).size + 1
    rw [Array.size_modify, hs.toNat_nextId]
  toNat_id {x r} hr := by
    rw [resource?_updated] at hr
    split at hr
    · obtain ⟨r, hx, rfl⟩ := Option.map_eq_some_iff.1 hr
      rw [hf, hs.toNat_id hx]
    · exact hs.toNat_id hr
  exists_of_find? {id x} hx := by
    obtain ⟨r, hr, hid⟩ := hs.exists_of_find? hx
    rw [resource?_updated, hr]
    split
    · exact ⟨f r, rfl, (hf r).trans hid⟩
    · exact ⟨r, rfl, hid⟩

theorem purge (hs : rg.IsSound) : (Registry.purge.run rg).2.IsSound where
  toNat_nextId := hs.toNat_nextId
  toNat_id := hs.toNat_id
  exists_of_find? {id h} hh := by
    have hg := (OrderedMap.get?_filter _ rg.entries id).symm.trans hh
    exact hs.exists_of_find? (Option.filter_eq_some_iff.1 hg).1

/-- What the table has under the number of a resource is the handle of the resource. -/
theorem eq_of_find? (hs : rg.IsSound) {h' : Handle} {r : SharedResource δ}
    (hr : rg.resource? h = some r) (hf : rg.find? r.id = some h') : h' = h := by
  obtain ⟨r', hr', hid⟩ := hs.exists_of_find? hf
  have h1 := hs.toNat_id hr
  rw [← hid, hs.toNat_id hr'] at h1
  obtain ⟨i⟩ := h
  obtain ⟨j⟩ := h'
  exact congrArg Handle.mk (Nat.succ.inj h1)

theorem map_toNat_id (hs : rg.IsSound) :
    rg.resources.toList.map (·.id.toNat) = List.range' 1 rg.resources.size := by
  apply List.ext_getElem?
  intro i
  by_cases hi : i < rg.resources.size
  · have hid := hs.toNat_id (h := ⟨i⟩) (Array.getElem?_eq_getElem hi)
    simp [hi, hid, Nat.add_comm]
  · simp [hi]

theorem resource?_handle (hs : rg.IsSound) {r : SharedResource δ}
    (hr : r ∈ rg.resources.toList) : rg.resource? r.handle = some r := by
  obtain ⟨i, hi⟩ := Array.mem_iff_getElem?.1 (Array.mem_toList_iff.1 hr)
  have hid := hs.toNat_id (h := ⟨i⟩) hi
  rw [SharedResource.handle, hid]
  exact hi

/-- The table has the resources that are found by their numbers, in some order. -/
theorem perm_entries (hs : rg.IsSound) : rg.entries.entries.Perm
    ((rg.resources.toList.filter fun r => rg.entries.contains r.id).map
      fun r => (r.id, r.handle)) := by
  have hids : (rg.resources.toList.map (·.id)).Nodup := by
    refine List.Nodup.of_map UInt64.toNat ?_
    rw [List.map_map]
    exact hs.map_toNat_id ▸ List.nodup_range'
  have hnodup : ((rg.resources.toList.filter fun r => rg.entries.contains r.id).map
      fun r => (r.id, r.handle)).Nodup := by
    refine List.Nodup.of_map Prod.fst ?_
    rw [List.map_map]
    exact (List.filter_sublist.map _).nodup hids
  refine (List.perm_ext_iff_of_nodup (List.Nodup.of_map _ rg.entries.nodup_keys) hnodup).2 ?_
  rintro ⟨id, h⟩
  rw [OrderedMap.mem_entries_iff, List.mem_map]
  constructor
  · intro hh
    obtain ⟨r, hr, rfl⟩ := hs.exists_of_find? hh
    have hm : r ∈ rg.resources.toList := Array.mem_toList_iff.2 (Array.mem_of_getElem? hr)
    refine ⟨r, List.mem_filter.2 ⟨hm, Option.isSome_of_mem hh⟩, ?_⟩
    rw [hs.eq_of_find? (hs.resource?_handle hm) hh]
  · rintro ⟨r, hr, he⟩
    cases he
    obtain ⟨hm, hc⟩ := List.mem_filter.1 hr
    obtain ⟨h', hh'⟩ := Option.isSome_iff_exists.1 hc
    rw [hh', hs.eq_of_find? (hs.resource?_handle hm) hh']

theorem perm_values (hs : rg.IsSound) : rg.entries.values.Perm
    ((rg.resources.toList.filter fun r => rg.entries.contains r.id).map SharedResource.handle) := by
  have hp := hs.perm_entries.map Prod.snd
  rwa [List.map_map] at hp

end IsSound

section ToResources

variable {rg : Registry Script} {h : Handle}

theorem find?_toResources (rg : Registry Script) (h : Handle) :
    rg.toResources.find? h.toId =
      (rg.resource? h).map fun r => r.toResource (rg.entries.contains r.id) := by
  rw [Resources.find?_eq, Handle.toId, if_neg (Nat.succ_ne_zero _), toResources,
    Array.getElem?_map]
  rfl

theorem open?_toResources (rg : Registry Script) (h : Handle) :
    rg.toResources.open? h.toId =
      (rg.open? h).map fun r => r.toResource (rg.entries.contains r.id) := by
  rw [Resources.open?, find?_toResources, open?, Option.filter_map]
  rfl

theorem label?_toResources (rg : Registry Script) (h : Handle) :
    rg.toResources.label? h.toId = rg.label? h := by
  rw [Resources.label?, find?_toResources, label?]
  cases rg.resource? h with
  | none => rfl
  | some r => simp [SharedResource.toResource, Function.comp_def, Script.toDestructor]

theorem toResources_updated {f : SharedResource Script → SharedResource Script}
    {g : Resource → Resource} (hid : ∀ r, (f r).id = r.id)
    (hfg : ∀ r b, (f r).toResource b = g (r.toResource b)) :
    (rg.updated h f).toResources = rg.toResources.modify h.toId g := by
  rw [Resources.mk.injEq]
  apply Array.ext_getElem?
  intro i
  rw [Resources.getElem?_all_modify, toResources, toResources, Array.getElem?_map,
    Array.getElem?_map, Handle.toId]
  change ((rg.resources.modify h.index f)[i]?).map _ = _
  rw [Array.getElem?_modify]
  by_cases hi : h.index = i
  · rw [if_pos hi, if_pos (congrArg Nat.succ hi), Option.map_map, Option.map_map]
    refine congrArg (Option.map · _) (funext fun r => ?_)
    simp only [Function.comp_apply, hid, hfg]
    rfl
  · rw [if_neg hi, if_neg fun he => hi (Nat.succ.inj he)]
    rfl

theorem registered?_toResources (hs : rg.IsSound) (id : UInt64) :
    rg.toResources.registered? ⟨id.toNat⟩ = (rg.find? id).map Handle.toId := by
  cases hf : rg.find? id with
  | some h =>
    obtain ⟨r, hr, rfl⟩ := hs.exists_of_find? hf
    have hid : (⟨r.id.toNat⟩ : ResourceId) = h.toId := by rw [hs.toNat_id hr, Handle.toId]
    have hc : rg.entries.contains r.id := Option.isSome_of_mem hf
    rw [hid, Resources.registered?, find?_toResources, hr, Option.map_some, Option.any_some]
    exact if_pos hc
  | none =>
    -- a resource with this number would have its place, but it is not found under it
    have hnone : ¬ (rg.toResources.find? ⟨id.toNat⟩).any (·.isRegistered) := by
      cases hn : id.toNat with
      | zero => exact Bool.false_ne_true
      | succ n =>
        change ¬ (rg.toResources.find? (Handle.toId ⟨n⟩)).any (·.isRegistered)
        rw [find?_toResources]
        cases hr : rg.resource? ⟨n⟩ with
        | none => exact Bool.false_ne_true
        | some r =>
          have hid : r.id = id := UInt64.toNat_inj.1 ((hs.toNat_id hr).trans hn.symm)
          have hc : rg.entries.contains r.id = false := by
            rw [hid, OrderedMap.contains, Option.isSome_eq_false_iff, Option.isNone_iff_eq_none]
            exact hf
          rw [Option.map_some, hc]
          exact Bool.false_ne_true
    rw [Resources.registered?, if_neg hnone, Option.map_none]

theorem next?_toResources (hs : rg.IsSound) (h : Handle) :
    rg.toResources.next? h.toId = (rg.next? h).map Handle.toId := by
  rw [Resources.next?, open?_toResources, next?]
  cases rg.open? h with
  | none => rfl
  | some r =>
    obtain ⟨id, kind, d?, p?, isClosed⟩ := r
    cases d? with
    | none => rfl
    | some d =>
      obtain ⟨label, closes?⟩ := d
      cases closes? with
      | none => rfl
      | some id => exact registered?_toResources hs id

theorem toResources_markClosed (rg : Registry Script) (h : Handle) :
    (rg.markClosed h).toResources = rg.toResources.markClosed h.toId :=
  toResources_updated (fun _ => rfl) fun _ _ => rfl

theorem toResources_dropPayload (rg : Registry Script) (h : Handle) :
    (rg.dropPayload h).toResources =
      rg.toResources.modify h.toId fun r => { r with payload? := none } :=
  toResources_updated (fun _ => rfl) fun _ _ => rfl

end ToResources

/-- Whether a program leads to a sound registry, and to the resources and the answer given. -/
def Realizes {α : Type} (rg : Registry Script) (p : Program Script α) (result : Resources × α) :
    Prop :=
  (p.run rg).2.IsSound ∧ ((p.run rg).2.toResources, (p.run rg).1) = result

section Realizes

variable {rg : Registry Script}

theorem realizes_closeWithin (hs : rg.IsSound) (n : Nat) (h : Handle) :
    rg.Realizes (closeWithin n h) (rg.toResources.closeWithin n h.toId) := by
  induction n generalizing rg h with
  | zero => exact ⟨hs, rfl⟩
  | succ n ih =>
    cases hr : rg.open? h with
    | none =>
      have ho := open?_toResources rg h
      rw [hr, Option.map_none, Resources.open?] at ho
      rw [Realizes, run_closeWithin_of_eq_none _ hr, Resources.closeWithin, ho]
      exact ⟨hs, rfl⟩
    | some r =>
      have ho := open?_toResources rg h
      rw [hr, Option.map_some] at ho
      have hm : (rg.markClosed h).IsSound := hs.updated fun _ => rfl
      rw [Realizes, run_closeWithin_succ hr, Resources.closeWithin_succ ho, next?_toResources hs,
        label?_toResources, ← toResources_markClosed]
      cases rg.next? h with
      | none => exact ⟨hm.updated fun _ => rfl, by rw [toResources_dropPayload]; rfl⟩
      | some other =>
        obtain ⟨hi, he⟩ := ih hm other
        simp only [Option.map_some, ← he]
        exact ⟨hi.updated fun _ => rfl, by rw [toResources_dropPayload]⟩

theorem realizes_closeAll (hs : rg.IsSound) (h : Handle) :
    rg.Realizes (closeAll h) (rg.toResources.close h.toId) := by
  have hsize : rg.toResources.all.size = rg.resources.size := Array.size_map ..
  rw [Resources.close, hsize]
  exact realizes_closeWithin hs _ h

theorem realizes_closeNumber (hs : rg.IsSound) (id : UInt64) :
    rg.Realizes (closeNumber id) (rg.toResources.closeRegistered ⟨id.toNat⟩) := by
  rw [Resources.closeRegistered, registered?_toResources hs, Realizes, closeNumber, run_bind,
    run_get]
  cases rg.find? id with
  | none => exact ⟨hs, rfl⟩
  | some h => exact realizes_closeAll hs h

theorem realizes_register (hs : rg.IsSound) (hsize : rg.resources.size + 2 < UInt64.size)
    (kind : String) (destructor? : Option Script) (payload? : Option Int64) :
    rg.Realizes (Handle.toId <$> register kind destructor? payload?)
      (rg.toResources.register
        { kind, destructor? := destructor?.map Script.toDestructor, payload? }) := by
  refine ⟨hs.register hsize kind destructor? payload?, ?_⟩
  have hold : ∀ r ∈ rg.resources, (rg.entries.insert rg.nextId ⟨rg.resources.size⟩).contains r.id =
      rg.entries.contains r.id := by
    intro r hr
    obtain ⟨i, hi, rfl⟩ := Array.mem_iff_getElem.1 hr
    have hid := hs.toNat_id (h := ⟨i⟩) (Array.getElem?_eq_getElem hi)
    have hne : rg.resources[i].id ≠ rg.nextId := by
      intro he
      rw [he, hs.toNat_nextId] at hid
      exact Nat.ne_of_gt hi (Nat.succ.inj hid)
    rw [OrderedMap.contains_insert, decide_eq_false hne, Bool.false_or]
  have hnew : (rg.entries.insert rg.nextId ⟨rg.resources.size⟩).contains rg.nextId = true := by
    rw [OrderedMap.contains_insert, decide_eq_true rfl, Bool.true_or]
  refine Prod.ext ?_ (congrArg (fun n => ResourceId.mk (n + 1)) (Array.size_map ..).symm)
  rw [Resources.register, Resources.mk.injEq]
  change (rg.resources.push _).map _ = (rg.resources.map _).push _
  rw [Array.map_push]
  refine congrArg₂ Array.push (Array.map_congr_left fun r hr => ?_) ?_
  · exact congrArg r.toResource (hold r hr)
  · exact congrArg (SharedResource.toResource _) hnew

theorem contains_filter (hs : rg.IsSound) {h : Handle} {r : SharedResource Script}
    (hr : rg.resource? h = some r) :
    (rg.entries.filter fun _ h => !(rg.resource? h).any (·.isClosed)).contains r.id =
      (rg.entries.contains r.id && !r.isClosed) := by
  rw [OrderedMap.contains, OrderedMap.get?_filter, OrderedMap.contains]
  cases hf : rg.entries.get? r.id with
  | none => rfl
  | some h' =>
    obtain rfl := hs.eq_of_find? hr hf
    rw [Option.filter_some, hr]
    cases hc : r.isClosed <;> simp [hc]

theorem realizes_purge (hs : rg.IsSound) : rg.Realizes purge rg.toResources.purge := by
  refine ⟨hs.purge, Prod.ext ?_ ?_⟩
  · rw [Resources.purge, Resources.mk.injEq]
    change rg.resources.map _ = (rg.resources.map _).map _
    rw [Array.map_map]
    refine Array.map_congr_left fun r hr => ?_
    obtain ⟨i, hi⟩ := Array.mem_iff_getElem?.1 hr
    exact congrArg r.toResource (contains_filter hs (h := ⟨i⟩) hi)
  · let isClosed (h : Handle) : Bool := (rg.resource? h).any (·.isClosed)
    calc rg.entries.size - (rg.entries.filter fun _ h => !isClosed h).size
      _ = rg.entries.values.countP isClosed := by
        have hsum := List.length_eq_countP_add_countP (isClosed ·.2) (l := rg.entries.entries)
        rw [OrderedMap.values, List.countP_map, OrderedMap.size, OrderedMap.size,
          OrderedMap.filter, ← List.countP_eq_length_filter]
        simp only [Function.comp_def, Bool.not_eq_true, Bool.decide_eq_false] at hsum ⊢
        omega
      _ = (rg.resources.toList.filter fun r => rg.entries.contains r.id).countP (·.isClosed) := by
        rw [hs.perm_values.countP_eq, List.countP_map]
        refine List.countP_congr fun r hr => ?_
        simp only [Function.comp_apply, isClosed, hs.resource?_handle (List.mem_of_mem_filter hr),
          Option.any_some]
      _ = rg.toResources.purge.2 := by
        rw [List.countP_filter, Resources.purge, toResources, Array.countP_map,
          ← Array.countP_toList]
        refine List.countP_congr fun r _ => ?_
        rw [Bool.and_comm]
        rfl

/-- Whether a resource is open, of a kind, and found by its number. -/
def lists (rg : Registry Script) (kind : String) (r : SharedResource Script) : Bool :=
  rg.entries.contains r.id && !r.isClosed && r.kind == kind

theorem idsOfKind_perm (hs : rg.IsSound) (kind : String) :
    (rg.idsOfKind kind).Perm ((rg.resources.toList.filter (rg.lists kind)).map (·.id)) := by
  refine (List.mergeSort_perm _ _).trans ((hs.perm_values.filterMap _).trans (List.Perm.of_eq ?_))
  rw [List.filterMap_map, List.filterMap_filter, ← List.filterMap_eq_map, List.filterMap_filter]
  refine List.filterMap_congr fun r hr => ?_
  rw [Function.comp_apply, hs.resource?_handle hr, lists, Bool.and_assoc]
  cases rg.entries.contains r.id <;> rfl

theorem openOfKind_toResources (hs : rg.IsSound) (kind : String) :
    rg.toResources.openOfKind kind =
      (rg.resources.toList.filter (rg.lists kind)).map (·.id.toNat) := by
  rw [Resources.openOfKind, toResources, Array.toList_map, List.zipIdx_map, List.filterMap_map,
    ← List.filterMap_eq_map, List.filterMap_filter]
  conv_rhs => rw [← List.zipIdx_map_fst 0 rg.resources.toList, List.filterMap_map]
  refine List.filterMap_congr fun e hr => ?_
  obtain ⟨r, i⟩ := e
  rw [List.mk_mem_zipIdx_iff_getElem?, Array.getElem?_toList] at hr
  have hid := hs.toNat_id (h := ⟨i⟩) hr
  simp only [Function.comp_apply, Prod.map_apply, hid]
  rfl

/-- The sorted numbers of the table are those of the list of resources. -/
theorem map_toNat_idsOfKind (hs : rg.IsSound) (kind : String) :
    (rg.idsOfKind kind).map UInt64.toNat = rg.toResources.openOfKind kind := by
  have hsorted : (rg.idsOfKind kind).Pairwise (· ≤ ·) := by
    rw [idsOfKind]
    refine (List.pairwise_mergeSort ?_ ?_ _).imp fun h => of_decide_eq_true h
    · intro a b c hab hbc
      exact decide_eq_true (UInt64.le_trans (of_decide_eq_true hab) (of_decide_eq_true hbc))
    · intro a b
      simp only [Bool.or_eq_true, decide_eq_true_eq]
      exact UInt64.le_total a b
  have hnums : ((rg.idsOfKind kind).map UInt64.toNat).Pairwise (· ≤ ·) :=
    hsorted.map UInt64.toNat fun _ _ h => UInt64.le_iff_toNat_le.1 h
  have hopen : (rg.toResources.openOfKind kind).Pairwise (· ≤ ·) :=
    (Resources.pairwise_openOfKind _ kind).imp fun h => Nat.le_of_lt h
  refine List.Perm.eq_of_pairwise (fun a b _ _ => Nat.le_antisymm) hnums hopen ?_
  rw [openOfKind_toResources hs]
  have hp := (idsOfKind_perm hs kind).map UInt64.toNat
  rwa [List.map_map] at hp

theorem kind_toResources (rg : Registry Script) (h : Handle) :
    rg.toResources.kind h.toId = rg.kind h := by
  rw [Resources.kind, ← Resources.open?, open?_toResources, kind, ← open?]
  cases rg.open? h <;> rfl

theorem realizes_addToPayload (hs : rg.IsSound) (h : Handle) (n : Int64) :
    rg.Realizes (addToPayload h n) (rg.toResources.addToPayload h.toId n) := by
  have hp : (rg.toResources.find? h.toId).bind (·.payload?) =
      (rg.resource? h).bind (·.payload?) := by
    rw [find?_toResources]
    cases rg.resource? h <;> rfl
  rw [Realizes, addToPayload, run_bind, run_withPayload, Resources.addToPayload, hp]
  cases hr : (rg.resource? h).bind (·.payload?) with
  | none => exact ⟨hs, rfl⟩
  | some p =>
    refine ⟨hs.updated fun _ => rfl, ?_⟩
    dsimp only
    cases int64? (p.toInt + n.toInt) with
    | none =>
      -- the payload is written back as it was
      refine Prod.ext (congrArg toResources (updated_eq_self rg h fun r h' => ?_)) rfl
      rw [h', Option.bind_some] at hr
      rw [← hr]
    | some sum =>
      refine Prod.ext ?_ rfl
      exact toResources_updated (g := fun r => { r with payload? := some sum }) (fun _ => rfl)
        fun _ _ => rfl

end Realizes

inductive Operation where
  | register (kind : String) (destructor? : Option Script) (payload? : Option Int64)
  /-- Closing through a handle, which is good for ever. -/
  | close (h : Handle)
  /-- Closing by number, which works while the number is registered. -/
  | closeNumber (id : UInt64)
  | purge

def Operation.toResources : Operation → Resources.Operation
  | register kind destructor? payload? =>
    .register kind (destructor?.map Script.toDestructor) payload?
  | close h => .close h.toId
  | closeNumber id => .closeRegistered ⟨id.toNat⟩
  | purge => .purge

def perform : Operation → Program Script Resources.Answer
  | .register kind destructor? payload? => do
    return .handle (← register kind destructor? payload?).toId
  | .close h => do
    let (wasOpen, reports) ← closeAll h
    return .closed wasOpen reports
  | .closeNumber id => do
    let (wasOpen, reports) ← closeNumber id
    return .closed wasOpen reports
  | .purge => return .purged (← purge)

def run (ops : List Operation) : Registry Script × List Resources.Answer :=
  ops.foldl (fun (rg, answers) op =>
    (((perform op).run rg).2, answers ++ [((perform op).run rg).1])) ({}, [])

theorem realizes_perform {rg : Registry Script} (hs : rg.IsSound) (op : Operation)
    (hsize : op.toResources.resource?.isSome → rg.resources.size + 2 < UInt64.size) :
    rg.Realizes (perform op) (rg.toResources.perform op.toResources) := by
  cases op with
  | register kind destructor? payload? =>
    obtain ⟨hi, he⟩ := realizes_register hs (hsize rfl) kind destructor? payload?
    refine ⟨hi, ?_⟩
    rw [Operation.toResources, Resources.perform, ← he]
    rfl
  | close h =>
    obtain ⟨hi, he⟩ := realizes_closeAll hs h
    refine ⟨hi, ?_⟩
    rw [Operation.toResources, Resources.perform, ← he]
    rfl
  | closeNumber id =>
    obtain ⟨hi, he⟩ := realizes_closeNumber hs id
    refine ⟨hi, ?_⟩
    rw [Operation.toResources, Resources.perform, ← he]
    rfl
  | purge =>
    obtain ⟨hi, he⟩ := realizes_purge hs
    refine ⟨hi, ?_⟩
    rw [Operation.toResources, Resources.perform, ← he]
    rfl

variable (ops : List Operation)

theorem run_concat (op : Operation) :
    run (ops ++ [op]) =
      (((perform op).run (run ops).1).2, (run ops).2 ++ [((perform op).run (run ops).1).1]) := by
  simp [run, List.foldl_append]

def registrations : Resources := Resources.registrations (ops.map Operation.toResources)

/-- A run that does not exhaust the numbers does to the resources what the operations do that its
own come to, with the same answers. -/
theorem run_eq (hsize : (registrations ops).all.size + 1 < UInt64.size) :
    (run ops).1.IsSound ∧
      Resources.run (ops.map Operation.toResources) =
        ((run ops).1.toResources, (run ops).2) := by
  induction ops using List.reverseRecOn with
  | nil => exact ⟨.init, by simp [run, Resources.run, toResources]⟩
  | append_singleton ops op ih =>
    have hregs : registrations (ops ++ [op]) =
        Resources.registrations (ops.map Operation.toResources ++ [op.toResources]) := by
      rw [registrations, List.map_append, List.map_singleton]
    -- one more number is needed if the operation registers a resource
    have hnext : (registrations ops).all.size + 1 < UInt64.size ∧
        (op.toResources.resource?.isSome → (registrations ops).all.size + 2 < UInt64.size) := by
      rw [hregs] at hsize
      cases hop : op.toResources.resource? with
      | none =>
        rw [Resources.registrations_concat_of_eq_none _ hop] at hsize
        exact ⟨hsize, fun h => absurd h Bool.false_ne_true⟩
      | some r =>
        rw [Resources.registrations_concat _ hop, Resources.register, Array.size_push] at hsize
        exact ⟨Nat.lt_of_succ_lt hsize, fun _ => hsize⟩
    obtain ⟨hs, he⟩ := ih hnext.1
    have hsz : (run ops).1.resources.size = (registrations ops).all.size := by
      have hc := (Resources.continues_after (ops.map Operation.toResources)).size_eq
      rw [Resources.after, he] at hc
      exact (Array.size_map ..).symm.trans hc
    obtain ⟨hi, hp⟩ := realizes_perform hs op (by rw [hsz]; exact hnext.2)
    rw [run_concat, List.map_append, List.map_singleton, Resources.run_concat, he, ← hp]
    exact ⟨hi, rfl⟩

end Registry

end ObjectModel
