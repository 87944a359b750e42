import ObjectModel.Proofs.Resources.Registry
/-!
# Destructors of any kind

A destructor may be any program that leaves resources to the registry. `Registry.Continues` says what
such a program can make of them, and all programs of the registry keep to it, closing included if
destructors do. A resource is marked before its destructor runs, and stays marked. So no resource is
closed twice, not even by what its own destructor does.
-/

namespace ObjectModel

variable {δ α β : Type}

/-- What a resource may come to: it stays closed when it is, and as long as it is open its
destructor is still to run. -/
structure SharedResource.Continues (r r' : SharedResource δ) : Prop where
  id_eq : r'.id = r.id
  kind_eq : r'.kind = r.kind
  isClosed : r.isClosed = true → r'.isClosed = true
  destructor?_eq : r'.isClosed = false → r'.destructor? = r.destructor?

namespace SharedResource.Continues

variable {r r' r'' : SharedResource δ}

theorem refl (r : SharedResource δ) : r.Continues r := ⟨rfl, rfl, fun hc => hc, fun _ => rfl⟩

theorem trans (h : r.Continues r') (h' : r'.Continues r'') : r.Continues r'' where
  id_eq := h'.id_eq.trans h.id_eq
  kind_eq := h'.kind_eq.trans h.kind_eq
  isClosed hc := h'.isClosed (h.isClosed hc)
  destructor?_eq ho := by
    have ho' : r'.isClosed = false := by
      cases hc : r'.isClosed with
      | false => rfl
      | true => exact (h'.isClosed hc).symm.trans ho
    exact (h'.destructor?_eq ho).trans (h.destructor?_eq ho')

end SharedResource.Continues

namespace Registry

variable {rg rg' rg'' : Registry δ} {h : Handle}

/-- Whether all resources are still there and are what they may come to. -/
def Continues (rg rg' : Registry δ) : Prop :=
  ∀ (h : Handle) (r : SharedResource δ), rg.resource? h = some r →
    ∃ r', rg'.resource? h = some r' ∧ r.Continues r'

namespace Continues

theorem of_resources_eq (h : rg'.resources = rg.resources) : rg.Continues rg' := by
  intro x r hr
  refine ⟨r, ?_, .refl r⟩
  rw [resource?, h]
  exact hr

theorem trans (h₁ : rg.Continues rg') (h₂ : rg'.Continues rg'') : rg.Continues rg'' := by
  intro x r hr
  obtain ⟨r', hr', hc'⟩ := h₁ x r hr
  obtain ⟨r'', hr'', hc''⟩ := h₂ x r' hr'
  exact ⟨r'', hr'', hc'.trans hc''⟩

theorem updated {f : SharedResource δ → SharedResource δ}
    (hf : ∀ r : SharedResource δ, r.Continues (f r)) : rg.Continues (rg.updated h f) := by
  intro x r hr
  rw [resource?_updated, hr]
  split
  · exact ⟨f r, rfl, hf r⟩
  · exact ⟨r, rfl, .refl r⟩

end Continues

/-- Whether a program leaves resources to the registry. -/
def IsLawful (p : Program δ α) : Prop := ∀ rg : Registry δ, rg.Continues (p.run rg).2

namespace IsLawful

theorem pure (x : α) : IsLawful (Pure.pure x : Program δ α) := fun _ => .of_resources_eq rfl

theorem bind {p : Program δ α} {f : α → Program δ β} (hp : IsLawful p) (hf : ∀ x, IsLawful (f x)) :
    IsLawful (p >>= f) := fun rg => (hp rg).trans (hf _ _)

/-- A program that first looks at the registry. -/
theorem get_bind {f : Registry δ → Program δ α} (hf : ∀ rg, IsLawful (f rg)) :
    IsLawful (get >>= f) := fun rg => hf rg rg

theorem register (kind : String) (destructor? : Option δ) (payload? : Option Int64) :
    IsLawful (Registry.register kind destructor? payload?) := by
  intro rg x r hr
  refine ⟨r, ?_, .refl r⟩
  rw [run_register, resource?, Array.getElem?_push,
    if_neg (Nat.ne_of_lt (Array.getElem?_eq_some_iff.1 hr).1)]
  exact hr

theorem purge : IsLawful (Registry.purge : Program δ Nat) := fun _ => .of_resources_eq rfl

theorem withPayload (h : Handle) (f : Int64 → β × Int64) :
    IsLawful (Registry.withPayload h f : Program δ (Option β)) := by
  intro rg
  rw [run_withPayload]
  split
  · exact .of_resources_eq rfl
  · exact .updated fun _ => ⟨rfl, rfl, fun hc => hc, fun _ => rfl⟩

theorem continues_markClosed (rg : Registry δ) (h : Handle) : rg.Continues (rg.markClosed h) :=
  .updated fun _ => ⟨rfl, rfl, fun _ => rfl, nofun⟩

theorem continues_dropPayload (rg : Registry δ) (h : Handle) : rg.Continues (rg.dropPayload h) :=
  .updated fun _ => ⟨rfl, rfl, fun hc => hc, fun _ => rfl⟩

/-- What closing an open resource comes to is what its marking may come to. -/
theorem continues_run_close {run : δ → Program δ α} (hrun : ∀ d, IsLawful (run d))
    {r : SharedResource δ} (hr : rg.open? h = some r) :
    (rg.markClosed h).Continues ((Registry.close run h).run rg).2 := by
  rw [run_close, hr]
  obtain ⟨id, kind, d?, p?, isClosed⟩ := r
  cases d? with
  | none => exact continues_dropPayload _ h
  | some d => exact (hrun d _).trans (continues_dropPayload _ h)

/-- Closing is lawful if destructors are. -/
theorem close {run : δ → Program δ α} (hrun : ∀ d, IsLawful (run d)) (h : Handle) :
    IsLawful (Registry.close run h) := by
  intro rg
  cases hr : rg.open? h with
  | none =>
    rw [run_close, hr]
    exact .of_resources_eq rfl
  | some r => exact (continues_markClosed rg h).trans (continues_run_close hrun hr)

/-- Scripts do no more than report and close. -/
theorem closeWithin (n : Nat) (h : Handle) : IsLawful (Registry.closeWithin n h) := by
  induction n generalizing h with
  | zero => exact .pure _
  | succ n ih =>
    rw [Registry.closeWithin]
    refine (close (fun d => get_bind fun rg => ?_) h).bind fun labels?? => ?_
    · cases d.closes?.bind rg.find? with
      | none => exact .pure _
      | some other => exact (ih other).bind fun _ => .pure _
    · cases labels?? <;> exact .pure _

end IsLawful

def isClosed (rg : Registry δ) (h : Handle) : Bool := (rg.resource? h).any (·.isClosed)

theorem Continues.isClosed (hc : rg.Continues rg') (hr : rg.isClosed h) : rg'.isClosed h := by
  obtain ⟨r, hr, hclosed⟩ := (Option.any_eq_true _ _).1 hr
  obtain ⟨r', hr', hcont⟩ := hc h r hr
  exact (Option.any_eq_true _ _).2 ⟨r', hr', hcont.isClosed hclosed⟩

/-- Closing a closed resource runs nothing and changes nothing. -/
theorem run_close_of_isClosed (run : δ → Program δ α) (hr : rg.isClosed h) :
    (close run h).run rg = (none, rg) := by
  obtain ⟨r, hr, hclosed⟩ := (Option.any_eq_true _ _).1 hr
  have ho : rg.open? h = none := by
    rw [open?, hr, Option.filter_some, hclosed]
    rfl
  rw [run_close, ho]

/-- A resource counts as closed while its destructor runs. -/
theorem isClosed_markClosed (hr : (rg.resource? h).isSome) : (rg.markClosed h).isClosed h := by
  obtain ⟨r, hr⟩ := Option.isSome_iff_exists.1 hr
  rw [isClosed, markClosed, resource?_updated, if_pos rfl, hr]
  rfl

/-- A resource is closed after its destructor has run. -/
theorem isClosed_run_close {run : δ → Program δ α} (hrun : ∀ d, IsLawful (run d))
    (hr : (rg.resource? h).isSome) : ((close run h).run rg).2.isClosed h := by
  cases ho : rg.open? h with
  | none =>
    obtain ⟨r, hr⟩ := Option.isSome_iff_exists.1 hr
    rw [run_close, ho, isClosed, hr, Option.any_some]
    rw [open?, Option.filter_eq_none_iff] at ho
    simpa using ho r hr
  | some r => exact (IsLawful.continues_run_close hrun ho).isClosed (isClosed_markClosed hr)

/-- When a resource has been closed, closing it runs nothing, whatever its destructor has done and
whatever has been done since. -/
theorem run_close_of_continues {run : δ → Program δ α} (hrun : ∀ d, IsLawful (run d))
    (hr : (rg.resource? h).isSome) (hc : ((close run h).run rg).2.Continues rg') :
    (close run h).run rg' = (none, rg') :=
  run_close_of_isClosed run (hc.isClosed (isClosed_run_close hrun hr))

end Registry

end ObjectModel
