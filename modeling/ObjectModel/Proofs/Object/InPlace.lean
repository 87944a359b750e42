import ObjectModel.Object.InPlace
import ObjectModel.Proofs.Object.Access
/-!
# What a write leaves behind

Whether a write succeeds and what it makes of the heap is said by `Heap.setProperty`,
`Heap.unsetProperty` and `Heap.setStatic`. The programs that write in place agree with them:
`Heap.Realizes` says so for a success, and for a failure that the heap is left as it was. It is
shown step by step. A check in front of the rest of a program has written nothing when it fails, and
what is written after the last check cannot fail.

A sequence of writes is run on what each one leaves, whether or not it failed.
-/

namespace ObjectModel

namespace Heap

variable {α : Type} {h h' : Heap} {p : Program Unit} {x : Except Error Heap} {r : ObjectRef}
  {name : String} {v : Val} {scope? : Option ClassDef}

/-- Whether a program makes of a heap what an attempt to change it comes to, and leaves the heap as
it was where the attempt fails. -/
def Realizes (h : Heap) (p : Program Unit) (x : Except Error Heap) : Prop :=
  h.attempt p = (x.toOption.getD h, x.map fun _ => ())

namespace Realizes

theorem pure : h.Realizes (pure ()) (.ok h) := rfl

theorem throw (e : Error) : h.Realizes (throw e) (.error e) := rfl

theorem modify (f : Heap → Heap) : h.Realizes (modify f) (.ok (f h)) := rfl

theorem get_bind {f : Heap → Program Unit} (hf : h.Realizes (f h) x) :
    h.Realizes (get >>= f) x := hf

theorem modifyGet_bind {f : Heap → α × Heap} {g : α → Program Unit}
    (hg : (f h).2.Realizes (g (f h).1) (.ok h')) : h.Realizes (modifyGet f >>= g) (.ok h') := hg

theorem checked_bind {y : Except Error α} {f : α → Program Unit} {g : α → Except Error Heap}
    (hf : ∀ a, y = .ok a → h.Realizes (f a) (g a)) : h.Realizes (checked y >>= f) (y >>= g) := by
  cases y with
  | error e => rfl
  | ok a => exact hf a rfl

theorem assignSlot {s : Slot} (hg : (h.object r).slots.get? name = some s) :
    h.Realizes (assignSlot r name v) (.ok ((h.assign s.value v).1.setObject r { h.object r with
      slots := (h.object r).slots.insert name { s with value := (h.assign s.value v).2 } })) := by
  refine get_bind ?_
  rw [hg]
  refine modifyGet_bind ?_
  rw [← object_assign (h := h) s.value v r]
  exact modify _

theorem createProperty : h.Realizes (createPropertyInPlace r name v) (h.createProperty r name v) := by
  refine get_bind ?_
  rw [Heap.createProperty]
  dsimp only
  split
  · exact modify _
  · exact throw _

theorem setProperty :
    h.Realizes (setPropertyInPlace r name v scope?) (h.setProperty r name v scope?) := by
  refine get_bind (checked_bind fun s? hs => ?_)
  cases s? with
  | none => exact createProperty
  | some s =>
    refine checked_bind fun _ _ => get_bind (checked_bind fun w _ => ?_)
    exact assignSlot (get?_of_visibleSlot? hs)

theorem unsetProperty :
    h.Realizes (unsetPropertyInPlace r name scope?) (h.unsetProperty r name scope?) := by
  refine get_bind (checked_bind fun s? _ => ?_)
  cases s? with
  | none => exact pure
  | some s =>
    dsimp only
    split
    · exact throw _
    · split <;> exact modify _

/-- A program that fails leaves the heap as it was. -/
theorem fst_of_error (hp : h.Realizes p x) {e : Error} (he : (h.attempt p).2 = .error e) :
    (h.attempt p).1 = h := by
  rw [hp] at he ⊢
  cases x with
  | error => rfl
  | ok => cases he

end Realizes

end Heap

/-- A write to a property of an object or the removal of one, from a scope. -/
inductive Access where
  | set (r : ObjectRef) (name : String) (v : Val) (scope? : Option ClassDef)
  | unset (r : ObjectRef) (name : String) (scope? : Option ClassDef)

def Access.program : Access → Heap.Program Unit
  | .set r name v scope? => Heap.setPropertyInPlace r name v scope?
  | .unset r name scope? => Heap.unsetPropertyInPlace r name scope?

namespace Heap

/-- The heap after an access, whether or not it failed. -/
def access (h : Heap) (a : Access) : Heap := (h.attempt a.program).1

def states (h : Heap) : List Access → List Heap
  | [] => [h]
  | a :: as => h :: (h.access a).states as

/-- What an access comes to. -/
def tryAccess (h : Heap) : Access → Except Error Heap
  | .set r name v scope? => h.setProperty r name v scope?
  | .unset r name scope? => h.unsetProperty r name scope?

theorem Realizes.access (h : Heap) (a : Access) : h.Realizes a.program (h.tryAccess a) := by
  cases a with
  | set => exact .setProperty
  | unset => exact .unsetProperty

theorem access_eq (h : Heap) (a : Access) :
    h.access a = match h.tryAccess a with
      | .ok h' => h'
      | .error _ => h := by
  have ha : h.attempt a.program = _ := Realizes.access h a
  rw [access, ha]
  cases h.tryAccess a <;> rfl

end Heap

end ObjectModel
