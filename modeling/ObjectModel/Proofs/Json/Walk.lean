import ObjectModel.Proofs.Except
import ObjectModel.Proofs.Heap.References
import ObjectModel.Proofs.Json.DocumentWriting
/-!
# The walk of the writer

The writer follows references and goes into arrays and objects for as long as there are any, and
nothing in this description bounds it: `Writes` has one rule for each of these steps. It gives a
value at most one text or error. Where references end it gives every value one, because a container
is entered only if it is none of those around it, so that they never outnumber the arrays and objects
of the heap; and this is the outcome that `write` finds within its bound.
-/

namespace ObjectModel

open Relation

namespace Heap

/-- A container that shows anything is in the heap. -/
theorem mem_handles_of_shows {h : Heap} {v u : Val} (hv : v.isContainer) (hu : h.Shows v u) :
    v ∈ h.handles := by
  cases v with
  | array r =>
    have hi : r.index < h.arrays.size := by
      by_contra hi
      rw [Shows, shown, array, Array.getElem?_eq_none (Nat.le_of_not_lt hi)] at hu
      cases hu
    exact array_mem_handles hi
  | object r =>
    have hi : r.index < h.objects.size := by
      by_contra hi
      rw [Shows, shown, object, Array.getElem?_eq_none (Nat.le_of_not_lt hi)] at hu
      cases hu
    exact object_mem_handles hi
  | _ => cases hv

end Heap

namespace Json

namespace Writer

/-- The text of a container, `depth` containers deep, given what is written for the values in it. -/
def writeContainer (w : Writer) (write : Val → Except JsonError (List Char)) (depth : Nat) :
    Val → Except JsonError (List Char)
  | .array r =>
    if w.style.forceObject || !(w.heap.array r).isList then
      w.writeMembers write depth ((w.heap.array r).entries.map fun (k, v) => (k.text, v))
    else w.writeItems write depth (w.heap.array r).values
  | .object r =>
    w.writeMembers write depth
      ((w.heap.object r).publicMembers.map fun (name, v) => (Bytes.ofString name, v))
  | _ => .error .unsupportedType

/-- What writing a value that lies in the containers `outer` leads to, step by step. -/
inductive Writes (w : Writer) : List Val → Val → Except JsonError (List Char) → Prop
  /-- A reference is written as the content of its cell. -/
  | reference {outer : List Val} {c : CellRef} {r : Except JsonError (List Char)}
      (hr : Writes w outer (w.heap.cell c) r) : Writes w outer (.reference c) r
  | scalar {outer : List Val} {v : Val} (hc : v.isContainer = false) (hr : v.isReference = false) :
      Writes w outer v (w.writeScalar v)
  /-- A container that must not be entered is not written. -/
  | refused {outer : List Val} {v : Val} {e : JsonError} (hc : v.isContainer)
      (he : w.enter outer v = .error e) : Writes w outer v (.error e)
  /-- A container is written with the values in it. -/
  | container {outer inner : List Val} {v : Val} {write : Val → Except JsonError (List Char)}
      (hc : v.isContainer) (he : w.enter outer v = .ok inner)
      (hu : ∀ u, w.heap.Shows v u → Writes w inner u (write u)) :
      Writes w outer v (w.writeContainer write inner.length v)

variable {w : Writer} {n : Nat} {outer inner : List Val} {u v : Val}
  {r r' : Except JsonError (List Char)} {write write' : Val → Except JsonError (List Char)}

theorem writeMembers_congr {depth : Nat} {members : List (Bytes × Val)}
    (h : ∀ e ∈ members, write e.2 = write' e.2) :
    w.writeMembers write depth members = w.writeMembers write' depth members := by
  rw [writeMembers, writeMembers]
  refine congrArg (· >>= fun texts => pure (bracket w.style depth _ _ texts)) (mapM_congr ?_)
  intro e he
  simp only [h e he]

/-- The text of a container depends on what is written for the values in it alone. -/
theorem writeContainer_congr {depth : Nat} (h : ∀ u, w.heap.Shows v u → write u = write' u) :
    w.writeContainer write depth v = w.writeContainer write' depth v := by
  cases v with
  | array r =>
    rw [writeContainer, writeContainer]
    split
    · exact writeMembers_congr (List.forall_mem_map.2 fun e he => h e.2 (List.mem_map_of_mem he))
    · have hitems : (w.heap.array r).values.mapM write = (w.heap.array r).values.mapM write' :=
        mapM_congr h
      rw [writeItems, writeItems, hitems]
  | object r =>
    exact writeMembers_congr (List.forall_mem_map.2 fun e he => h e.2 (List.mem_map_of_mem he))
  | _ => rfl

/-- Writing a value leads to one outcome. -/
theorem Writes.unique (h : w.Writes outer v r) (h' : w.Writes outer v r') : r = r' := by
  induction h generalizing r' with
  | reference _ ih =>
    cases h' with
    | reference h' => exact ih h'
    | scalar _ hr => cases hr
    | refused hc => cases hc
    | container hc => cases hc
  | scalar hc hr =>
    cases h' with
    | reference => cases hr
    | scalar => rfl
    | refused hc' => exact absurd hc' (Bool.eq_false_iff.1 hc)
    | container hc' => exact absurd hc' (Bool.eq_false_iff.1 hc)
  | refused hc he =>
    cases h' with
    | reference => cases hc
    | scalar hc' => exact absurd hc (Bool.eq_false_iff.1 hc')
    | refused _ he' =>
      cases he.symm.trans he'
      rfl
    | container _ he' => cases he.symm.trans he'
  | container hc he _ ih =>
    cases h' with
    | reference => cases hc
    | scalar hc' => exact absurd hc (Bool.eq_false_iff.1 hc')
    | refused _ he' => cases he.symm.trans he'
    | container _ he' hu' =>
      cases he.symm.trans he'
      exact writeContainer_congr fun u hu => ih u hu (hu' u hu)

/-- References in front of a value do not change what it is written as. -/
theorem Writes.of_derefWithin (n : Nat) (h : w.Writes outer (w.heap.derefWithin n v) r) :
    w.Writes outer v r := by
  induction n generalizing v with
  | zero => rwa [Heap.derefWithin_zero] at h
  | succ n ih =>
    cases v with
    | reference c => exact .reference (ih h)
    | _ => exact h

/-- Inside a container a value may be written in place of a reference to it. -/
theorem write_deref (hr : (w.heap.deref v).isReference = false) :
    w.write n outer (w.heap.deref v) = w.write n outer v := by
  have hd := w.heap.deref_eq_self hr
  rw [write.eq_def, write.eq_def]
  simp only [hd]

theorem write_of_container (hc : (w.heap.deref v).isContainer)
    (hr : ∀ u, w.heap.Shows (w.heap.deref v) u → (w.heap.deref u).isReference = false) :
    w.write (n + 1) outer v = w.enter outer (w.heap.deref v) >>= fun inner =>
      w.writeContainer (w.write n inner) inner.length (w.heap.deref v) := by
  rw [write.eq_def]
  cases hd : w.heap.deref v with
  | array r =>
    simp only [hd]
    rfl
  | object r =>
    rw [hd] at hr
    have hmembers (inner : List Val) : w.writeMembers (w.write n inner) inner.length
        ((w.heap.publicProperties (w.heap.object r)).map fun (name, v) =>
          (Bytes.ofString name, v)) =
        w.writeContainer (w.write n inner) inner.length (.object r) := by
      have hcongr : w.writeContainer (fun u => w.write n inner (w.heap.deref u)) inner.length
          (.object r) = w.writeContainer (w.write n inner) inner.length (.object r) :=
        writeContainer_congr fun u hu => write_deref (hr u hu)
      rw [← hcongr, Heap.publicProperties_eq_map_deref, writeContainer, writeMembers, writeMembers,
        List.map_map, List.mapM_map, List.mapM_map]
      rfl
    simp only [hd, hmembers]
  | _ => rw [hd] at hc; cases hc

/-- Whether `n` more containers may be entered than the heap has besides those of `outer`. -/
structure Reserves (w : Writer) (n : Nat) (outer : List Val) : Prop where
  nodup : outer.Nodup
  subset : outer ⊆ w.heap.handles
  fuel : w.heap.arrays.size + w.heap.objects.size < n + outer.length

theorem Reserves.pos (hs : w.Reserves n outer) : 0 < n := by
  have hlen := Heap.length_le_of_subset_handles hs.nodup hs.subset
  have hfuel := hs.fuel
  omega

theorem Reserves.enter (hs : w.Reserves (n + 1) outer) (he : w.enter outer v = .ok inner)
    (hv : v ∈ w.heap.handles) : w.Reserves n inner := by
  obtain ⟨hm, -, rfl⟩ := enter_eq_ok_iff.1 he
  refine ⟨List.nodup_cons.2 ⟨hm, hs.nodup⟩, List.cons_subset.2 ⟨hv, hs.subset⟩, ?_⟩
  have hfuel := hs.fuel
  rw [List.length_cons]
  omega

/-- What is found within a bound that leaves room for all containers is the outcome. -/
theorem writes_write (hv : w.heap.ReferencesEnd v) (hs : w.Reserves n outer) :
    w.Writes outer v (w.write n outer v) := by
  induction n generalizing outer v with
  | zero => exact absurd hs.pos (Nat.lt_irrefl 0)
  | succ n ih =>
    refine .of_derefWithin w.heap.cells.size ?_
    change w.Writes outer (w.heap.deref v) _
    cases hc : (w.heap.deref v).isContainer with
    | false =>
      rw [write_of_scalar rfl hc]
      exact .scalar hc hv.isReference_deref
    | true =>
      have hend (u : Val) (hu : w.heap.Shows (w.heap.deref v) u) : w.heap.ReferencesEnd u :=
        hv.deref.of_shows (.single hu)
      rw [write_of_container hc fun u hu => (hend u hu).isReference_deref]
      cases he : w.enter outer (w.heap.deref v) with
      | error e => exact .refused hc he
      | ok inner =>
        refine .container hc he fun u hu => ?_
        exact ih (hend u hu) (hs.enter he (Heap.mem_handles_of_shows hc hu))

end Writer

end Json

end ObjectModel
