import ObjectModel.Proofs.Forall2
import ObjectModel.Proofs.Heap.Copying
/-!
# Deep copies

The copy of a value mirrors all that can be seen from the value. Each object that can be seen has
one copy, which stands for it wherever it occurs; an array is copied as often as it occurs; scalars
and reference cells are the same ones. A value and its copy can be explored in step: what one leads
to mirrors what the other leads to. So what can be seen from the copy was not there before.
-/

namespace ObjectModel.Heap

variable {h : Heap} {δ : Addition} {v v' w w' : Val}

/-- Whether a value is no container, or one that the second heap has and the first has not. -/
def IsNew (h h' : Heap) : Val → Prop
  | .array r => h.arrays.size ≤ r.index ∧ r.index < h'.arrays.size
  | .object r => h.objects.size ≤ r.index ∧ r.index < h'.objects.size
  | _ => True

/-- Whether each container that is added mirrors the one it stands for. -/
structure IsFaithful (h : Heap) (δ : Addition) : Prop where
  arrays : ∀ e ∈ δ.arrays, (h.array e.1).Mirrors (δ.Mirrors h) e.2
  objects : ∀ e ∈ δ.objects, (h.object e.1).Mirrors (δ.Mirrors h) e.2

/-- Whether `v'` in the heap `h'` is a copy of all that can be seen from `v` in the heap `h`, where
`δ` tells for each container that was added which old one it stands for. -/
structure IsDeepCopy (h : Heap) (v : Val) (δ : Addition) (h' : Heap) (v' : Val) : Prop where
  /-- Containers are added, and all else is as it was. -/
  heap_eq : h' = h.add δ
  mirrors : δ.Mirrors h v v'
  isFaithful : h.IsFaithful δ
  /-- Each new array occurs in exactly one place. -/
  occurrences : (arrayRefs (v' :: δ.held)).Perm
    ((List.range' h.arrays.size δ.arrays.length).map ArrayRef.mk)
  /-- No object has two copies. -/
  nodup_objects : (δ.objects.map Prod.fst).Nodup
  /-- The objects with a copy are those that can be seen. -/
  mem_objects_iff : ∀ r, r ∈ δ.objects.map Prod.fst ↔ h.Reaches v (.object r)
  /-- No container that was there before can be seen from the copy. -/
  isNew : ∀ w, h'.Reaches v' w → IsNew h h' w

/-- A container and its copy hold values that stand for one another. -/
theorem IsFaithful.contents (hf : h.IsFaithful δ) (hm : δ.Mirrors h w w') :
    List.Forall₂ (δ.Mirrors h) (h.contents w) ((h.add δ).contents w') := by
  cases hm with
  | array hr => exact (hf.arrays _ (exists_array_add hr).1).values
  | object hr => exact (hf.objects _ (exists_object_add hr).1).values
  | plain ha ho =>
    rw [contents_of_plain ha ho, contents_of_plain ha ho]
    exact .nil

theorem IsFaithful.exists_of_reaches (hf : h.IsFaithful δ) (hm : δ.Mirrors h v v')
    (hr : h.Reaches v w) : ∃ w', (h.add δ).Reaches v' w' ∧ δ.Mirrors h w w' := by
  induction hr with
  | refl => exact ⟨v', .refl, hm⟩
  | tail _ hw ih =>
    obtain ⟨u', hu', hmu⟩ := ih
    obtain ⟨w', hw', hmw⟩ := exists_of_mem_left (hf.contents hmu) hw
    exact ⟨w', hu'.tail hw', hmw⟩

theorem IsFaithful.exists_of_reaches_copy (hf : h.IsFaithful δ) (hm : δ.Mirrors h v v')
    (hr : (h.add δ).Reaches v' w') : ∃ w, h.Reaches v w ∧ δ.Mirrors h w w' := by
  induction hr with
  | refl => exact ⟨v, .refl, hm⟩
  | tail _ hw ih =>
    obtain ⟨u, hu, hmu⟩ := ih
    obtain ⟨w, hw, hmw⟩ := exists_of_mem_right (hf.contents hmu) hw
    exact ⟨w, hu.tail hw, hmw⟩

theorem isNew_of_mirrors (hm : δ.Mirrors h w w') : IsNew h (h.add δ) w' := by
  cases hm with
  | array hr => exact (exists_array_add hr).2
  | object hr => exact (exists_object_add hr).2
  | plain ha ho =>
    cases w with
    | array r => cases ha
    | object r => cases ho
    | _ => trivial

theorem Copies.mirrors_start (hm : Copying.Mirrors { heap := h } δ v w) : δ.Mirrors h v w := by
  refine Val.Mirrors.mono (List.Subset.refl _) (fun e he => ?_) hm
  simpa [Copying.add] using he

/-- What the copy of one value adds to a heap from which nothing was copied before. -/
theorem Copies.isDeepCopy (hc : Copies h { heap := h } [v] δ [v']) :
    IsDeepCopy h v δ (h.add δ) v' := by
  have hmirrors : δ.Mirrors h v v' := mirrors_start (List.forall₂_cons.1 hc.values).1
  have hfaithful : h.IsFaithful δ :=
    ⟨fun e he => (hc.arrays e he).mono fun _ _ => mirrors_start,
      fun e he => (hc.objects e he).mono fun _ _ => mirrors_start⟩
  refine ⟨rfl, hmirrors, hfaithful, ?_, ?_, fun r => ⟨?_, ?_⟩, fun w hw => ?_⟩
  · rw [← map_snd_numbered]
    exact hc.occurrences
  · have hn := hc.nodup
    rwa [Copying.add, List.append_nil, List.map_reverse, List.nodup_reverse,
      Addition.map_fst_objectPairs] at hn
  · intro hr
    obtain ⟨e, he, rfl⟩ := List.mem_map.1 hr
    obtain ⟨u, hu, hreach⟩ := hc.reached e he
    rwa [List.mem_singleton.1 hu] at hreach
  · intro hr
    obtain ⟨w', -, hm⟩ := hfaithful.exists_of_reaches hmirrors hr
    rw [← Addition.map_fst_objectPairs δ h]
    cases hm with
    | object hr => exact List.mem_map_of_mem hr
    | plain ha ho => cases ho
  · obtain ⟨u, -, hm⟩ := hfaithful.exists_of_reaches_copy hmirrors hw
    exact isNew_of_mirrors hm

/-- A value without arrays that lie inside themselves is copied before the bound on its depth is
reached. -/
theorem exists_copies_of_isCopyable (hv : h.IsCopyable v) :
    ∃ δ v', Copies h { heap := h } [v] δ [v'] ∧
      ∀ n, h.copyDepth ≤ n → copyWithin n { heap := h } v = (Copying.add { heap := h } δ, v') := by
  refine exists_copies_of_fuel (Copying.continues_start h) hv (isPath_nil h v) ?_
  rw [Copying.fuel, copyDepth, Nat.add_mul, List.length_nil, List.length_nil, Nat.sub_zero]
  omega

/-- A greater bound makes no difference. -/
theorem copyWithin_of_copyDepth_le (hv : h.IsCopyable v) {n : Nat} (hn : h.copyDepth ≤ n) :
    copyWithin n { heap := h } v = copyWithin h.copyDepth { heap := h } v := by
  obtain ⟨δ, v', -, hm⟩ := exists_copies_of_isCopyable hv
  rw [hm n hn, hm _ (Nat.le_refl _)]

/-- A value without arrays that lie inside themselves is copied with all that can be seen from it,
and the copy is finished before the bound on its depth is reached. -/
theorem isDeepCopy_deepCopy (hv : h.IsCopyable v) :
    (∃ δ, IsDeepCopy h v δ (h.deepCopy v).1 (h.deepCopy v).2) ∧
      ∀ n, h.copyDepth ≤ n →
        copyWithin n { heap := h } v = copyWithin h.copyDepth { heap := h } v := by
  obtain ⟨δ, v', hc, hm⟩ := exists_copies_of_isCopyable hv
  have hdeep : h.deepCopy v = (h.add δ, v') := by
    rw [deepCopy, hm _ (Nat.le_refl _)]
    rfl
  refine ⟨⟨δ, ?_⟩, fun n => copyWithin_of_copyDepth_le hv⟩
  rw [hdeep]
  exact hc.isDeepCopy

/-- An object that holds an array, in which a second array occurs twice next to a reference cell.
The second array holds the object, and the cell holds the first array. -/
def ringHeap : Heap where
  arrays := #[.packed [.array ⟨1⟩, .reference ⟨0⟩, .array ⟨1⟩], .packed [.object ⟨0⟩]]
  cells := #[.array ⟨0⟩]
  objects := #[⟨default, .ofList [("items", .dynamic "Ring" (.array ⟨0⟩))]⟩]

theorem isCopyable_ringHeap : ringHeap.IsCopyable (.object ⟨0⟩) := by
  refine .of_rank (P := (· ∈ [.object ⟨0⟩, .array ⟨0⟩, .array ⟨1⟩, .reference ⟨0⟩]))
    List.mem_cons_self (by decide) (by simp [Has, ringHeap]) ArrayRef.index ?_
  rintro ⟨i⟩ r' hr
  match i with
  | 0 =>
    have he : r' = ⟨1⟩ := by simpa [Nests, ringHeap, array] using hr
    rw [he]
    exact Nat.zero_lt_one
  | 1 => simp [Nests, ringHeap, array] at hr
  | i + 2 => cases hr

theorem isDeepCopy_ringHeap :
    ringHeap.IsCopyable (.object ⟨0⟩) ∧
      (∃ δ, IsDeepCopy ringHeap (.object ⟨0⟩) δ (ringHeap.deepCopy (.object ⟨0⟩)).1
        (ringHeap.deepCopy (.object ⟨0⟩)).2) ∧
      ∀ n, ringHeap.copyDepth ≤ n →
        copyWithin n { heap := ringHeap } (.object ⟨0⟩) =
          copyWithin ringHeap.copyDepth { heap := ringHeap } (.object ⟨0⟩) :=
  ⟨isCopyable_ringHeap, isDeepCopy_deepCopy isCopyable_ringHeap⟩

end ObjectModel.Heap
