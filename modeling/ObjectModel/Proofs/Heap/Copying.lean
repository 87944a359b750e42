import Mathlib.Data.List.Perm.Subperm
import ObjectModel.Proofs.Heap.Addition
import ObjectModel.Proofs.Object.Instance
/-!
# Copying values

Copying adds containers to the heap and changes nothing that is there. `Copies` says what the copies
of a list of values, made one after another, add to a state; it composes, and each case of
`copyWithin` is one rule for it.

The recursion ends because every object is entered once, and because between two objects the arrays
on the way are distinct. Both are counted by `Copying.fuel`, which bounds how deep containers can
still nest.
-/

namespace ObjectModel.Heap

variable {h : Heap} {s : Copying} {δ ε : Addition}

namespace Copying

def add (s : Copying) (δ : Addition) : Copying where
  heap := s.heap.add δ
  copies := (δ.objectPairs s.heap).reverse ++ s.copies

@[simp] theorem heap_add (s : Copying) (δ : Addition) : (s.add δ).heap = s.heap.add δ := rfl

@[simp] theorem add_empty (s : Copying) : s.add ∅ = s := by
  simp [add, Addition.objectPairs]

theorem add_append (s : Copying) (δ ε : Addition) : s.add (δ ++ ε) = (s.add δ).add ε := by
  simp [add, Heap.add_append, objectPairs_append]

def enter (s : Copying) (r : ObjectRef) : Copying where
  heap := (s.heap.allocObject { s.heap.object r with slots := ∅ }).1
  copies := (r, ⟨s.heap.objects.size⟩) :: s.copies

/-- Filling in the copy of an object adds it in front of what was added meanwhile. -/
theorem setObject_add_enter (s : Copying) (r : ObjectRef) (δ : Addition) (o : Object) :
    { (s.enter r).add δ with
      heap := ((s.enter r).add δ).heap.setObject ⟨s.heap.objects.size⟩ o } =
      s.add ⟨δ.arrays, (r, o) :: δ.objects⟩ := by
  have ho : ((s.enter r).add δ).heap.setObject ⟨s.heap.objects.size⟩ o =
      s.heap.add ⟨δ.arrays, (r, o) :: δ.objects⟩ := by
    simp [enter, add, allocObject, setObject, Heap.add]
  rw [ho]
  simp [enter, add, allocObject, Addition.objectPairs, numbered_cons]

def Mirrors (s : Copying) (δ : Addition) : Val → Val → Prop :=
  Val.Mirrors (δ.arrayPairs s.heap) (s.add δ).copies

theorem Mirrors.append_left {v w : Val} (hm : s.Mirrors δ v w) : s.Mirrors (δ ++ ε) v w := by
  refine Val.Mirrors.mono ?_ ?_ hm
  · rw [arrayPairs_append]
    exact List.subset_append_left ..
  · rw [add_append]
    exact List.subset_append_right ..

theorem Mirrors.append_right {v w : Val} (hm : (s.add δ).Mirrors ε v w) :
    s.Mirrors (δ ++ ε) v w := by
  refine Val.Mirrors.mono ?_ ?_ hm
  · rw [arrayPairs_append]
    exact List.subset_append_right ..
  · rw [add_append]
    exact List.Subset.refl _

/-- Whether the containers of a heap are still what they were, and the objects known to be copied
are among them. -/
structure Continues (s : Copying) (h : Heap) : Prop where
  array_eq : ∀ r, r.index < h.arrays.size → s.heap.array r = h.array r
  object_eq : ∀ r, r.index < h.objects.size → s.heap.object r = h.object r
  arrays_le : h.arrays.size ≤ s.heap.arrays.size
  objects_le : h.objects.size ≤ s.heap.objects.size
  nodup : (s.copies.map Prod.fst).Nodup
  lt_size : ∀ e ∈ s.copies, e.1.index < h.objects.size

theorem continues_start (h : Heap) : Continues { heap := h } h where
  array_eq _ _ := rfl
  object_eq _ _ := rfl
  arrays_le := Nat.le_refl _
  objects_le := Nat.le_refl _
  nodup := List.nodup_nil
  lt_size _ he := (List.not_mem_nil he).elim

theorem Continues.enter {r : ObjectRef} (hs : s.Continues h) (hr : r.index < h.objects.size)
    (hn : r ∉ s.copies.map Prod.fst) : (s.enter r).Continues h where
  array_eq r' hr' := hs.array_eq r' hr'
  object_eq r' hr' := by
    rw [← hs.object_eq r' hr']
    have hlt := Nat.lt_of_lt_of_le hr' hs.objects_le
    simp [Copying.enter, allocObject, object, Array.getElem?_push_lt hlt, hlt]
  arrays_le := hs.arrays_le
  objects_le := by
    rw [Copying.enter, allocObject, Array.size_push]
    exact Nat.le_succ_of_le hs.objects_le
  nodup := List.nodup_cons.2 ⟨hn, hs.nodup⟩
  lt_size := List.forall_mem_cons.2 ⟨hr, hs.lt_size⟩

/-- How deep containers can nest from a state on, below some arrays that are being copied. -/
def fuel (s : Copying) (h : Heap) (path : List ArrayRef) : Nat :=
  (h.objects.size - s.copies.length) * (h.arrays.size + 1) + (h.arrays.size - path.length) + 1

end Copying

/-- What the copies `vs'` of some values of the heap `h` have added to the state `s`. -/
structure Copies (h : Heap) (s : Copying) (vs : List Val) (δ : Addition) (vs' : List Val) :
    Prop where
  values : List.Forall₂ (s.Mirrors δ) vs vs'
  arrays : ∀ e ∈ δ.arrays, (h.array e.1).Mirrors (s.Mirrors δ) e.2
  objects : ∀ e ∈ δ.objects, (h.object e.1).Mirrors (s.Mirrors δ) e.2
  /-- No object is copied twice. -/
  nodup : ((s.add δ).copies.map Prod.fst).Nodup
  /-- Only what can be seen from the values is copied. -/
  reached : ∀ e ∈ δ.objects, ∃ v ∈ vs, h.Reaches v (.object e.1)
  /-- Each new array occurs once. -/
  occurrences : (arrayRefs (vs' ++ δ.held)).Perm ((δ.arrayPairs s.heap).map Prod.snd)

namespace Copies

variable {vs vs' ws ws' : List Val}

theorem continues_add (hc : Copies h s vs δ vs') (hs : s.Continues h)
    (hv : ∀ v ∈ vs, h.IsCopyable v) : (s.add δ).Continues h where
  array_eq r hr := (array_add_of_lt (Nat.lt_of_lt_of_le hr hs.arrays_le)).trans (hs.array_eq r hr)
  object_eq r hr :=
    (object_add_of_lt (Nat.lt_of_lt_of_le hr hs.objects_le)).trans (hs.object_eq r hr)
  arrays_le := by
    rw [Copying.add, size_arrays_add]
    exact Nat.le_add_right_of_le hs.arrays_le
  objects_le := by
    rw [Copying.add, size_objects_add]
    exact Nat.le_add_right_of_le hs.objects_le
  nodup := hc.nodup
  lt_size e he := by
    obtain he | he := List.mem_append.1 he
    · have hm : e.1 ∈ δ.objects.map Prod.fst := by
        rw [← δ.map_fst_objectPairs s.heap]
        exact List.mem_map_of_mem (List.mem_reverse.1 he)
      obtain ⟨e', he', heq⟩ := List.mem_map.1 hm
      obtain ⟨v, hv', hr⟩ := hc.reached e' he'
      rw [← heq]
      exact (hv v hv').has _ hr
    · exact hs.lt_size e he

/-- Nothing is copied and nothing added. -/
theorem of_mirrors (hs : s.Continues h) (hv : List.Forall₂ (s.Mirrors ∅) vs vs')
    (ha : arrayRefs vs' = []) : Copies h s vs ∅ vs' where
  values := hv
  arrays _ he := (List.not_mem_nil he).elim
  objects _ he := (List.not_mem_nil he).elim
  nodup := by
    rw [Copying.add_empty]
    exact hs.nodup
  reached _ he := (List.not_mem_nil he).elim
  occurrences := by
    simp [Addition.held, Addition.arrayPairs, ha]

theorem append (hc : Copies h s vs δ vs') (hd : Copies h (s.add δ) ws ε ws') :
    Copies h s (vs ++ ws) (δ ++ ε) (vs' ++ ws') where
  values := List.rel_append (hc.values.imp fun _ _ => .append_left)
    (hd.values.imp fun _ _ => .append_right)
  arrays e he := by
    obtain he | he := List.mem_append.1 he
    · exact (hc.arrays e he).mono fun _ _ => .append_left
    · exact (hd.arrays e he).mono fun _ _ => .append_right
  objects e he := by
    obtain he | he := List.mem_append.1 he
    · exact (hc.objects e he).mono fun _ _ => .append_left
    · exact (hd.objects e he).mono fun _ _ => .append_right
  nodup := by
    rw [Copying.add_append]
    exact hd.nodup
  reached e he := by
    obtain he | he := List.mem_append.1 he
    · obtain ⟨v, hv, hr⟩ := hc.reached e he
      exact ⟨v, List.mem_append_left ws hv, hr⟩
    · obtain ⟨v, hv, hr⟩ := hd.reached e he
      exact ⟨v, List.mem_append_right vs hv, hr⟩
  occurrences := by
    rw [List.perm_iff_count]
    intro r
    have hcr := hc.occurrences.count_eq r
    have hdr := hd.occurrences.count_eq r
    simp only [Addition.held, Addition.arrays_append, Addition.objects_append,
      List.flatMap_append, arrayRefs_append, arrayPairs_append, List.map_append,
      List.count_append, Copying.heap_add] at hcr hdr ⊢
    omega

/-- An array is added once its elements are copied. -/
theorem array {r : ArrayRef} {a : OrderedArray Val}
    (hc : Copies h s (h.array r).values δ a.values) (ha : (h.array r).Mirrors (s.Mirrors δ) a) :
    Copies h s [.array r] (δ ++ ⟨[(r, a)], []⟩)
      [.array ⟨s.heap.arrays.size + δ.arrays.length⟩] where
  values := by
    have hm : (r, ⟨s.heap.arrays.size + δ.arrays.length⟩) ∈
        (δ ++ ⟨[(r, a)], []⟩ : Addition).arrayPairs s.heap := by
      rw [arrayPairs_append, arrayPairs_singleton, size_arrays_add]
      exact List.mem_append_right _ (List.mem_singleton_self _)
    exact .cons (.array hm) .nil
  arrays e he := by
    obtain he | he := List.mem_append.1 he
    · exact (hc.arrays e he).mono fun _ _ => .append_left
    · rw [List.mem_singleton.1 he]
      exact ha.mono fun _ _ => .append_left
  objects e he := by
    rw [Addition.objects_append, List.append_nil] at he
    exact (hc.objects e he).mono fun _ _ => .append_left
  nodup := by
    rw [Copying.add_append]
    exact hc.nodup
  reached e he := by
    rw [Addition.objects_append, List.append_nil] at he
    obtain ⟨v, hv, hr⟩ := hc.reached e he
    exact ⟨.array r, List.mem_singleton_self _, .of_mem_contents hv hr⟩
  occurrences := by
    rw [List.perm_iff_count]
    intro r'
    have hcr := hc.occurrences.count_eq r'
    have hnew : arrayRefs [.array ⟨s.heap.arrays.size + δ.arrays.length⟩] =
        [⟨s.heap.arrays.size + δ.arrays.length⟩] := rfl
    simp only [Addition.held, Addition.arrays_append, List.append_nil, Addition.objects_append,
      List.flatMap_append, List.flatMap_singleton, arrayRefs_append, arrayPairs_append,
      arrayPairs_singleton, size_arrays_add, List.map_append, List.map_cons, List.map_nil,
      List.count_append, hnew] at hcr ⊢
    omega

/-- An object is added, under the number that was taken for it, once its values are copied. -/
theorem object {r : ObjectRef} {o : Object}
    (hc : Copies h (s.enter r) (h.object r).values δ o.values)
    (ho : (h.object r).Mirrors ((s.enter r).Mirrors δ) o) :
    Copies h s [.object r] ⟨δ.arrays, (r, o) :: δ.objects⟩ [.object ⟨s.heap.objects.size⟩] := by
  have hcopies : (s.add ⟨δ.arrays, (r, o) :: δ.objects⟩).copies = ((s.enter r).add δ).copies := by
    rw [← Copying.setObject_add_enter]
  have hM : s.Mirrors ⟨δ.arrays, (r, o) :: δ.objects⟩ = (s.enter r).Mirrors δ := by
    rw [Copying.Mirrors, hcopies]
    rfl
  have hm : (r, ⟨s.heap.objects.size⟩) ∈ (s.add ⟨δ.arrays, (r, o) :: δ.objects⟩).copies := by
    rw [hcopies]
    exact List.mem_append_right _ List.mem_cons_self
  refine ⟨.cons (.object hm) .nil, ?_, ?_, ?_, ?_, ?_⟩
  · rw [hM]
    exact hc.arrays
  · rw [hM]
    exact List.forall_mem_cons.2 ⟨ho, hc.objects⟩
  · rw [hcopies]
    exact hc.nodup
  · refine List.forall_mem_cons.2 ⟨⟨_, List.mem_singleton_self _, .refl⟩, fun e he => ?_⟩
    obtain ⟨v, hv, hr⟩ := hc.reached e he
    exact ⟨.object r, List.mem_singleton_self _, .of_mem_contents hv hr⟩
  · -- the values of the new object are held by it now
    have hnew : arrayRefs [.object ⟨s.heap.objects.size⟩] = [] := rfl
    rw [List.perm_iff_count]
    intro r'
    have hcr := hc.occurrences.count_eq r'
    have hp : (⟨δ.arrays, (r, o) :: δ.objects⟩ : Addition).arrayPairs s.heap =
      δ.arrayPairs (s.enter r).heap := rfl
    rw [hp, ← hcr]
    simp only [Addition.held, List.flatMap_cons, arrayRefs_append, hnew, List.nil_append,
      List.count_append]
    omega

end Copies

theorem copyWithin_array (n : Nat) (s : Copying) (r : ArrayRef) :
    copyWithin (n + 1) s (.array r) =
      (let t := (s.heap.array r).mapAccum (copyWithin n) s
      ({ t.1 with heap := (t.1.heap.allocArray t.2).1 }, .array ⟨t.1.heap.arrays.size⟩)) := rfl

theorem copyWithin_object_of_some {n : Nat} {r r' : ObjectRef} (hr : s.copies.lookup r = some r') :
    copyWithin (n + 1) s (.object r) = (s, .object r') := by
  rw [copyWithin, hr]

theorem copyWithin_object_of_none {n : Nat} {r : ObjectRef} (hr : s.copies.lookup r = none) :
    copyWithin (n + 1) s (.object r) =
      (let t := (s.heap.object r).mapAccumValues (copyWithin n) (s.enter r)
      ({ t.1 with heap := t.1.heap.setObject ⟨s.heap.objects.size⟩ t.2 },
        .object ⟨s.heap.objects.size⟩)) := by
  rw [copyWithin, hr]
  rfl

/-- Copying changes arrays and objects only. -/
theorem exists_heap_copyWithin (n : Nat) (s : Copying) (v : Val) :
    ∃ arrays objects, (copyWithin n s v).1.heap = { s.heap with arrays, objects } := by
  induction n generalizing s v with
  | zero => exact ⟨_, _, rfl⟩
  | succ n ih =>
    have hlist (s : Copying) (vs : List Val) : ∃ arrays objects,
        (mapAccum (copyWithin n) s vs).1.heap = { s.heap with arrays, objects } := by
      refine mapAccum_induction
        (P := fun t : Copying => ∃ arrays objects, t.heap = { s.heap with arrays, objects })
        ?_ ⟨_, _, rfl⟩ vs
      rintro t v ⟨as, os, ht⟩
      obtain ⟨as', os', h'⟩ := ih t v
      exact ⟨as', os', by rw [h', ht]⟩
    cases v with
    | array r =>
      obtain ⟨as, os, he⟩ := hlist s (s.heap.array r).values
      rw [← OrderedArray.mapAccum_fst] at he
      rw [copyWithin_array]
      dsimp only
      rw [he]
      exact ⟨_, _, rfl⟩
    | object r =>
      cases hr : s.copies.lookup r with
      | some r' =>
        rw [copyWithin_object_of_some hr]
        exact ⟨_, _, rfl⟩
      | none =>
        obtain ⟨as, os, he⟩ := hlist (s.enter r) (s.heap.object r).values
        rw [← Object.mapAccumValues_fst] at he
        rw [copyWithin_object_of_none hr]
        dsimp only
        rw [he]
        exact ⟨_, _, rfl⟩
    | _ => exact ⟨_, _, rfl⟩

theorem exists_deepCopy (h : Heap) (v : Val) :
    ∃ arrays objects, (h.deepCopy v).1 = { h with arrays, objects } :=
  exists_heap_copyWithin h.copyDepth { heap := h } v

/-- A copy is a reference only if the value itself is one. -/
theorem isReference_copyWithin (n : Nat) (s : Copying) (v : Val) :
    (copyWithin n s v).2.isReference = v.isReference := by
  cases n with
  | zero => rfl
  | succ n =>
    cases v with
    | object r =>
      cases hr : s.copies.lookup r with
      | some r' => rw [copyWithin_object_of_some hr]; rfl
      | none => rw [copyWithin_object_of_none hr]; rfl
    | _ => rfl

/-- Distinct numbers below a bound are at most as many as the bound says. -/
theorem length_le_of_forall_lt {l : List Nat} {n : Nat} (hl : l.Nodup) (hn : ∀ i ∈ l, i < n) :
    l.length ≤ n := by
  have hsub : l ⊆ List.range n := fun i hi => List.mem_range.2 (hn i hi)
  simpa using (List.subperm_of_subset hl hsub).length_le

/-- Arrays that are being copied: distinct, and each leads to the value through arrays alone. -/
structure IsPath (h : Heap) (path : List ArrayRef) (v : Val) : Prop where
  nodup : path.Nodup
  lt_size : ∀ p ∈ path, p.index < h.arrays.size
  nests : ∀ r, v = .array r → ∀ p ∈ path, Relation.TransGen h.Nests p r

theorem isPath_nil (h : Heap) (v : Val) : h.IsPath [] v :=
  ⟨List.nodup_nil, fun _ hp => (List.not_mem_nil hp).elim,
    fun _ _ _ hp => (List.not_mem_nil hp).elim⟩

theorem IsPath.length_le {path : List ArrayRef} {v : Val} (hp : h.IsPath path v) :
    path.length ≤ h.arrays.size := by
  have hn : (path.map ArrayRef.index).Nodup :=
    hp.nodup.map fun ⟨_⟩ ⟨_⟩ => congrArg ArrayRef.mk
  rw [← path.length_map ArrayRef.index]
  exact length_le_of_forall_lt hn (List.forall_mem_map.2 hp.lt_size)

theorem IsPath.cons {path : List ArrayRef} {r : ArrayRef} {w : Val}
    (hp : h.IsPath path (.array r)) (hv : h.IsCopyable (.array r))
    (hw : w ∈ h.contents (.array r)) : h.IsPath (r :: path) w where
  nodup := List.nodup_cons.2
    ⟨fun hr => hv.acyclic r .refl (hp.nests r rfl r hr), hp.nodup⟩
  lt_size := List.forall_mem_cons.2 ⟨hv.has _ .refl, hp.lt_size⟩
  nests r' hr' := by
    subst hr'
    refine List.forall_mem_cons.2 ⟨.single hw, fun p hpm => ?_⟩
    exact (hp.nests r rfl p hpm).tail hw

theorem Copying.Continues.length_le (hs : s.Continues h) : s.copies.length ≤ h.objects.size := by
  have hn : ((s.copies.map Prod.fst).map ObjectRef.index).Nodup :=
    hs.nodup.map fun ⟨_⟩ ⟨_⟩ => congrArg ObjectRef.mk
  rw [← s.copies.length_map Prod.fst, ← (s.copies.map Prod.fst).length_map ObjectRef.index]
  refine length_le_of_forall_lt hn ?_
  rw [List.forall_mem_map, List.forall_mem_map]
  exact hs.lt_size

/-- With one more array on the way there is less room for others. -/
theorem Copying.fuel_cons_lt {t : Copying} {path : List ArrayRef} {r : ArrayRef}
    (hp : (r :: path).length ≤ h.arrays.size) (ht : s.copies.length ≤ t.copies.length) :
    t.fuel h (r :: path) < s.fuel h path := by
  have hmul := Nat.mul_le_mul_right (h.arrays.size + 1) (Nat.sub_le_sub_left ht h.objects.size)
  rw [List.length_cons] at hp
  rw [fuel, fuel, List.length_cons]
  omega

/-- With one more object known, all arrays may come again. -/
theorem Copying.fuel_nil_lt {t : Copying} {path : List ArrayRef}
    (hs : s.copies.length < h.objects.size) (ht : s.copies.length < t.copies.length) :
    t.fuel h [] < s.fuel h path := by
  have hmul := Nat.mul_le_mul_right (h.arrays.size + 1) (Nat.sub_le_sub_left ht h.objects.size)
  have hone : h.objects.size - s.copies.length = h.objects.size - s.copies.length.succ + 1 := by
    omega
  rw [fuel, fuel, hone, Nat.add_mul, Nat.one_mul, List.length_nil]
  omega

/-- Where every value of a list is copied from every later state, the list is. -/
theorem exists_copies_of_forall {n k : Nat} {l : List Val}
    (hl : ∀ v ∈ l, h.IsCopyable v)
    (hcopy : ∀ t v, t.Continues h → k ≤ t.copies.length → v ∈ l →
      ∃ δ v', Copies h t [v] δ [v'] ∧ ∀ m, n ≤ m → copyWithin m t v = (t.add δ, v'))
    (hs : s.Continues h) (hk : k ≤ s.copies.length) :
    ∃ δ vs', Copies h s l δ vs' ∧ ∀ m, n ≤ m → mapAccum (copyWithin m) s l = (s.add δ, vs') := by
  induction l generalizing s with
  | nil =>
    refine ⟨∅, [], .of_mirrors hs .nil rfl, fun m _ => ?_⟩
    rw [Copying.add_empty, mapAccum_nil]
  | cons v l ih =>
    obtain ⟨hv, hl⟩ := List.forall_mem_cons.1 hl
    obtain ⟨δ, v', hc, hm⟩ := hcopy s v hs hk List.mem_cons_self
    have hs' : (s.add δ).Continues h := hc.continues_add hs (List.forall_mem_singleton.2 hv)
    have hk' : k ≤ (s.add δ).copies.length := by
      rw [Copying.add, List.length_append]
      exact Nat.le_add_left_of_le hk
    obtain ⟨ε, vs', hd, hn⟩ := ih hl
      (fun t w ht hk hw => hcopy t w ht hk (List.mem_cons_of_mem v hw)) hs' hk'
    refine ⟨δ ++ ε, v' :: vs', hc.append hd, fun m hle => ?_⟩
    rw [mapAccum_cons, hm m hle, hn m hle, Copying.add_append]

/-- A value for which another is at hand is copied without adding anything. -/
theorem exists_copies_of_mirrors {n : Nat} {v w : Val} (hs : s.Continues h)
    (hm : s.Mirrors ∅ v w) (hw : w.arrayRef? = none)
    (hcopy : ∀ m, copyWithin (m + 1) s v = (s, w)) :
    ∃ δ v', Copies h s [v] δ [v'] ∧ ∀ m, n + 1 ≤ m → copyWithin m s v = (s.add δ, v') := by
  have hrefs : arrayRefs [w] = [] := by simp [arrayRefs, hw]
  refine ⟨∅, w, .of_mirrors hs (.cons hm .nil) hrefs, fun m hle => ?_⟩
  obtain ⟨m, rfl⟩ := Nat.exists_eq_add_one.2 (Nat.lt_of_lt_of_le (Nat.succ_pos n) hle)
  rw [hcopy, Copying.add_empty]

theorem exists_copies_array {n : Nat} {r : ArrayRef} (hs : s.Continues h)
    (hr : r.index < h.arrays.size)
    (hc : ∃ δ vs', Copies h s (h.array r).values δ vs' ∧
      ∀ m, n ≤ m → mapAccum (copyWithin m) s (h.array r).values = (s.add δ, vs')) :
    ∃ δ v', Copies h s [.array r] δ [v'] ∧
      ∀ m, n + 1 ≤ m → copyWithin m s (.array r) = (s.add δ, v') := by
  obtain ⟨δ, vs', hc, hm⟩ := hc
  let a := ((h.array r).mapAccum (copyWithin n) s).2
  have hvs : mapAccum (copyWithin n) s (h.array r).values = (s.add δ, vs') := hm n (Nat.le_refl n)
  have hfst : ((h.array r).mapAccum (copyWithin n) s).1 = s.add δ := by
    rw [OrderedArray.mapAccum_fst, hvs]
  have hvalues : a.values = vs' := by
    rw [OrderedArray.values_mapAccum, hvs]
  have hmirrors : (h.array r).Mirrors (s.Mirrors δ) a := by
    refine OrderedArray.mirrors_mapAccum ?_
    rw [hvs]
    exact hc.values
  subst hvalues
  refine ⟨_, _, hc.array hmirrors, fun m hle => ?_⟩
  obtain ⟨m, rfl⟩ := Nat.exists_eq_add_one.2 (Nat.lt_of_lt_of_le (Nat.succ_pos n) hle)
  have hacc : (s.heap.array r).mapAccum (copyWithin m) s = (s.add δ, a) := by
    rw [hs.array_eq r hr, ← hfst]
    exact OrderedArray.mapAccum_congr ((hm m (Nat.le_of_succ_le_succ hle)).trans hvs.symm)
  rw [copyWithin_array, hacc, Copying.add_append]
  simp [Copying.add, allocArray, add, Addition.objectPairs]

theorem exists_copies_object {n : Nat} {r : ObjectRef} (hs : s.Continues h)
    (hr : r.index < h.objects.size) (hnew : s.copies.lookup r = none)
    (hc : ∃ δ vs', Copies h (s.enter r) (h.object r).values δ vs' ∧
      ∀ m, n ≤ m → mapAccum (copyWithin m) (s.enter r) (h.object r).values =
        ((s.enter r).add δ, vs')) :
    ∃ δ v', Copies h s [.object r] δ [v'] ∧
      ∀ m, n + 1 ≤ m → copyWithin m s (.object r) = (s.add δ, v') := by
  obtain ⟨δ, vs', hc, hm⟩ := hc
  let o := ((h.object r).mapAccumValues (copyWithin n) (s.enter r)).2
  have hvs : mapAccum (copyWithin n) (s.enter r) (h.object r).values =
      ((s.enter r).add δ, vs') := hm n (Nat.le_refl n)
  have hfst : ((h.object r).mapAccumValues (copyWithin n) (s.enter r)).1 = (s.enter r).add δ := by
    rw [Object.mapAccumValues_fst, hvs]
  have hvalues : o.values = vs' := by
    rw [Object.values_mapAccumValues, hvs]
  have hmirrors : (h.object r).Mirrors ((s.enter r).Mirrors δ) o := by
    refine Object.mirrors_mapAccumValues ?_
    rw [hvs]
    exact hc.values
  subst hvalues
  refine ⟨_, _, hc.object hmirrors, fun m hle => ?_⟩
  obtain ⟨m, rfl⟩ := Nat.exists_eq_add_one.2 (Nat.lt_of_lt_of_le (Nat.succ_pos n) hle)
  have hacc : (s.heap.object r).mapAccumValues (copyWithin m) (s.enter r) =
      ((s.enter r).add δ, o) := by
    rw [hs.object_eq r hr, ← hfst]
    exact Object.mapAccumValues_congr ((hm m (Nat.le_of_succ_le_succ hle)).trans hvs.symm)
  rw [copyWithin_object_of_none hnew, hacc]
  exact congrArg (·, _) (Copying.setObject_add_enter s r δ o)

/-- A value is copied through as many containers as can nest below it, and no bound above that
makes a difference. -/
theorem exists_copies_of_fuel {n : Nat} {path : List ArrayRef} {v : Val} (hs : s.Continues h)
    (hv : h.IsCopyable v) (hp : h.IsPath path v) (hn : s.fuel h path ≤ n) :
    ∃ δ v', Copies h s [v] δ [v'] ∧ ∀ m, n ≤ m → copyWithin m s v = (s.add δ, v') := by
  induction n generalizing s path v with
  | zero => exact absurd hn (Nat.not_succ_le_zero _)
  | succ n ih =>
    have hcontents (w : Val) (hw : w ∈ h.contents v) : h.IsCopyable w := hv.of_mem_contents hw
    cases v with
    | array r =>
      refine exists_copies_array hs (hv.has _ .refl) ?_
      refine exists_copies_of_forall hcontents (fun t w ht hk hw => ?_) hs (Nat.le_refl _)
      have hpath := hp.cons hv hw
      exact ih ht (hcontents w hw) hpath
        (Nat.le_of_lt_succ (Nat.lt_of_lt_of_le (Copying.fuel_cons_lt hpath.length_le hk) hn))
    | object r =>
      cases hr : s.copies.lookup r with
      | some r' =>
        have hm : (r, r') ∈ (s.add ∅).copies := by
          rw [Copying.add_empty]
          exact (OrderedMap.lookup_eq_some_iff_mem hs.nodup).1 hr
        exact exists_copies_of_mirrors hs (.object hm) rfl fun _ => copyWithin_object_of_some hr
      | none =>
        have hnew : r ∉ s.copies.map Prod.fst := OrderedMap.lookup_eq_none_iff_notMem.1 hr
        have hs' := hs.enter (hv.has _ .refl) hnew
        refine exists_copies_object hs (hv.has _ .refl) hr ?_
        refine exists_copies_of_forall hcontents (fun t w ht hk hw => ?_) hs' (Nat.le_refl _)
        exact ih ht (hcontents w hw) (isPath_nil h w)
          (Nat.le_of_lt_succ (Nat.lt_of_lt_of_le (Copying.fuel_nil_lt hs'.length_le hk) hn))
    | _ => exact exists_copies_of_mirrors hs (.plain rfl rfl) rfl fun _ => rfl

end ObjectModel.Heap
