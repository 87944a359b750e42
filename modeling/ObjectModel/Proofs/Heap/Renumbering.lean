import ObjectModel.Proofs.Heap.DeepCopy
/-!
# Copies made in different heaps

The same values may be copied into two heaps in which different numbers are taken. Both runs meet
the same containers of a heap that the two have in common, so they allocate in step, and pairing the
allocations gives a one-to-one correspondence: the copies are equal up to the numbers of what is
new. `Paired` is what one visit preserves, `exists_lockstep_copyWithin` one run of the recursion, and
`Paired.combine` puts two growths together that happen in one order here and in the other there.
-/

namespace ObjectModel

/-- Whether a list has every number from one up to another, the latter excluded, exactly once. -/
structure Numbers (lo hi : Nat) (l : List Nat) : Prop where
  nodup : l.Nodup
  mem_iff : ∀ i, i ∈ l ↔ lo ≤ i ∧ i < hi

namespace Numbers

variable {lo mid hi : Nat} {l l' : List Nat}

theorem nil (n : Nat) : Numbers n n [] :=
  ⟨List.nodup_nil, fun i => by simp⟩

theorem cons (h : Numbers lo hi l) (hle : lo ≤ hi) : Numbers lo (hi + 1) (hi :: l) where
  nodup := List.nodup_cons.2 ⟨fun hm => Nat.lt_irrefl _ ((h.mem_iff hi).1 hm).2, h.nodup⟩
  mem_iff i := by
    rw [List.mem_cons, h.mem_iff]
    omega

theorem append (h : Numbers lo mid l) (h' : Numbers mid hi l') (hlo : lo ≤ mid) (hhi : mid ≤ hi) :
    Numbers lo hi (l ++ l') where
  nodup := by
    refine List.nodup_append.2 ⟨h.nodup, h'.nodup, ?_⟩
    rintro i hi _ hi' rfl
    have hlt := ((h.mem_iff i).1 hi).2
    exact Nat.lt_irrefl i (Nat.lt_of_lt_of_le hlt ((h'.mem_iff i).1 hi').1)
  mem_iff i := by
    rw [List.mem_append, h.mem_iff, h'.mem_iff]
    omega

theorem of_perm (h : Numbers lo hi l) (hp : l.Perm l') : Numbers lo hi l' where
  nodup := hp.nodup_iff.1 h.nodup
  mem_iff i := hp.mem_iff.symm.trans (h.mem_iff i)

end Numbers

/-- Handles of two heaps that stand for one another. -/
structure Pairing where
  arrays : List (ArrayRef × ArrayRef) := []
  objects : List (ObjectRef × ObjectRef) := []

namespace Pairing

instance : Append Pairing := ⟨fun π ρ => ⟨π.arrays ++ ρ.arrays, π.objects ++ ρ.objects⟩⟩

/-- Whether every pair of one pairing is in another. -/
structure Sub (π ρ : Pairing) : Prop where
  arrays : π.arrays ⊆ ρ.arrays
  objects : π.objects ⊆ ρ.objects

variable {π ρ σ : Pairing}

theorem Sub.refl (π : Pairing) : π.Sub π := ⟨List.Subset.refl _, List.Subset.refl _⟩

theorem Sub.trans (h : π.Sub ρ) (h' : ρ.Sub σ) : π.Sub σ :=
  ⟨List.Subset.trans h.arrays h'.arrays, List.Subset.trans h.objects h'.objects⟩

theorem sub_append_left (π ρ : Pairing) : π.Sub (π ++ ρ) :=
  ⟨List.subset_append_left .., List.subset_append_left ..⟩

theorem sub_append_right (π ρ : Pairing) : ρ.Sub (π ++ ρ) :=
  ⟨List.subset_append_right .., List.subset_append_right ..⟩

def withArray (π : Pairing) (r r' : ArrayRef) : Pairing :=
  { π with arrays := (r, r') :: π.arrays }

theorem sub_withArray (π : Pairing) (r r' : ArrayRef) : π.Sub (π.withArray r r') :=
  ⟨List.subset_cons_self _ _, List.Subset.refl _⟩

def withObject (π : Pairing) (r r' : ObjectRef) : Pairing :=
  { π with objects := (r, r') :: π.objects }

theorem sub_withObject (π : Pairing) (r r' : ObjectRef) : π.Sub (π.withObject r r') :=
  ⟨List.Subset.refl _, List.subset_cons_self _ _⟩

end Pairing

/-- Whether two values are equal up to the numbers of new containers: they are paired handles, or
the same value, which is no handle or was in the heap `h` before. -/
def Val.SameUpTo (h : Heap) (π : Pairing) (v w : Val) : Prop :=
  v.Mirrors π.arrays π.objects w ∨ v = w ∧ h.Has v

theorem Val.SameUpTo.mono {h : Heap} {π ρ : Pairing} {v w : Val} (hs : π.Sub ρ)
    (hv : v.SameUpTo h π w) : v.SameUpTo h ρ w :=
  hv.imp_left (Mirrors.mono hs.arrays hs.objects)

namespace Heap

variable {h k k' l l' : Heap} {π ρ : Pairing}

/-- Whether all containers and reference cells of a heap are in another as they were, and no cell or
string buffer is new. -/
structure IsPrefixOf (h k : Heap) : Prop where
  arrays_le : h.arrays.size ≤ k.arrays.size
  objects_le : h.objects.size ≤ k.objects.size
  array_eq : ∀ r, r.index < h.arrays.size → k.array r = h.array r
  object_eq : ∀ r, r.index < h.objects.size → k.object r = h.object r
  cells_eq : k.cells = h.cells
  nextBuffer_eq : k.nextBuffer = h.nextBuffer

namespace IsPrefixOf

theorem refl (h : Heap) : h.IsPrefixOf h :=
  ⟨Nat.le_refl _, Nat.le_refl _, fun _ _ => rfl, fun _ _ => rfl, rfl, rfl⟩

theorem trans (hk : h.IsPrefixOf k) (hl : k.IsPrefixOf l) : h.IsPrefixOf l where
  arrays_le := Nat.le_trans hk.arrays_le hl.arrays_le
  objects_le := Nat.le_trans hk.objects_le hl.objects_le
  array_eq r hr := (hl.array_eq r (Nat.lt_of_lt_of_le hr hk.arrays_le)).trans (hk.array_eq r hr)
  object_eq r hr :=
    (hl.object_eq r (Nat.lt_of_lt_of_le hr hk.objects_le)).trans (hk.object_eq r hr)
  cells_eq := hl.cells_eq.trans hk.cells_eq
  nextBuffer_eq := hl.nextBuffer_eq.trans hk.nextBuffer_eq

theorem allocArray (hk : h.IsPrefixOf k) (a : OrderedArray Val) :
    h.IsPrefixOf (k.allocArray a).1 where
  arrays_le := by
    rw [Heap.allocArray, Array.size_push]
    exact Nat.le_succ_of_le hk.arrays_le
  objects_le := hk.objects_le
  array_eq r hr := by
    rw [← hk.array_eq r hr, array, array, Heap.allocArray,
      Array.getElem?_push_lt (Nat.lt_of_lt_of_le hr hk.arrays_le), ← Array.getElem?_eq_getElem]
  object_eq := hk.object_eq
  cells_eq := hk.cells_eq
  nextBuffer_eq := hk.nextBuffer_eq

theorem allocObject (hk : h.IsPrefixOf k) (o : Object) : h.IsPrefixOf (k.allocObject o).1 where
  arrays_le := hk.arrays_le
  objects_le := by
    rw [Heap.allocObject, Array.size_push]
    exact Nat.le_succ_of_le hk.objects_le
  array_eq := hk.array_eq
  object_eq r hr := by
    rw [← hk.object_eq r hr, object, object, Heap.allocObject,
      Array.getElem?_push_lt (Nat.lt_of_lt_of_le hr hk.objects_le), ← Array.getElem?_eq_getElem]
  cells_eq := hk.cells_eq
  nextBuffer_eq := hk.nextBuffer_eq

/-- Replacing a newer object leaves what was there before. -/
theorem setObject (hk : h.IsPrefixOf k) {r : ObjectRef} (hr : h.objects.size ≤ r.index)
    (o : Object) : h.IsPrefixOf (k.setObject r o) where
  arrays_le := hk.arrays_le
  objects_le := by
    rw [Heap.setObject, Array.size_setIfInBounds]
    exact hk.objects_le
  array_eq := hk.array_eq
  object_eq r' hr' := by
    rw [object_setObject_of_ne, hk.object_eq r' hr']
    rintro rfl
    exact Nat.lt_irrefl _ (Nat.lt_of_lt_of_le hr' hr)
  cells_eq := hk.cells_eq
  nextBuffer_eq := hk.nextBuffer_eq

theorem contents_eq (hk : h.IsPrefixOf k) {v : Val} (hv : h.Has v) :
    k.contents v = h.contents v := by
  cases v with
  | array r => rw [contents, contents, hk.array_eq r hv]
  | object r => rw [contents, contents, hk.object_eq r hv]
  | _ => rfl

/-- What can be copied can be copied later as well. -/
theorem isCopyable (hk : h.IsPrefixOf k) {v : Val} (hv : h.IsCopyable v) : k.IsCopyable v := by
  have hreaches {u w : Val} (hu : h.Reaches v u) (hr : k.Reaches u w) : h.Reaches v w := by
    induction hr with
    | refl => exact hu
    | tail _ hw ih =>
      rw [hk.contents_eq (hv.has _ ih)] at hw
      exact ih.tail hw
  refine ⟨fun w hw => ?_, fun r hr hn => ?_⟩
  · have hhas := hv.has w (hreaches .refl hw)
    cases w with
    | array r => exact Nat.lt_of_lt_of_le hhas hk.arrays_le
    | object r => exact Nat.lt_of_lt_of_le hhas hk.objects_le
    | _ => trivial
  · have hr' := hreaches .refl hr
    refine hv.acyclic r hr' ?_
    have hnests {r' : ArrayRef} (hn : Relation.TransGen k.Nests r r') :
        Relation.TransGen h.Nests r r' ∧ h.Reaches v (.array r') := by
      induction hn with
      | single hn =>
        rw [Nests, hk.array_eq r (hv.has _ hr')] at hn
        exact ⟨.single hn, hr'.tail hn⟩
      | tail _ hn ih =>
        rw [Nests, hk.array_eq _ (hv.has _ ih.2)] at hn
        exact ⟨ih.1.tail hn, ih.2.tail hn⟩
    exact (hnests hn).1

end IsPrefixOf

/-- Whether two heaps `k` and `k'` have grown to `l` and `l'` in step: the new containers are paired
one to one, and paired ones hold values that are equal up to the numbers of new containers, where
those of the heap `h` are old. -/
structure Paired (h k k' : Heap) (π : Pairing) (l l' : Heap) : Prop where
  left : k.IsPrefixOf l
  right : k'.IsPrefixOf l'
  arrays_left : Numbers k.arrays.size l.arrays.size (π.arrays.map (·.1.index))
  arrays_right : Numbers k'.arrays.size l'.arrays.size (π.arrays.map (·.2.index))
  objects_left : Numbers k.objects.size l.objects.size (π.objects.map (·.1.index))
  objects_right : Numbers k'.objects.size l'.objects.size (π.objects.map (·.2.index))
  array : ∀ p ∈ π.arrays, (l.array p.1).Mirrors (Val.SameUpTo h π) (l'.array p.2)
  object : ∀ p ∈ π.objects, (l.object p.1).Mirrors (Val.SameUpTo h π) (l'.object p.2)

namespace Paired

theorem refl (h k k' : Heap) : Paired h k k' {} k k' :=
  ⟨.refl k, .refl k', .nil _, .nil _, .nil _, .nil _, nofun, nofun⟩

variable {a a' : OrderedArray Val} {o o' : Object} {r r' : ObjectRef}

theorem lt_of_mem_arrays (hp : Paired h k k' π l l') {p : ArrayRef × ArrayRef}
    (hm : p ∈ π.arrays) : (k.arrays.size ≤ p.1.index ∧ p.1.index < l.arrays.size) ∧
      k'.arrays.size ≤ p.2.index ∧ p.2.index < l'.arrays.size :=
  ⟨(hp.arrays_left.mem_iff _).1 (List.mem_map.2 ⟨p, hm, rfl⟩),
    (hp.arrays_right.mem_iff _).1 (List.mem_map.2 ⟨p, hm, rfl⟩)⟩

theorem lt_of_mem_objects (hp : Paired h k k' π l l') {p : ObjectRef × ObjectRef}
    (hm : p ∈ π.objects) : (k.objects.size ≤ p.1.index ∧ p.1.index < l.objects.size) ∧
      k'.objects.size ≤ p.2.index ∧ p.2.index < l'.objects.size :=
  ⟨(hp.objects_left.mem_iff _).1 (List.mem_map.2 ⟨p, hm, rfl⟩),
    (hp.objects_right.mem_iff _).1 (List.mem_map.2 ⟨p, hm, rfl⟩)⟩

/-- A pair is determined by either of its handles. -/
theorem eq_iff_of_mem_objects (hp : Paired h k k' π l l') {p q : ObjectRef × ObjectRef}
    (hm : p ∈ π.objects) (hq : q ∈ π.objects) : p.1 = q.1 ↔ p.2 = q.2 := by
  constructor
  · intro he
    rw [List.inj_on_of_nodup_map hp.objects_left.nodup hm hq (congrArg ObjectRef.index he)]
  · intro he
    rw [List.inj_on_of_nodup_map hp.objects_right.nodup hm hq (congrArg ObjectRef.index he)]

/-- Both heaps allocate an array. -/
theorem allocArray (hp : Paired h k k' π l l') (ha : a.Mirrors (Val.SameUpTo h π) a') :
    Paired h k k' (π.withArray ⟨l.arrays.size⟩ ⟨l'.arrays.size⟩)
      (l.allocArray a).1 (l'.allocArray a').1 := by
  have hs := π.sub_withArray ⟨l.arrays.size⟩ ⟨l'.arrays.size⟩
  have hnew (g : Heap) (b : OrderedArray Val) : (g.allocArray b).1.array ⟨g.arrays.size⟩ = b := by
    simp [Heap.allocArray, Heap.array]
  have hold (g : Heap) (b : OrderedArray Val) (r : ArrayRef) (hr : r.index < g.arrays.size) :
      (g.allocArray b).1.array r = g.array r :=
    ((IsPrefixOf.refl g).allocArray b).array_eq r hr
  have hsize (g : Heap) (b : OrderedArray Val) :
      (g.allocArray b).1.arrays.size = g.arrays.size + 1 := Array.size_push _
  refine ⟨hp.left.allocArray a, hp.right.allocArray a', ?_, ?_, hp.objects_left,
    hp.objects_right, ?_, ?_⟩
  · rw [hsize]
    exact hp.arrays_left.cons hp.left.arrays_le
  · rw [hsize]
    exact hp.arrays_right.cons hp.right.arrays_le
  · refine List.forall_mem_cons.2 ⟨?_, fun p hm => ?_⟩
    · rw [hnew, hnew]
      exact ha.mono fun _ _ => .mono hs
    · obtain ⟨⟨-, hlt⟩, -, hlt'⟩ := hp.lt_of_mem_arrays hm
      rw [hold l a p.1 hlt, hold l' a' p.2 hlt']
      exact (hp.array p hm).mono fun _ _ => .mono hs
  · exact fun p hm => (hp.object p hm).mono fun _ _ => .mono hs

/-- Both heaps allocate an object. -/
theorem allocObject (hp : Paired h k k' π l l') (ho : o.Mirrors (Val.SameUpTo h π) o') :
    Paired h k k' (π.withObject ⟨l.objects.size⟩ ⟨l'.objects.size⟩)
      (l.allocObject o).1 (l'.allocObject o').1 := by
  have hs := π.sub_withObject ⟨l.objects.size⟩ ⟨l'.objects.size⟩
  have hnew (g : Heap) (b : Object) : (g.allocObject b).1.object ⟨g.objects.size⟩ = b := by
    simp [Heap.allocObject, Heap.object]
  have hold (g : Heap) (b : Object) (r : ObjectRef) (hr : r.index < g.objects.size) :
      (g.allocObject b).1.object r = g.object r :=
    ((IsPrefixOf.refl g).allocObject b).object_eq r hr
  have hsize (g : Heap) (b : Object) :
      (g.allocObject b).1.objects.size = g.objects.size + 1 := Array.size_push _
  refine ⟨hp.left.allocObject o, hp.right.allocObject o', hp.arrays_left, hp.arrays_right,
    ?_, ?_, ?_, ?_⟩
  · rw [hsize]
    exact hp.objects_left.cons hp.left.objects_le
  · rw [hsize]
    exact hp.objects_right.cons hp.right.objects_le
  · exact fun p hm => (hp.array p hm).mono fun _ _ => .mono hs
  · refine List.forall_mem_cons.2 ⟨?_, fun p hm => ?_⟩
    · rw [hnew, hnew]
      exact ho.mono fun _ _ => .mono hs
    · obtain ⟨⟨-, hlt⟩, -, hlt'⟩ := hp.lt_of_mem_objects hm
      rw [hold l o p.1 hlt, hold l' o' p.2 hlt']
      exact (hp.object p hm).mono fun _ _ => .mono hs

/-- Both heaps fill in an object of a pair. -/
theorem setObject (hp : Paired h k k' π l l') (hm : (r, r') ∈ π.objects)
    (ho : o.Mirrors (Val.SameUpTo h π) o') :
    Paired h k k' π (l.setObject r o) (l'.setObject r' o') := by
  obtain ⟨⟨hle, hlt⟩, hle', hlt'⟩ := hp.lt_of_mem_objects hm
  have hsize (g : Heap) (r : ObjectRef) (b : Object) :
      (g.setObject r b).objects.size = g.objects.size := Array.size_setIfInBounds
  refine ⟨hp.left.setObject hle o, hp.right.setObject hle' o', hp.arrays_left, hp.arrays_right,
    ?_, ?_, hp.array, fun p hpm => ?_⟩
  · rw [hsize]
    exact hp.objects_left
  · rw [hsize]
    exact hp.objects_right
  · by_cases he : p.1 = r
    · have he' := (hp.eq_iff_of_mem_objects hpm hm).1 he
      rw [he, he', object_setObject_self _ hlt, object_setObject_self _ hlt']
      exact ho
    · have he' : p.2 ≠ r' := fun he' => he ((hp.eq_iff_of_mem_objects hpm hm).2 he')
      rw [object_setObject_of_ne _ he, object_setObject_of_ne _ he']
      exact hp.object p hpm

/-- Two growths in step, of which the second comes after the first on the left and before it on the
right, make one growth in step. -/
theorem combine {m' : Heap} (hp : Paired h h m' π k l') (hq : Paired h k h ρ l m') :
    Paired h h h (π ++ ρ) l l' := by
  have hlow := Pairing.sub_append_left π ρ
  have hhigh := Pairing.sub_append_right π ρ
  refine ⟨hp.left.trans hq.left, hq.right.trans hp.right, ?_, ?_, ?_, ?_, ?_, ?_⟩
  · rw [show (π ++ ρ).arrays = π.arrays ++ ρ.arrays from rfl, List.map_append]
    exact hp.arrays_left.append hq.arrays_left hp.left.arrays_le hq.left.arrays_le
  · rw [show (π ++ ρ).arrays = π.arrays ++ ρ.arrays from rfl, List.map_append]
    exact (hq.arrays_right.append hp.arrays_right hq.right.arrays_le hp.right.arrays_le).of_perm
      List.perm_append_comm
  · rw [show (π ++ ρ).objects = π.objects ++ ρ.objects from rfl, List.map_append]
    exact hp.objects_left.append hq.objects_left hp.left.objects_le hq.left.objects_le
  · rw [show (π ++ ρ).objects = π.objects ++ ρ.objects from rfl, List.map_append]
    exact (hq.objects_right.append hp.objects_right hq.right.objects_le
      hp.right.objects_le).of_perm List.perm_append_comm
  · intro p hm
    obtain hm | hm := List.mem_append.1 hm
    · rw [hq.left.array_eq _ (hp.lt_of_mem_arrays hm).1.2]
      exact (hp.array p hm).mono fun _ _ => .mono hlow
    · rw [hp.right.array_eq _ (hq.lt_of_mem_arrays hm).2.2]
      exact (hq.array p hm).mono fun _ _ => .mono hhigh
  · intro p hm
    obtain hm | hm := List.mem_append.1 hm
    · rw [hq.left.object_eq _ (hp.lt_of_mem_objects hm).1.2]
      exact (hp.object p hm).mono fun _ _ => .mono hlow
    · rw [hp.right.object_eq _ (hq.lt_of_mem_objects hm).2.2]
      exact (hq.object p hm).mono fun _ _ => .mono hhigh

end Paired

/-- A list is visited in step from two states if each of its elements is, in any later states. -/
theorem exists_lockstep_mapAccum {σ α : Type} {I : Pairing → σ → σ → Prop} {f : σ → α → σ × Val}
    {l : List α} {s s' : σ}
    (hf : ∀ a ∈ l, ∀ π s s', I π s s' → ∃ ρ, π.Sub ρ ∧ I ρ (f s a).1 (f s' a).1 ∧
      (f s a).2.SameUpTo h ρ (f s' a).2) (hs : I π s s') :
    ∃ ρ, π.Sub ρ ∧ I ρ (mapAccum f s l).1 (mapAccum f s' l).1 ∧
      List.Forall₂ (Val.SameUpTo h ρ) (mapAccum f s l).2 (mapAccum f s' l).2 := by
  induction l generalizing π s s' with
  | nil => exact ⟨π, .refl π, hs, .nil⟩
  | cons a l ih =>
    obtain ⟨hfa, hfl⟩ := List.forall_mem_cons.1 hf
    obtain ⟨ρ, hπρ, hs₁, hv⟩ := hfa π s s' hs
    obtain ⟨τ, hρτ, hs₂, hvs⟩ := ih hfl hs₁
    exact ⟨τ, hπρ.trans hρτ, hs₂, .cons (hv.mono hρτ) hvs⟩

/-- Whether two states of a copy have grown in step, and know copies of the same objects, which are
paired. -/
structure Lockstep (h k k' : Heap) (π : Pairing) (s s' : Copying) : Prop where
  paired : Paired h k k' π s.heap s'.heap
  copies : List.Forall₂ (fun e e' => e.1 = e'.1 ∧ (e.2, e'.2) ∈ π.objects) s.copies s'.copies

namespace Lockstep

variable {s s' : Copying}

theorem start (hp : Paired h k k' π l l') : Lockstep h k k' π { heap := l } { heap := l' } :=
  ⟨hp, .nil⟩

/-- Both copies enter an object. -/
theorem enter (hl : Lockstep h k k' π s s') {r : ObjectRef}
    (hr : s'.heap.object r = s.heap.object r) :
    Lockstep h k k' (π.withObject ⟨s.heap.objects.size⟩ ⟨s'.heap.objects.size⟩)
      (s.enter r) (s'.enter r) where
  paired := by
    refine hl.paired.allocObject ⟨?_, .nil⟩
    rw [hr]
  copies := by
    refine .cons ⟨rfl, List.mem_cons_self⟩ ?_
    exact hl.copies.imp fun _ _ he => ⟨he.1, List.mem_cons_of_mem _ he.2⟩

end Lockstep

variable {s s' : Copying} {v : Val} {n : Nat}

/-- Both copies take an array once its elements are copied. -/
theorem exists_lockstep_array {r : ArrayRef} (hr : s.heap.array r = h.array r)
    (hr' : s'.heap.array r = h.array r)
    (hc : ∃ ρ, π.Sub ρ ∧
      Lockstep h k k' ρ (mapAccum (copyWithin n) s (h.array r).values).1
        (mapAccum (copyWithin n) s' (h.array r).values).1 ∧
      List.Forall₂ (Val.SameUpTo h ρ) (mapAccum (copyWithin n) s (h.array r).values).2
        (mapAccum (copyWithin n) s' (h.array r).values).2) :
    ∃ ρ, π.Sub ρ ∧ Lockstep h k k' ρ (copyWithin (n + 1) s (.array r)).1
        (copyWithin (n + 1) s' (.array r)).1 ∧
      (copyWithin (n + 1) s (.array r)).2.SameUpTo h ρ (copyWithin (n + 1) s' (.array r)).2 := by
  obtain ⟨ρ, hπρ, hl, hvs⟩ := hc
  rw [← OrderedArray.mapAccum_fst, ← OrderedArray.mapAccum_fst] at hl
  rw [copyWithin_array, copyWithin_array, hr, hr']
  exact ⟨_, hπρ.trans (ρ.sub_withArray _ _),
    ⟨hl.paired.allocArray (OrderedArray.mirrors_mapAccum_mapAccum hvs), hl.copies⟩,
    .inl (.array List.mem_cons_self)⟩

/-- Both copies take an object that they have not met before once its values are copied. -/
theorem exists_lockstep_object {r : ObjectRef} (hr : s.heap.object r = h.object r)
    (hr' : s'.heap.object r = h.object r) (hnew : s.copies.lookup r = none)
    (hnew' : s'.copies.lookup r = none)
    (hc : ∃ ρ, (π.withObject ⟨s.heap.objects.size⟩ ⟨s'.heap.objects.size⟩).Sub ρ ∧
      Lockstep h k k' ρ (mapAccum (copyWithin n) (s.enter r) (h.object r).values).1
        (mapAccum (copyWithin n) (s'.enter r) (h.object r).values).1 ∧
      List.Forall₂ (Val.SameUpTo h ρ) (mapAccum (copyWithin n) (s.enter r) (h.object r).values).2
        (mapAccum (copyWithin n) (s'.enter r) (h.object r).values).2) :
    ∃ ρ, π.Sub ρ ∧ Lockstep h k k' ρ (copyWithin (n + 1) s (.object r)).1
        (copyWithin (n + 1) s' (.object r)).1 ∧
      (copyWithin (n + 1) s (.object r)).2.SameUpTo h ρ (copyWithin (n + 1) s' (.object r)).2 := by
  obtain ⟨ρ, hρ, hl, hvs⟩ := hc
  have hm := hρ.objects List.mem_cons_self
  rw [← Object.mapAccumValues_fst, ← Object.mapAccumValues_fst] at hl
  rw [copyWithin_object_of_none hnew, copyWithin_object_of_none hnew', hr, hr']
  exact ⟨ρ, (π.sub_withObject _ _).trans hρ,
    ⟨hl.paired.setObject hm (Object.mirrors_mapAccumValues_mapAccumValues hvs), hl.copies⟩,
    .inl (.object hm)⟩

/-- Copying a value that two heaps have in common leads to results that are equal up to the numbers
of new containers. How deep the copies go does not matter as long as it is the same. -/
theorem exists_lockstep_copyWithin (hk : h.IsPrefixOf k) (hk' : h.IsPrefixOf k') (n : Nat)
    (hl : Lockstep h k k' π s s') (hv : ∀ w, h.Reaches v w → h.Has w) :
    ∃ ρ, π.Sub ρ ∧ Lockstep h k k' ρ (copyWithin n s v).1 (copyWithin n s' v).1 ∧
      (copyWithin n s v).2.SameUpTo h ρ (copyWithin n s' v).2 := by
  induction n generalizing π s s' v with
  | zero => exact ⟨π, .refl π, hl, .inr ⟨rfl, hv v .refl⟩⟩
  | succ n ih =>
    have hbefore := hk.trans hl.paired.left
    have hbefore' := hk'.trans hl.paired.right
    have hlist {π : Pairing} {s s' : Copying} (hl : Lockstep h k k' π s s') :=
      exists_lockstep_mapAccum (h := h) (f := copyWithin n) (l := h.contents v)
        (fun w hw π s s' hl => ih hl fun u hu => hv u (.of_mem_contents hw hu)) hl
    cases v with
    | array r =>
      have hr : r.index < h.arrays.size := hv _ .refl
      exact exists_lockstep_array (hbefore.array_eq r hr) (hbefore'.array_eq r hr) (hlist hl)
    | object r =>
      have hr : r.index < h.objects.size := hv _ .refl
      have ho := hbefore.object_eq r hr
      have ho' := hbefore'.object_eq r hr
      have hrel := OrderedMap.rel_lookup (R := fun o o' => (o, o') ∈ π.objects) hl.copies r
      cases hs : s.copies.lookup r with
      | some o =>
        rw [hs] at hrel
        obtain ⟨o', hs', hm⟩ : ∃ o', s'.copies.lookup r = some o' ∧ (o, o') ∈ π.objects := by
          generalize s'.copies.lookup r = o? at hrel
          cases hrel with
          | some hm => exact ⟨_, rfl, hm⟩
        rw [copyWithin_object_of_some hs, copyWithin_object_of_some hs']
        exact ⟨π, .refl π, hl, .inl (.object hm)⟩
      | none =>
        rw [hs] at hrel
        have hs' : s'.copies.lookup r = none := by
          generalize s'.copies.lookup r = o? at hrel
          cases hrel
          rfl
        exact exists_lockstep_object ho ho' hs hs' (hlist (hl.enter (ho'.trans ho.symm)))
    | _ => exact ⟨π, .refl π, hl, .inl (.plain rfl rfl)⟩

/-- The bounds on the depth of the two copies differ, but a value that can be copied is copied
before it comes to either. -/
theorem exists_paired_deepCopy (hk : h.IsPrefixOf k) (hk' : h.IsPrefixOf k')
    (hp : Paired h k k' π l l') (hv : h.IsCopyable v) :
    ∃ ρ, π.Sub ρ ∧ Paired h k k' ρ (l.deepCopy v).1 (l'.deepCopy v).1 ∧
      (l.deepCopy v).2.SameUpTo h ρ (l'.deepCopy v).2 := by
  have hdepth := copyWithin_of_copyDepth_le ((hk.trans hp.left).isCopyable hv)
    (Nat.le_max_left l.copyDepth l'.copyDepth)
  have hdepth' := copyWithin_of_copyDepth_le ((hk'.trans hp.right).isCopyable hv)
    (Nat.le_max_right l.copyDepth l'.copyDepth)
  obtain ⟨ρ, hπρ, hl, hw⟩ :=
    exists_lockstep_copyWithin hk hk' (max l.copyDepth l'.copyDepth) (.start hp) hv.has
  rw [hdepth, hdepth'] at hl hw
  exact ⟨ρ, hπρ, hl.paired, hw⟩

end Heap

end ObjectModel
