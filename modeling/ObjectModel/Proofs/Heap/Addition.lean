import ObjectModel.Proofs.Heap.Mirroring
/-!
# Additions to the heap

An `Addition` is a list of new arrays and one of new objects in the order of their numbers, each
next to the handle of the container it stands for. Adding it to a heap leaves what is there as it
is, and tells which new handle belongs to which old one.
-/

namespace ObjectModel

universe u v

/-- Handles next to those that containers get which are allocated for them in order. -/
def numbered {ρ : Type u} {ω : Type v} (handle : Nat → ρ) (base : Nat) (l : List (ρ × ω)) :
    List (ρ × ρ) :=
  (l.zipIdx base).map fun (e, i) => (e.1, handle i)

section Numbered

variable {ρ : Type u} {ω : Type v} {handle : Nat → ρ} {base : Nat}

@[simp] theorem numbered_nil : numbered handle base ([] : List (ρ × ω)) = [] := rfl

theorem numbered_cons (e : ρ × ω) (l : List (ρ × ω)) :
    numbered handle base (e :: l) = (e.1, handle base) :: numbered handle (base + 1) l := rfl

theorem numbered_append (l l' : List (ρ × ω)) :
    numbered handle base (l ++ l') =
      numbered handle base l ++ numbered handle (base + l.length) l' := by
  rw [numbered, List.zipIdx_append, List.map_append]
  rfl

theorem map_fst_numbered (l : List (ρ × ω)) :
    (numbered handle base l).map Prod.fst = l.map Prod.fst := by
  induction l generalizing base with
  | nil => rfl
  | cons e l ih => rw [numbered_cons, List.map_cons, ih, List.map_cons]

theorem map_snd_numbered (l : List (ρ × ω)) :
    (numbered handle base l).map Prod.snd = (List.range' base l.length).map handle := by
  induction l generalizing base with
  | nil => rfl
  | cons e l ih =>
    rw [numbered_cons, List.map_cons, ih, List.length_cons, List.range'_succ, List.map_cons]

theorem exists_of_mem_numbered {r r' : ρ} {l : List (ρ × ω)}
    (h : (r, r') ∈ numbered handle base l) :
    ∃ i x, l[i]? = some (r, x) ∧ r' = handle (base + i) := by
  induction l generalizing base with
  | nil => cases h
  | cons e l ih =>
    rw [numbered_cons, List.mem_cons] at h
    obtain h | h := h
    · cases h
      exact ⟨0, e.2, rfl, rfl⟩
    · obtain ⟨i, x, hi, rfl⟩ := ih h
      exact ⟨i + 1, x, hi, by rw [Nat.add_right_comm, Nat.add_assoc]⟩

end Numbered

/-- The handle that a value is, if it is one of an array. -/
def Val.arrayRef? : Val → Option ArrayRef
  | .array r => some r
  | _ => none

def arrayRefs (vs : List Val) : List ArrayRef := vs.filterMap Val.arrayRef?

theorem arrayRefs_append (vs ws : List Val) :
    arrayRefs (vs ++ ws) = arrayRefs vs ++ arrayRefs ws := List.filterMap_append ..

/-- New containers in the order of their numbers, each with the handle of the one it stands for. -/
structure Addition where
  arrays : List (ArrayRef × OrderedArray Val) := []
  objects : List (ObjectRef × Object) := []

namespace Addition

instance : EmptyCollection Addition := ⟨{}⟩

instance : Append Addition := ⟨fun δ ε => ⟨δ.arrays ++ ε.arrays, δ.objects ++ ε.objects⟩⟩

def held (δ : Addition) : List Val :=
  δ.arrays.flatMap (·.2.values) ++ δ.objects.flatMap (·.2.values)

/-- The arrays that the new ones stand for, each next to its copy. -/
def arrayPairs (δ : Addition) (h : Heap) : List (ArrayRef × ArrayRef) :=
  numbered .mk h.arrays.size δ.arrays

def objectPairs (δ : Addition) (h : Heap) : List (ObjectRef × ObjectRef) :=
  numbered .mk h.objects.size δ.objects

/-- Which values stand for which once the new containers are added to a heap. -/
def Mirrors (δ : Addition) (h : Heap) : Val → Val → Prop :=
  Val.Mirrors (δ.arrayPairs h) (δ.objectPairs h)

theorem map_fst_objectPairs (δ : Addition) (h : Heap) :
    (δ.objectPairs h).map Prod.fst = δ.objects.map Prod.fst := map_fst_numbered _

@[simp] theorem arrays_append (δ ε : Addition) : (δ ++ ε).arrays = δ.arrays ++ ε.arrays := rfl

@[simp] theorem objects_append (δ ε : Addition) : (δ ++ ε).objects = δ.objects ++ ε.objects := rfl

@[simp] theorem arrays_empty : (∅ : Addition).arrays = [] := rfl

@[simp] theorem objects_empty : (∅ : Addition).objects = [] := rfl

end Addition

namespace Heap

def add (h : Heap) (δ : Addition) : Heap :=
  { h with
    arrays := h.arrays ++ (δ.arrays.map Prod.snd).toArray
    objects := h.objects ++ (δ.objects.map Prod.snd).toArray }

variable {h : Heap} {δ ε : Addition}

@[simp] theorem add_empty (h : Heap) : h.add ∅ = h := by simp [add]

theorem add_append (h : Heap) (δ ε : Addition) : h.add (δ ++ ε) = (h.add δ).add ε := by
  simp [add]

@[simp] theorem size_arrays_add (h : Heap) (δ : Addition) :
    (h.add δ).arrays.size = h.arrays.size + δ.arrays.length := by simp [add]

@[simp] theorem size_objects_add (h : Heap) (δ : Addition) :
    (h.add δ).objects.size = h.objects.size + δ.objects.length := by simp [add]

theorem arrayPairs_append (h : Heap) (δ ε : Addition) :
    (δ ++ ε).arrayPairs h = δ.arrayPairs h ++ ε.arrayPairs (h.add δ) := by
  simp [Addition.arrayPairs, numbered_append]

theorem arrayPairs_singleton (h : Heap) (r : ArrayRef) (a : OrderedArray Val) :
    (⟨[(r, a)], []⟩ : Addition).arrayPairs h = [(r, ⟨h.arrays.size⟩)] := rfl

theorem objectPairs_append (h : Heap) (δ ε : Addition) :
    (δ ++ ε).objectPairs h = δ.objectPairs h ++ ε.objectPairs (h.add δ) := by
  simp [Addition.objectPairs, numbered_append]

theorem array_add_of_lt {r : ArrayRef} (hr : r.index < h.arrays.size) :
    (h.add δ).array r = h.array r := by
  simp [array, add, Array.getElem?_append_left hr]

theorem object_add_of_lt {r : ObjectRef} (hr : r.index < h.objects.size) :
    (h.add δ).object r = h.object r := by
  simp [object, add, Array.getElem?_append_left hr]

/-- The copy of an array is in the heap afterwards. -/
theorem exists_array_add {r r' : ArrayRef} (hr : (r, r') ∈ δ.arrayPairs h) :
    (r, (h.add δ).array r') ∈ δ.arrays ∧ h.arrays.size ≤ r'.index ∧
      r'.index < (h.add δ).arrays.size := by
  obtain ⟨i, a, hi, rfl⟩ := exists_of_mem_numbered hr
  have hlt := (List.getElem?_eq_some_iff.1 hi).1
  have ha : (h.add δ).array ⟨h.arrays.size + i⟩ = a := by
    simp [array, add, Array.getElem?_append_right, hi]
  rw [ha, size_arrays_add]
  exact ⟨List.mem_of_getElem? hi, Nat.le_add_right _ _, Nat.add_lt_add_left hlt _⟩

/-- The copy of an object is in the heap afterwards. -/
theorem exists_object_add {r r' : ObjectRef} (hr : (r, r') ∈ δ.objectPairs h) :
    (r, (h.add δ).object r') ∈ δ.objects ∧ h.objects.size ≤ r'.index ∧
      r'.index < (h.add δ).objects.size := by
  obtain ⟨i, o, hi, rfl⟩ := exists_of_mem_numbered hr
  have hlt := (List.getElem?_eq_some_iff.1 hi).1
  have ho : (h.add δ).object ⟨h.objects.size + i⟩ = o := by
    simp [object, add, Array.getElem?_append_right, hi]
  rw [ho, size_objects_add]
  exact ⟨List.mem_of_getElem? hi, Nat.le_add_right _ _, Nat.add_lt_add_left hlt _⟩

end Heap

end ObjectModel
