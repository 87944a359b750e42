import Mathlib.Data.List.Perm.Subperm
import Mathlib.Logic.Relation
import ObjectModel.Heap.Basic
/-!
# Reachability in the heap

An array leads to its elements and an object to the values of its slots. A reference cell is the end
of the road: what it holds belongs to everyone who holds the cell. `Reaches` is what can be seen
from a value in this way. Objects may lie inside themselves; an array that does so through arrays
alone has no finite copy, which is what `IsCopyable` excludes.
-/

namespace ObjectModel

def Val.isContainer (v : Val) : Bool := v.isArray || v.isObject

def Object.values (o : Object) : List Val := o.slots.entries.map (·.2.value)

namespace Heap

/-- The values that a container holds. Scalars hold none, and reference cells keep theirs. -/
def contents (h : Heap) : Val → List Val
  | .array r => (h.array r).values
  | .object r => (h.object r).values
  | _ => []

/-- Whether one value leads to another through arrays and objects. -/
def Reaches (h : Heap) : Val → Val → Prop := Relation.ReflTransGen fun v w => w ∈ h.contents v

def Nests (h : Heap) (outer inner : ArrayRef) : Prop := .array inner ∈ (h.array outer).values

/-- Whether a value is no handle, or the handle of something that is in the heap. -/
def Has (h : Heap) : Val → Prop
  | .array r => r.index < h.arrays.size
  | .object r => r.index < h.objects.size
  | _ => True

/-- The handles of all arrays and objects. -/
def handles (h : Heap) : List Val :=
  ((List.range h.arrays.size).map fun i => .array ⟨i⟩) ++
    (List.range h.objects.size).map fun i => .object ⟨i⟩

/-- Whether all that can be seen from a value is in the heap, and no array seen from it lies inside
itself unless an object or a reference cell is on the way. -/
structure IsCopyable (h : Heap) (v : Val) : Prop where
  has : ∀ w, h.Reaches v w → h.Has w
  acyclic : ∀ r, h.Reaches v (.array r) → ¬Relation.TransGen h.Nests r r

variable {h : Heap} {v w : Val}

theorem array_mem_handles {r : ArrayRef} (hr : r.index < h.arrays.size) : .array r ∈ h.handles :=
  List.mem_append_left _ (List.mem_map.2 ⟨r.index, List.mem_range.2 hr, rfl⟩)

theorem object_mem_handles {r : ObjectRef} (hr : r.index < h.objects.size) :
    .object r ∈ h.handles :=
  List.mem_append_right _ (List.mem_map.2 ⟨r.index, List.mem_range.2 hr, rfl⟩)

/-- Distinct handles are no more than there are arrays and objects. -/
theorem length_le_of_subset_handles {vs : List Val} (hn : vs.Nodup) (hs : vs ⊆ h.handles) :
    vs.length ≤ h.arrays.size + h.objects.size := by
  have hlen := (hn.subperm hs).length_le
  rwa [handles, List.length_append, List.length_map, List.length_map, List.length_range,
    List.length_range] at hlen

theorem contents_of_plain (ha : v.isArray = false) (ho : v.isObject = false) :
    h.contents v = [] := by
  cases v with
  | array r => cases ha
  | object r => cases ho
  | _ => rfl

theorem Reaches.of_mem_contents {u : Val} (hu : u ∈ h.contents v) (hw : h.Reaches u w) :
    h.Reaches v w :=
  Relation.ReflTransGen.head hu hw

/-- What is true of a value and passes from containers to what they hold is true of all that the
value leads to. -/
theorem Reaches.induction {P : Val → Prop} (hr : h.Reaches v w) (hv : P v)
    (hc : ∀ u, P u → ∀ u' ∈ h.contents u, P u') : P w := by
  induction hr with
  | refl => exact hv
  | tail _ hu ih => exact hc _ ih _ hu

theorem IsCopyable.of_mem_contents (hv : h.IsCopyable v) (hw : w ∈ h.contents v) :
    h.IsCopyable w where
  has u hu := hv.has u (.of_mem_contents hw hu)
  acyclic r hr := hv.acyclic r (.of_mem_contents hw hr)

/-- What can be seen from a value is copied if it stays within a set of values that the heap has,
and arrays have ranks that grow from an array to those in it. -/
theorem IsCopyable.of_rank {P : Val → Prop} (hv : P v) (hc : ∀ u, P u → ∀ u' ∈ h.contents u, P u')
    (hhas : ∀ u, P u → h.Has u) (rank : ArrayRef → Nat)
    (hrank : ∀ r r', h.Nests r r' → rank r < rank r') : h.IsCopyable v where
  has w hw := hhas w (hw.induction hv hc)
  acyclic r _ hr := by
    have hlt : Relation.TransGen (· < ·) (rank r) (rank r) := hr.lift rank hrank
    rw [Relation.transGen_eq_self] at hlt
    exact Nat.lt_irrefl _ hlt

end Heap

end ObjectModel
