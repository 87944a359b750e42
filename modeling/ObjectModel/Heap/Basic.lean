import ObjectModel.Object.Basic
import ObjectModel.OrderedArray.InPlace
/-!
# The heap

What handles refer to: arrays, reference cells and objects, each found by the index under which it
was allocated, the storage of static properties, and the number of the next string buffer. Reading a
handle that was never given out yields an empty thing; writing to one changes nothing.

A reference cell may hold another reference. `deref` follows such a chain to its end, and `assign`
writes to the cell at the end of it, so that every holder of any cell on the chain sees the new
value. A chain in which no cell comes twice has at most as many links as there are cells, which
bounds both.
-/

namespace ObjectModel

/-- Everything that values share. -/
structure Heap where
  arrays : Array (OrderedArray Val) := #[]
  cells : Array Val := #[]
  objects : Array Object := #[]
  /-- The static properties of every declared class. -/
  storages : OrderedMap StorageId (OrderedMap String Val) := ∅
  /-- The number of the next string buffer. -/
  nextBuffer : Nat := 0
deriving Inhabited

namespace Heap

/-- A string in a buffer of its own. -/
def allocText (h : Heap) (bytes : Bytes) : Heap × Text :=
  ({ h with nextBuffer := h.nextBuffer + 1 }, ⟨bytes, h.nextBuffer⟩)

def allocArray (h : Heap) (a : OrderedArray Val) : Heap × ArrayRef :=
  ({ h with arrays := h.arrays.push a }, ⟨h.arrays.size⟩)

def array (h : Heap) (r : ArrayRef) : OrderedArray Val := h.arrays[r.index]?.getD ∅

def setArray (h : Heap) (r : ArrayRef) (a : OrderedArray Val) : Heap :=
  { h with arrays := h.arrays.setIfInBounds r.index a }

def allocCell (h : Heap) (v : Val) : Heap × CellRef :=
  ({ h with cells := h.cells.push v }, ⟨h.cells.size⟩)

def cell (h : Heap) (c : CellRef) : Val := h.cells[c.index]?.getD .null

def setCell (h : Heap) (c : CellRef) (v : Val) : Heap :=
  { h with cells := h.cells.setIfInBounds c.index v }

def allocObject (h : Heap) (o : Object) : Heap × ObjectRef :=
  ({ h with objects := h.objects.push o }, ⟨h.objects.size⟩)

def object (h : Heap) (r : ObjectRef) : Object := h.objects[r.index]?.getD default

def setObject (h : Heap) (r : ObjectRef) (o : Object) : Heap :=
  { h with objects := h.objects.setIfInBounds r.index o }

/-- The stored static properties of a class; none if the class is not declared. -/
def statics (h : Heap) (c : ClassDef) : OrderedMap String Val :=
  (c.storage?.bind h.storages.get?).getD ∅

/-- Follows at most `n` references. -/
def derefWithin (h : Heap) : (n : Nat) → Val → Val
  | n + 1, .reference c => derefWithin h n (h.cell c)
  | _, v => v

def deref (h : Heap) (v : Val) : Val := h.derefWithin h.cells.size v

/-- Follows a chain of at most `n` references from cell to cell. -/
def lastCellWithin (h : Heap) : (n : Nat) → CellRef → CellRef
  | n + 1, c =>
    match h.cell c with
    | .reference d => lastCellWithin h n d
    | _ => c
  | 0, c => c

/-- The last cell of the chain that starts at a cell. -/
def lastCell (h : Heap) (c : CellRef) : CellRef := h.lastCellWithin h.cells.size c

/-- Assigns a value to a place that holds `old`, and returns what the place holds then. A reference
stays, and the value goes to the end of its chain; only plain values are ever assigned. -/
def assign (h : Heap) (old new : Val) : Heap × Val :=
  let new := h.deref new
  match old with
  | .reference c => (h.setCell (h.lastCell c) new, old)
  | _ => (h, new)

/-- Assigns to the element of an array under a key, if there is one, and says whether there is. -/
def assignAt (h : Heap) (k : Key) (new : Val) : StateM (StoredArray Val) (Bool × Heap) := do
  match (← get).toArray.get? k with
  | none => return (false, h)
  | some old =>
    let (h, v) := h.assign old new
    StoredArray.modifyAt k fun _ => v
    return (true, h)

@[simp] theorem derefWithin_zero (h : Heap) (v : Val) : h.derefWithin 0 v = v := by
  cases v <;> rfl

/-- What is no reference stands for itself. -/
theorem deref_eq_self (h : Heap) {v : Val} (hv : v.isReference = false) : h.deref v = v := by
  rw [deref]
  cases v with
  | reference c => cases hv
  | _ => cases h.cells.size <;> rfl

@[simp] theorem deref_int (h : Heap) (i : Int64) : h.deref (.int i) = .int i :=
  h.deref_eq_self rfl

/-- Where a chain of references ends depends on the cells alone. -/
theorem deref_congr {h h' : Heap} (hc : h'.cells = h.cells) (v : Val) : h'.deref v = h.deref v := by
  have hwithin (n : Nat) (v : Val) : h'.derefWithin n v = h.derefWithin n v := by
    induction n generalizing v with
    | zero => rw [derefWithin_zero, derefWithin_zero]
    | succ n ih =>
      cases v with
      | reference c =>
        rw [derefWithin, derefWithin, cell, cell, hc]
        exact ih _
      | _ => rfl
  rw [deref, deref, hwithin, hc]

theorem lastCell_congr {h h' : Heap} (hc : h'.cells = h.cells) (c : CellRef) :
    h'.lastCell c = h.lastCell c := by
  have hwithin (n : Nat) (c : CellRef) : h'.lastCellWithin n c = h.lastCellWithin n c := by
    induction n generalizing c with
    | zero => rfl
    | succ n ih =>
      rw [lastCellWithin, lastCellWithin, cell, cell, hc]
      split
      · exact ih _
      · rfl
  rw [lastCell, lastCell, hwithin, hc]

/-- The heap during a copy, and the copies of the objects met so far. -/
structure Copying where
  heap : Heap
  copies : List (ObjectRef × ObjectRef) := []

/-- Copies a value through at most `n` nested containers. -/
def copyWithin : (n : Nat) → Copying → Val → Copying × Val
  | n + 1, s, .array r =>
    let (s, a) := (s.heap.array r).mapAccum (copyWithin n) s
    let (h, r) := s.heap.allocArray a
    ({ s with heap := h }, .array r)
  | n + 1, s, .object r =>
    match s.copies.lookup r with
    | some r => (s, .object r)
    | none =>
      let source := s.heap.object r
      -- the copy takes its number, and is known as such, before its properties are copied
      let (h, copy) := s.heap.allocObject { source with slots := ∅ }
      let (s, slots) := source.slots.mapAccum
        (fun s slot =>
          let (s, v) := copyWithin n s slot.value
          (s, { slot with value := v }))
        { heap := h, copies := (r, copy) :: s.copies }
      ({ s with heap := s.heap.setObject copy { source with slots } }, .object copy)
  | _, s, v => (s, v)

/-- How deep containers can nest before an array lies inside itself: between two objects that are
copied at most every array lies once. -/
def copyDepth (h : Heap) : Nat := (h.objects.size + 1) * (h.arrays.size + 1) + 1

/-- Copies a value with everything in it. Each occurrence of an array becomes a new array, each
object one new object wherever it occurs; reference cells stay shared. -/
def deepCopy (h : Heap) (v : Val) : Heap × Val :=
  let (s, v) := copyWithin h.copyDepth { heap := h } v
  (s.heap, v)

def deepCopyArray (h : Heap) (a : OrderedArray Val) : Heap × OrderedArray Val :=
  let (s, a) := a.mapAccum (copyWithin h.copyDepth) { heap := h }
  (s.heap, a)

end Heap

end ObjectModel
