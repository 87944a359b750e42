import ObjectModel.Object.Access
import ObjectModel.Proofs.Heap.Reachability
/-!
# Chains of references

A value shows the values that everyone can read through it: an array its elements, an object the
values of its public properties, and a reference the content of its cell. In contrast to `Reaches`,
a reference cell is on the way here and not the end of it. Where no cell that is shown leads back to
itself through references alone, following references ends at a value that is none: the cells of a
chain are distinct, and `deref` goes on for as many links as there are cells.
-/

namespace ObjectModel

/-- The public properties that have a value, with the values that the slots hold. -/
def Object.publicMembers (o : Object) : List (String × Val) :=
  o.slots.entries.filterMap fun (name, s) =>
    if s.visibility = .isPublic && s.isInitialized then some (name, s.value) else none

namespace Heap

/-- The values that can be read through a value in one step. -/
def shown (h : Heap) : Val → List Val
  | .array r => (h.array r).values
  | .object r => (h.object r).publicMembers.map Prod.snd
  | .reference c => [h.cell c]
  | _ => []

/-- Whether a value can be read through another in one step. -/
def Shows (h : Heap) (v w : Val) : Prop := w ∈ h.shown v

/-- Whether a cell holds a reference to another. -/
def RefersTo (h : Heap) (c d : CellRef) : Prop := h.cell c = .reference d

def ChainEnds (h : Heap) (v : Val) : Prop :=
  ∀ n c, h.derefWithin n v = .reference c →
    c.index < h.cells.size ∧ ¬Relation.TransGen h.RefersTo c c

/-- Whether the reference cells that can be read through a value exist, and none of them leads back
to itself through references alone. -/
def ReferencesEnd (h : Heap) (v : Val) : Prop :=
  ∀ c, Relation.ReflTransGen h.Shows v (.reference c) →
    c.index < h.cells.size ∧ ¬Relation.TransGen h.RefersTo c c

/-- Whether an array or object that can be read through a value can be read through itself. -/
def ShowsCycle (h : Heap) (v : Val) : Prop :=
  ∃ c : Val, c.isContainer ∧ Relation.ReflTransGen h.Shows v c ∧ Relation.TransGen h.Shows c c

open Relation

variable {h : Heap} {v w : Val} {c : CellRef}

theorem shows_cell (h : Heap) (c : CellRef) : h.Shows (.reference c) (h.cell c) :=
  List.mem_singleton_self _

/-- What is neither a container nor a reference shows nothing. -/
theorem not_shows (hc : v.isContainer = false) (hr : v.isReference = false) : ¬h.Shows v w := by
  cases v with
  | array r => cases hc
  | object r => cases hc
  | reference c => cases hr
  | _ => nofun

/-- A reference shows nothing but the content of its cell. -/
theorem Shows.eq_cell (hw : h.Shows (.reference c) w) : w = h.cell c := List.mem_singleton.1 hw

/-- Public properties are read at the ends of the references in their slots. -/
theorem publicProperties_eq_map_deref (h : Heap) (o : Object) :
    h.publicProperties o = o.publicMembers.map fun (name, v) => (name, h.deref v) := by
  rw [publicProperties, Object.publicMembers, List.map_filterMap]
  refine List.filterMap_congr fun e _ => ?_
  dsimp only
  split <;> rfl

theorem shows_derefWithin (h : Heap) (n : Nat) (v : Val) :
    ReflTransGen h.Shows v (h.derefWithin n v) := by
  induction n generalizing v with
  | zero => rw [derefWithin_zero]
  | succ n ih =>
    cases v with
    | reference c => exact (ih (h.cell c)).head (h.shows_cell c)
    | _ => exact .refl

theorem shows_deref (h : Heap) (v : Val) : ReflTransGen h.Shows v (h.deref v) :=
  h.shows_derefWithin _ v

theorem ReferencesEnd.of_shows (hv : h.ReferencesEnd v) (hw : ReflTransGen h.Shows v w) :
    h.ReferencesEnd w :=
  fun c hc => hv c (hw.trans hc)

theorem ReferencesEnd.deref (hv : h.ReferencesEnd v) : h.ReferencesEnd (h.deref v) :=
  hv.of_shows (h.shows_deref v)

/-- References end where all that can be read through a value stays within a set of values, in which
references lead to cells that hold no further ones. -/
theorem ReferencesEnd.of_cells {P : Val → Prop} (hv : P v) (hc : ∀ u, P u → ∀ u', h.Shows u u' → P u')
    (hcell : ∀ c, P (.reference c) → c.index < h.cells.size ∧ (h.cell c).isReference = false) :
    h.ReferencesEnd v := by
  have hreach {u : Val} (hu : ReflTransGen h.Shows v u) : P u := by
    induction hu with
    | refl => exact hv
    | tail _ hu ih => exact hc _ ih _ hu
  intro c hvc
  obtain ⟨hexists, hplain⟩ := hcell c (hreach hvc)
  refine ⟨hexists, fun hloop => ?_⟩
  obtain ⟨d, hd, -⟩ := TransGen.head'_iff.1 hloop
  rw [show h.cell c = .reference d from hd] at hplain
  cases hplain

/-- Every chain of references that can be followed from the value ends. -/
theorem ReferencesEnd.chainEnds (hv : h.ReferencesEnd v) : h.ChainEnds v :=
  fun n c hc => hv c (hc ▸ h.shows_derefWithin n v)

/-- The chain goes on behind the cell that a reference leads to. -/
theorem ChainEnds.cell (hc : h.ChainEnds (.reference c)) : h.ChainEnds (h.cell c) :=
  fun n => hc (n + 1)

/-- Whether `passed` are distinct cells that exist and lead to every cell that a value refers to. -/
structure HasPassed (h : Heap) (passed : List CellRef) (v : Val) : Prop where
  nodup : passed.Nodup
  exist : ∀ c ∈ passed, c.index < h.cells.size
  lead : ∀ c ∈ passed, ∀ d, v = .reference d → TransGen h.RefersTo c d

variable {passed : List CellRef}

theorem HasPassed.length_le (hp : h.HasPassed passed v) : passed.length ≤ h.cells.size := by
  have hsub : passed ⊆ (List.range h.cells.size).map CellRef.mk := fun c hc =>
    List.mem_map.2 ⟨c.index, List.mem_range.2 (hp.exist c hc), rfl⟩
  have hlen := (hp.nodup.subperm hsub).length_le
  rwa [List.length_map, List.length_range] at hlen

/-- A cell from which no chain leads back is none of those that have been passed. -/
theorem HasPassed.cons (hp : h.HasPassed passed (.reference c)) (hc : c.index < h.cells.size)
    (hloop : ¬TransGen h.RefersTo c c) : h.HasPassed (c :: passed) (h.cell c) where
  nodup := List.nodup_cons.2 ⟨fun hm => hloop (hp.lead c hm c rfl), hp.nodup⟩
  exist := List.forall_mem_cons.2 ⟨hc, hp.exist⟩
  lead := List.forall_mem_cons.2
    ⟨fun _ hd => .single hd, fun b hb _ hd => (hp.lead b hb c rfl).tail hd⟩

/-- The end of a chain is reached when the links that are left and the cells that have been passed
make up all cells. -/
theorem ChainEnds.isReference_derefWithin {n : Nat} (hv : h.ChainEnds v)
    (hp : h.HasPassed passed v) (hn : h.cells.size ≤ n + passed.length) :
    (h.derefWithin n v).isReference = false := by
  induction n generalizing v passed with
  | zero =>
    cases v with
    | reference c =>
      obtain ⟨hc, hloop⟩ := hv 0 c rfl
      have hlen := (hp.cons hc hloop).length_le
      rw [List.length_cons] at hlen
      omega
    | _ => rfl
  | succ n ih =>
    cases v with
    | reference c =>
      obtain ⟨hc, hloop⟩ := hv 0 c rfl
      have hn' : h.cells.size ≤ n + (c :: passed).length := by
        rw [List.length_cons]
        omega
      exact ih hv.cell (hp.cons hc hloop) hn'
    | _ => rfl

/-- Following a chain that ends leads to a value that is no reference. -/
theorem ChainEnds.isReference_deref (hv : h.ChainEnds v) : (h.deref v).isReference = false :=
  hv.isReference_derefWithin ⟨List.nodup_nil, nofun, nofun⟩ (Nat.le_refl _)

/-- Following the references of a value ends at a value that is no reference. -/
theorem ReferencesEnd.isReference_deref (hv : h.ReferencesEnd v) :
    (h.deref v).isReference = false :=
  hv.chainEnds.isReference_deref

end Heap

end ObjectModel
