import ObjectModel.Proofs.Heap.References
/-!
# Assignment through references

A reference cell is made for a value that is there already, and only plain values are assigned
later. So a cell refers to an older one if it refers to any, `Descends`, and no chain of references
leads back to where it began. A chain then ends in one cell, which holds the value at its end.
Assigning through a reference writes to that cell alone and puts no reference there: chains stay as
they are, and all that end in the cell lead to the new value.
-/

namespace ObjectModel

namespace Heap

open Relation

variable {h h' : Heap} {v w : Val} {c d e : CellRef} {n : Nat}

/-- Whether the cell that a value refers to is there, if it refers to one. -/
def Knows (h : Heap) (v : Val) : Prop := ∀ c, v = .reference c → c.index < h.cells.size

/-- Whether a heap comes from the empty one by making reference cells, assigning and storing, where
only references to cells that are there are used. -/
inductive Built : Heap → Prop
  | empty : Built {}
  | reference {h : Heap} {v : Val} : Built h → h.Knows v → Built (h.allocCell v).1
  /-- A place that holds `old` is assigned to. -/
  | assign {h : Heap} {old new : Val} : Built h → h.Knows old → h.Knows new →
      Built (h.assign old new).1
  /-- Whatever is stored in arrays and objects, no cell is written to. -/
  | store {h h' : Heap} : Built h → h'.cells = h.cells → Built h'

/-- Whether every reference that is in a cell leads to an older cell. -/
def Descends (h : Heap) : Prop := ∀ c d, h.RefersTo c d → d.index < c.index

/-- Whether the chain of references that starts at a cell ends in another, which holds none. -/
def EndsIn (h : Heap) (c e : CellRef) : Prop :=
  ReflTransGen h.RefersTo c e ∧ (h.cell e).isReference = false

theorem cell_setCell_self (w : Val) (hc : c.index < h.cells.size) :
    (h.setCell c w).cell c = w := by
  rw [cell, setCell, Array.getElem?_setIfInBounds_self_of_lt hc, Option.getD_some]

theorem cell_setCell_of_ne (w : Val) (hd : d ≠ c) : (h.setCell c w).cell d = h.cell d := by
  have hi : c.index ≠ d.index := fun he => hd (by cases c; cases d; cases he; rfl)
  rw [cell, cell, setCell, Array.getElem?_setIfInBounds_ne hi]

@[simp] theorem size_cells_setCell (h : Heap) (c : CellRef) (w : Val) :
    (h.setCell c w).cells.size = h.cells.size :=
  Array.size_setIfInBounds

/-- Only cells that are there hold references. -/
theorem RefersTo.lt_size (hr : h.RefersTo c d) : c.index < h.cells.size := by
  refine Decidable.byContradiction fun hlt => ?_
  have hcell : h.cell c = .null := by
    rw [cell, Array.getElem?_eq_none (Nat.le_of_not_lt hlt), Option.getD_none]
  cases hcell.symm.trans hr

/-- A chain that comes to a cell that is there began at one. -/
theorem lt_size_of_reflTransGen (hr : ReflTransGen h.RefersTo c d) (hd : d.index < h.cells.size) :
    c.index < h.cells.size := by
  obtain heq | ⟨b, hb, -⟩ := hr.cases_head
  · exact heq ▸ hd
  · exact RefersTo.lt_size hb

theorem cell_allocCell_of_lt (v : Val) (hc : c.index < h.cells.size) :
    (h.allocCell v).1.cell c = h.cell c := by
  rw [cell, cell, allocCell, Array.getElem?_push_lt hc, Array.getElem?_eq_getElem hc]

theorem cell_allocCell_self (h : Heap) (v : Val) : (h.allocCell v).1.cell ⟨h.cells.size⟩ = v := by
  rw [cell, allocCell, Array.getElem?_push_size, Option.getD_some]

theorem Descends.index_lt (hd : h.Descends) (ht : TransGen h.RefersTo c d) : d.index < c.index := by
  induction ht with
  | single hr => exact hd _ _ hr
  | tail _ hr ih => exact Nat.lt_trans (hd _ _ hr) ih

theorem Descends.index_le (hd : h.Descends) (ht : ReflTransGen h.RefersTo c d) :
    d.index ≤ c.index := by
  obtain rfl | ht := reflTransGen_iff_eq_or_transGen.1 ht
  · exact Nat.le_refl _
  · exact Nat.le_of_lt (hd.index_lt ht)

theorem Descends.not_transGen_self (hd : h.Descends) (c : CellRef) :
    ¬TransGen h.RefersTo c c :=
  fun ht => Nat.lt_irrefl _ (hd.index_lt ht)

theorem Descends.knows_cell (hd : h.Descends) (hc : c.index < h.cells.size) :
    h.Knows (h.cell c) :=
  fun d hr => Nat.lt_trans (hd c d hr) hc

theorem Descends.knows_derefWithin (hd : h.Descends) (hv : h.Knows v) (n : Nat) :
    h.Knows (h.derefWithin n v) := by
  induction n generalizing v with
  | zero => rwa [derefWithin_zero]
  | succ n ih =>
    cases v with
    | reference c => exact ih (hd.knows_cell (hv c rfl))
    | _ => exact hv

/-- Where references lead to older cells, every chain ends. -/
theorem Descends.chainEnds (hd : h.Descends) (hv : h.Knows v) : h.ChainEnds v :=
  fun n c hc => ⟨hd.knows_derefWithin hv n c hc, hd.not_transGen_self c⟩

/-- One more link leads from the last cell of a chain to its content. -/
theorem derefWithin_succ_reference (h : Heap) (n : Nat) (c : CellRef) :
    h.derefWithin (n + 1) (.reference c) = h.cell (h.lastCellWithin n c) := by
  induction n generalizing c with
  | zero => exact derefWithin_zero h _
  | succ n ih =>
    rw [derefWithin, lastCellWithin]
    split
    next d hr => rw [hr, ih]
    next hr =>
      cases hc : h.cell c with
      | reference d => exact absurd hc (hr d)
      | _ => rfl

/-- Further links do not lead away from a value that is no reference. -/
theorem derefWithin_succ (hv : (h.derefWithin n v).isReference = false) :
    h.derefWithin (n + 1) v = h.derefWithin n v := by
  induction n generalizing v with
  | zero =>
    rw [derefWithin_zero] at hv ⊢
    cases v with
    | reference c => cases hv
    | _ => rfl
  | succ n ih =>
    cases v with
    | reference c => exact ih hv
    | _ => rfl

theorem reflTransGen_lastCellWithin (h : Heap) (n : Nat) (c : CellRef) :
    ReflTransGen h.RefersTo c (h.lastCellWithin n c) := by
  induction n generalizing c with
  | zero => exact .refl
  | succ n ih =>
    rw [lastCellWithin]
    split
    next d hr => exact (ih d).head hr
    next => exact .refl

/-- The value at the end of a chain is what its last cell holds. -/
theorem ChainEnds.deref_eq_cell (hc : h.ChainEnds (.reference c)) :
    h.deref (.reference c) = h.cell (h.lastCell c) := by
  rw [deref, lastCell, ← derefWithin_succ_reference]
  exact (derefWithin_succ hc.isReference_deref).symm

theorem ChainEnds.endsIn_lastCell (hc : h.ChainEnds (.reference c)) :
    h.EndsIn c (h.lastCell c) := by
  refine ⟨h.reflTransGen_lastCellWithin _ c, ?_⟩
  rw [← hc.deref_eq_cell]
  exact hc.isReference_deref

/-- Whether or not a cell is there, none that holds a reference is the last one of its chain. -/
theorem Descends.isReference_lastCell (hd : h.Descends) (c : CellRef) :
    (h.cell (h.lastCell c)).isReference = false := by
  cases hcell : h.cell (h.lastCell c) with
  | reference d =>
    have hc : c.index < h.cells.size :=
      lt_size_of_reflTransGen (h.reflTransGen_lastCellWithin _ c) (RefersTo.lt_size hcell)
    have hends := (hd.chainEnds (v := .reference c) (by rintro _ ⟨⟩; exact hc)).endsIn_lastCell
    rw [EndsIn, hcell] at hends
    exact hends.2
  | _ => rfl

/-- A chain ends in one cell only: there is no other way to go on. -/
theorem EndsIn.unique (he : h.EndsIn c e) (hd : h.EndsIn c d) : e = d := by
  obtain ⟨hce, hplain⟩ := he
  induction hce using ReflTransGen.head_induction_on with
  | refl =>
    obtain heq | ⟨b, hb, -⟩ := hd.1.cases_head
    · exact heq
    · rw [show h.cell e = .reference b from hb] at hplain
      cases hplain
  | @head a b hab _ ih =>
    obtain heq | ⟨b', hab', hbd⟩ := hd.1.cases_head
    · subst heq
      have hplain := hd.2
      rw [show h.cell a = .reference b from hab] at hplain
      cases hplain
    · cases (show h.cell a = .reference b from hab).symm.trans hab'
      exact ih ⟨hbd, hd.2⟩

theorem EndsIn.deref_eq_cell (hd : h.Descends) (he : h.EndsIn c e) (hlt : e.index < h.cells.size) :
    h.deref (.reference c) = h.cell e := by
  have hc : h.ChainEnds (.reference c) := hd.chainEnds fun _ hr => by
    cases hr
    exact lt_size_of_reflTransGen he.1 hlt
  rw [hc.deref_eq_cell, he.unique hc.endsIn_lastCell]

/-- Where there is no reference, the value itself is stored. -/
theorem assign_of_plain {old : Val} (v : Val) (hold : old.isReference = false) :
    h.assign old v = (h, h.deref v) := by
  cases old with
  | reference c => cases hold
  | _ => rfl

/-- Chains stay as they are where a value that is no reference gives way to another. -/
theorem refersTo_setCell_iff (he : (h.cell e).isReference = false) (hw : w.isReference = false)
    (c d : CellRef) : (h.setCell e w).RefersTo c d ↔ h.RefersTo c d := by
  by_cases hc : c = e
  · subst hc
    have hplain : ¬h.RefersTo c d := fun hr => by
      rw [show h.cell c = .reference d from hr] at he
      cases he
    refine iff_of_false (fun hr => ?_) hplain
    have hlt : c.index < h.cells.size := by
      rw [← size_cells_setCell h c w]
      exact RefersTo.lt_size hr
    have hcell : (h.setCell c w).cell c = .reference d := hr
    rw [cell_setCell_self w hlt] at hcell
    rw [hcell] at hw
    cases hw
  · rw [RefersTo, RefersTo, cell_setCell_of_ne w hc]

theorem Descends.setCell (hd : h.Descends) (he : (h.cell e).isReference = false)
    (hw : w.isReference = false) : (h.setCell e w).Descends :=
  fun c d hr => hd c d ((refersTo_setCell_iff he hw c d).1 hr)

theorem endsIn_setCell_iff (he : (h.cell e).isReference = false) (hw : w.isReference = false)
    (hlt : e.index < h.cells.size) : (h.setCell e w).EndsIn d e ↔ h.EndsIn d e := by
  have hchains : (h.setCell e w).RefersTo = h.RefersTo :=
    funext₂ fun c d => propext (refersTo_setCell_iff he hw c d)
  rw [EndsIn, EndsIn, hchains, cell_setCell_self w hlt, he, hw]

theorem Descends.allocCell (hd : h.Descends) (hv : h.Knows v) : (h.allocCell v).1.Descends := by
  intro c d hr
  have hlt : c.index < h.cells.size + 1 := by
    have hlt := RefersTo.lt_size hr
    rwa [show (h.allocCell v).1.cells.size = h.cells.size + 1 from Array.size_push v] at hlt
  obtain hlt | heq := Nat.lt_succ_iff_lt_or_eq.1 hlt
  · have hcell : (h.allocCell v).1.cell c = .reference d := hr
    rw [cell_allocCell_of_lt v hlt] at hcell
    exact hd c d hcell
  · obtain rfl : c = ⟨h.cells.size⟩ := by cases c; cases heq; rfl
    have hcell : (h.allocCell v).1.cell ⟨h.cells.size⟩ = .reference d := hr
    rw [cell_allocCell_self] at hcell
    exact hv d hcell

theorem Built.descends (hb : h.Built) : h.Descends := by
  induction hb with
  | empty =>
    intro c d hr
    exact absurd (RefersTo.lt_size hr) (Nat.not_lt_zero _)
  | reference _ hv ih => exact ih.allocCell hv
  | @assign h old new _ hold hnew ih =>
    have hplain := (ih.chainEnds hnew).isReference_deref
    cases old with
    | reference c => exact ih.setCell (ih.chainEnds hold).endsIn_lastCell.2 hplain
    | _ => exact ih
  | store _ hc ih =>
    intro c d hr
    refine ih c d ?_
    rwa [RefersTo, cell, hc] at hr

/-- In a heap that is built by making references, assigning and storing, no chain of references
leads back to where it began, and following references ends at a value that is none. Assigning `v`
through the reference to a cell `c` leaves this reference as it is, and its chain ends in the same
cell as before. Whoever leads to that cell then leads to the value that was at the end of `v`, even
if `v` leads there itself. What is written is no reference, and nothing is written elsewhere. -/
theorem Built.assign_through_references (hb : h.Built) :
    (∀ c, ¬TransGen h.RefersTo c c) ∧ (∀ v, h.Knows v → (h.deref v).isReference = false) ∧
      ∀ c v, h.Knows (.reference c) → h.Knows v →
        ∃ h' e, h.assign (.reference c) v = (h', .reference c) ∧
          h.EndsIn c e ∧ h'.EndsIn c e ∧
          (∀ d, h.EndsIn d e → h'.deref (.reference d) = h.deref v) ∧
          h'.cell e = h.deref v ∧ (h'.cell e).isReference = false ∧
          (∀ d, d ≠ e → h'.cell d = h.cell d) ∧ h'.cells.size = h.cells.size ∧
          h' = { h with cells := h'.cells } := by
  have hd := hb.descends
  refine ⟨hd.not_transGen_self, fun v hv => (hd.chainEnds hv).isReference_deref, ?_⟩
  intro c v hc hv
  have hends := (hd.chainEnds hc).endsIn_lastCell
  have hplain := (hd.chainEnds hv).isReference_deref
  have hlt : (h.lastCell c).index < h.cells.size :=
    Nat.lt_of_le_of_lt (hd.index_le hends.1) (hc c rfl)
  have hends' (d : CellRef) : (h.setCell (h.lastCell c) (h.deref v)).EndsIn d (h.lastCell c) ↔
      h.EndsIn d (h.lastCell c) := endsIn_setCell_iff hends.2 hplain hlt
  have hcell := cell_setCell_self (h.deref v) hlt
  refine ⟨h.setCell (h.lastCell c) (h.deref v), h.lastCell c, rfl, hends, (hends' c).2 hends, ?_,
    hcell, ?_, fun d hne => cell_setCell_of_ne _ hne, size_cells_setCell _ _ _, rfl⟩
  · intro d hde
    have hlt' : (h.lastCell c).index < (h.setCell (h.lastCell c) (h.deref v)).cells.size := by
      rwa [size_cells_setCell]
    rw [((hends' d).2 hde).deref_eq_cell (hd.setCell hends.2 hplain) hlt', hcell]
  · rw [hcell]
    exact hplain

/-- Two references to one cell, and an array that holds one of them. -/
def sharingHeap : Heap where
  arrays := #[.packed [.reference ⟨1⟩]]
  cells := #[.int 7, .reference ⟨0⟩, .reference ⟨0⟩]

theorem built_sharingHeap : sharingHeap.Built := by
  have hone : (({} : Heap).allocCell (.int 7)).1.Built := .reference .empty nofun
  have htwo := hone.reference (v := .reference ⟨0⟩) (by rintro _ ⟨⟩; decide)
  have hthree := htwo.reference (v := .reference ⟨0⟩) (by rintro _ ⟨⟩; decide)
  exact hthree.store rfl

/-- Through one reference, the array that holds it is assigned: the other one leads to the array
then. Assigning a reference through itself puts back what is there. -/
theorem assign_through_references_sharingHeap :
    sharingHeap.Built ∧ sharingHeap.Knows (.reference ⟨1⟩) ∧ sharingHeap.Knows (.array ⟨0⟩) ∧
      (∃ h', sharingHeap.assign (.reference ⟨1⟩) (.array ⟨0⟩) = (h', .reference ⟨1⟩) ∧
        h'.deref (.reference ⟨2⟩) = .array ⟨0⟩ ∧ h'.cell ⟨0⟩ = .array ⟨0⟩ ∧
        h'.cell ⟨2⟩ = .reference ⟨0⟩) ∧
      ∃ h', sharingHeap.assign (.reference ⟨1⟩) (.reference ⟨1⟩) = (h', .reference ⟨1⟩) ∧
        h'.deref (.reference ⟨2⟩) = .int 7 := by
  have hknown : sharingHeap.Knows (.reference ⟨1⟩) := by rintro _ ⟨⟩; decide
  have harray : sharingHeap.Knows (.array ⟨0⟩) := nofun
  have hends (c : CellRef) (hc : sharingHeap.RefersTo c ⟨0⟩) : sharingHeap.EndsIn c ⟨0⟩ :=
    ⟨.single hc, rfl⟩
  obtain ⟨-, -, hassign⟩ := built_sharingHeap.assign_through_references
  refine ⟨built_sharingHeap, hknown, harray, ?_, ?_⟩
  · obtain ⟨h', e, heq, he, -, hread, hcell, -, hframe, -⟩ := hassign ⟨1⟩ _ hknown harray
    obtain rfl := he.unique (hends ⟨1⟩ rfl)
    exact ⟨h', heq, hread _ (hends ⟨2⟩ rfl), hcell, hframe ⟨2⟩ (by decide)⟩
  · obtain ⟨h', e, heq, he, -, hread, -⟩ := hassign ⟨1⟩ _ hknown hknown
    obtain rfl := he.unique (hends ⟨1⟩ rfl)
    exact ⟨h', heq, hread _ (hends ⟨2⟩ rfl)⟩

end Heap

end ObjectModel
