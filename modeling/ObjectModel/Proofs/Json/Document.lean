import ObjectModel.Json.Basic
import ObjectModel.Numeral
import ObjectModel.Proofs.OrderedMap
/-!
# Documents as trees

Facts about documents are proved by induction on the tree, where an array stands for its items and
an object for the values of its members. `Json.all` extends a test of single documents to all the
documents inside one. In a document whose members of one name have been collapsed no object has a
name twice, so nothing collapses a second time; and collapsing never nests anything deeper.
-/

namespace ObjectModel.Json

mutual

/-- A document has a property if scalars have it, arrays have it because their items do, and objects
because the values of their members do. -/
@[elab_as_elim]
theorem induction {P : Json → Prop} (null : P .null) (bool : ∀ b, P (.bool b))
    (int : ∀ i, P (.int i)) (float : ∀ d, P (.float d)) (string : ∀ s, P (.string s))
    (array : ∀ items, (∀ v ∈ items, P v) → P (.array items))
    (object : ∀ members, (∀ e ∈ members, P e.2) → P (.object members)) : ∀ v, P v
  | .null => null
  | .bool b => bool b
  | .int i => int i
  | .float d => float d
  | .string s => string s
  | .array items =>
    array items (induction_items null bool int float string array object items)
  | .object members =>
    object members (induction_members null bool int float string array object members)

private theorem induction_items {P : Json → Prop} (null : P .null) (bool : ∀ b, P (.bool b))
    (int : ∀ i, P (.int i)) (float : ∀ d, P (.float d)) (string : ∀ s, P (.string s))
    (array : ∀ items, (∀ v ∈ items, P v) → P (.array items))
    (object : ∀ members, (∀ e ∈ members, P e.2) → P (.object members)) :
    ∀ items : List Json, ∀ v ∈ items, P v
  | [] => nofun
  | v :: vs => List.forall_mem_cons.2
    ⟨induction null bool int float string array object v,
      induction_items null bool int float string array object vs⟩

private theorem induction_members {P : Json → Prop} (null : P .null) (bool : ∀ b, P (.bool b))
    (int : ∀ i, P (.int i)) (float : ∀ d, P (.float d)) (string : ∀ s, P (.string s))
    (array : ∀ items, (∀ v ∈ items, P v) → P (.array items))
    (object : ∀ members, (∀ e ∈ members, P e.2) → P (.object members)) :
    ∀ members : List (List Char × Json), ∀ e ∈ members, P e.2
  | [] => nofun
  | (_, v) :: ms => List.forall_mem_cons.2
    ⟨induction null bool int float string array object v,
      induction_members null bool int float string array object ms⟩

end

theorem nestingOfItems_le_iff {n : Nat} {items : List Json} :
    nestingOfItems items ≤ n ↔ ∀ v ∈ items, v.nesting ≤ n := by
  induction items with
  | nil => simp [nestingOfItems]
  | cons v vs ih => rw [nestingOfItems, Nat.max_le, ih, List.forall_mem_cons]

theorem nestingOfMembers_le_iff {n : Nat} {members : List (List Char × Json)} :
    nestingOfMembers members ≤ n ↔ ∀ e ∈ members, e.2.nesting ≤ n := by
  induction members with
  | nil => simp [nestingOfMembers]
  | cons e ms ih => rw [nestingOfMembers, Nat.max_le, ih, List.forall_mem_cons]

theorem nesting_le_of_mem_items {v : Json} {items : List Json} (hv : v ∈ items) :
    v.nesting ≤ nestingOfItems items :=
  nestingOfItems_le_iff.1 (Nat.le_refl _) v hv

theorem nesting_le_of_mem_members {e : List Char × Json} {members : List (List Char × Json)}
    (he : e ∈ members) : e.2.nesting ≤ nestingOfMembers members :=
  nestingOfMembers_le_iff.1 (Nat.le_refl _) e he

mutual

/-- Whether a document and all the documents inside it pass a test. -/
def all (p : Json → Bool) : Json → Bool
  | array items => p (.array items) && allItems p items
  | object members => p (.object members) && allMembers p members
  | v => p v

def allItems (p : Json → Bool) : List Json → Bool
  | [] => true
  | v :: vs => v.all p && allItems p vs

def allMembers (p : Json → Bool) : List (List Char × Json) → Bool
  | [] => true
  | (_, v) :: ms => v.all p && allMembers p ms

end

variable {p : Json → Bool}

theorem allItems_iff {items : List Json} : allItems p items = true ↔ ∀ v ∈ items, v.all p := by
  induction items with
  | nil => simp [allItems]
  | cons v vs ih => rw [allItems, Bool.and_eq_true, ih, List.forall_mem_cons]

theorem allMembers_iff {members : List (List Char × Json)} :
    allMembers p members = true ↔ ∀ e ∈ members, e.2.all p := by
  induction members with
  | nil => simp [allMembers]
  | cons e ms ih => rw [allMembers, Bool.and_eq_true, ih, List.forall_mem_cons]

theorem all_array_iff {items : List Json} :
    (array items).all p ↔ p (.array items) ∧ ∀ v ∈ items, v.all p := by
  rw [all, Bool.and_eq_true, allItems_iff]

theorem all_object_iff {members : List (List Char × Json)} :
    (object members).all p ↔ p (.object members) ∧ ∀ e ∈ members, e.2.all p := by
  rw [all, Bool.and_eq_true, allMembers_iff]

/-- Whether a document is no number, or a number that a machine integer holds. -/
def isExact : Json → Bool
  | int i => (int64? i).isSome
  | float _ => false
  | _ => true

/-- Whether a document is no object, or an object that has no name twice. -/
def hasDistinctNames : Json → Bool
  | object members => decide (members.map Prod.fst).Nodup
  | _ => true

theorem hasDistinctNames_object_iff {members : List (List Char × Json)} :
    (object members).hasDistinctNames ↔ (members.map Prod.fst).Nodup := by
  rw [hasDistinctNames, decide_eq_true_eq]

theorem collapsedItems_eq_map (items : List Json) : collapsedItems items = items.map collapsed := by
  induction items with
  | nil => rfl
  | cons v vs ih => rw [collapsedItems, ih, List.map_cons]

theorem collapsedMembers_eq_map (members : List (List Char × Json)) :
    collapsedMembers members = members.map fun e => (e.1, e.2.collapsed) := by
  induction members with
  | nil => rfl
  | cons e ms ih => rw [collapsedMembers, ih, List.map_cons]

theorem mem_of_mem_collapse {e : List Char × Json} {members : List (List Char × Json)}
    (he : e ∈ collapse members) : e ∈ members :=
  OrderedMap.mem_of_get?_ofList (OrderedMap.mem_entries_iff.1 he)

theorem nodup_collapse (members : List (List Char × Json)) :
    ((collapse members).map Prod.fst).Nodup :=
  (OrderedMap.ofList members).nodup_keys

/-- The members that are left when an object is collapsed come from members of the object. -/
theorem exists_of_mem_collapse {e : List Char × Json} {members : List (List Char × Json)}
    (he : e ∈ collapse (collapsedMembers members)) : ∃ e' ∈ members, e.2 = e'.2.collapsed := by
  have hm := mem_of_mem_collapse he
  rw [collapsedMembers_eq_map] at hm
  obtain ⟨e', he', rfl⟩ := List.mem_map.1 hm
  exact ⟨e', he', rfl⟩

theorem all_hasDistinctNames_collapsed (v : Json) : v.collapsed.all hasDistinctNames := by
  induction v using induction with
  | array items ih =>
    rw [collapsed, all_array_iff, collapsedItems_eq_map, List.forall_mem_map]
    exact ⟨rfl, ih⟩
  | object members ih =>
    rw [collapsed, all_object_iff]
    refine ⟨hasDistinctNames_object_iff.2 (nodup_collapse _), fun e he => ?_⟩
    obtain ⟨e', he', hv⟩ := exists_of_mem_collapse he
    exact hv ▸ ih e' he'
  | _ => rfl

/-- Where no object has a name twice nothing collapses. -/
theorem collapsed_eq_self {v : Json} (hv : v.all hasDistinctNames) : v.collapsed = v := by
  induction v using induction with
  | array items ih =>
    obtain ⟨-, hi⟩ := all_array_iff.1 hv
    have he : items.map collapsed = items :=
      (List.map_congr_left fun v h => ih v h (hi v h)).trans (List.map_id' items)
    rw [collapsed, collapsedItems_eq_map, he]
  | object members ih =>
    obtain ⟨hn, hm⟩ := all_object_iff.1 hv
    have he : collapsedMembers members = members :=
      (collapsedMembers_eq_map members).trans
        ((List.map_congr_left fun e h => congrArg (e.1, ·) (ih e h (hm e h))).trans
          (List.map_id' members))
    rw [collapsed, he, collapse, OrderedMap.entries_ofList (hasDistinctNames_object_iff.1 hn)]
  | _ => rfl

theorem nesting_collapsed_le (v : Json) : v.collapsed.nesting ≤ v.nesting := by
  induction v using induction with
  | array items ih =>
    rw [collapsed, nesting, nesting, Nat.add_le_add_iff_right, nestingOfItems_le_iff,
      collapsedItems_eq_map, List.forall_mem_map]
    exact fun v hv => Nat.le_trans (ih v hv) (nesting_le_of_mem_items hv)
  | object members ih =>
    rw [collapsed, nesting, nesting, Nat.add_le_add_iff_right, nestingOfMembers_le_iff]
    intro e he
    obtain ⟨e', he', hv⟩ := exists_of_mem_collapse he
    rw [hv]
    exact Nat.le_trans (ih e' he') (nesting_le_of_mem_members he')
  | _ => exact Nat.le_refl _

end ObjectModel.Json
