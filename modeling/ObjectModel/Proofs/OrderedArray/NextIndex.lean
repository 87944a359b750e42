import ObjectModel.Proofs.OrderedArray.View
/-!
# How the next index moves

What an operation does to the keys and to the next index is stated here for all arrays, however
long they are. Most operations only advance: the next index does not fall, and every integer key
that is new is behind it afterwards, unless it has come to its end, the greatest machine integer.
Two operations turn it back. `pop?` hands out the last key again, and `unshift` counts the integer
keys anew.
-/

namespace ObjectModel

namespace OrderedArray

universe u

variable {α : Type u} {a b c : OrderedArray α}

theorem toInt_maxValue : Int64.maxValue.toInt = 0x8000000000000000 - 1 := by decide

theorem lt_maxValue_iff {i : Int64} : i < .maxValue ↔ i ≠ .maxValue := by
  have hi := i.toInt_lt
  rw [Int64.lt_iff_toInt_lt, ne_eq, ← Int64.toInt_inj, toInt_maxValue]
  omega

theorem toInt_add_one {i : Int64} (h : i ≠ .maxValue) : (i + 1).toInt = i.toInt + 1 := by
  rw [← lt_maxValue_iff, Int64.lt_iff_toInt_lt, toInt_maxValue] at h
  have hi := i.le_toInt
  rw [Int64.toInt_add, Int64.toInt_one]
  exact Int.bmod_eq_of_le (by omega) (by omega)

/-- Whether a counter has left a key behind: it is past the key, or it has come to its end. -/
def IsPassed (next i : Int64) : Prop := i < next ∨ next = .maxValue

theorem IsPassed.of_le {i m n : Int64} (h : IsPassed m i) (hmn : m ≤ n) : IsPassed n i := by
  obtain h | rfl := h
  · exact .inl (Int64.lt_of_lt_of_le h hmn)
  · refine .inr (Int64.le_antisymm ?_ hmn)
    rw [Int64.le_iff_toInt_le, toInt_maxValue]
    have := n.toInt_lt
    omega

theorem isPassed_succ (i : Int64) : IsPassed (succ i) i := by
  rw [IsPassed, succ]
  split
  next h => exact .inr h
  next h =>
    refine .inl ?_
    rw [Int64.lt_iff_toInt_lt, toInt_add_one h]
    exact Int.lt_succ _

theorem le_succ (i : Int64) : i ≤ succ i := by
  obtain h | h := isPassed_succ i
  · exact Int64.le_of_lt h
  · rw [h, Int64.le_iff_toInt_le, toInt_maxValue]
    have := i.toInt_lt
    omega

theorem le_nextAfter (n : Int64) (k : Key) : n ≤ nextAfter n k := by
  cases k with
  | str s => exact Int64.le_refl n
  | int i =>
    rw [nextAfter]
    split
    next h => exact Int64.le_trans h (le_succ i)
    next => exact Int64.le_refl n

theorem isPassed_nextAfter (n i : Int64) : IsPassed (nextAfter n (.int i)) i := by
  rw [nextAfter]
  split
  next => exact isPassed_succ i
  next h => exact .inl (Int64.not_le.1 h)

/-- Positions count up until the machine integers end. -/
theorem isPassed_index {m n : Nat} (h : m < n) : IsPassed (index n) (index m) := by
  obtain hn | hn := Nat.lt_or_ge n 0x8000000000000000
  · refine .inl ?_
    rw [Int64.lt_iff_toInt_lt, toInt_index hn, toInt_index (by omega)]
    omega
  · exact .inr (index_of_le hn)

def AllPassed (a : OrderedArray α) : Prop := ∀ i, Key.int i ∈ a.keys → IsPassed a.next i

theorem allPassed_packed (vs : List α) : (packed vs).AllPassed := by
  intro i hi
  obtain ⟨n, hn, rfl⟩ := int_mem_map_fst_enumerate.1 hi
  exact isPassed_index hn

theorem keys_toMap_subset (a : OrderedArray α) : a.toMap.keys ⊆ a.keys := by
  cases a with
  | hash m n => exact List.Subset.refl _
  | packed vs =>
    intro k hk
    obtain ⟨x, hx⟩ := Option.isSome_iff_exists.1 (OrderedMap.isSome_get?_iff.2 hk)
    exact List.mem_map_of_mem (OrderedMap.mem_of_get?_ofList hx)

theorem next_insert (a : OrderedArray α) (k : Key) (x : α) :
    (a.insert k x).next = nextAfter a.next k := by
  unfold insert
  split
  next vs i =>
    split
    next hi =>
      have hlt : vs.length < 0x8000000000000000 := by have := i.toInt_lt; omega
      have hk : i = index vs.length := by rw [← Int64.toInt_inj, toInt_index hlt, hi]
      subst hk
      exact (congrArg Prod.snd (view_packed_append hlt x)).trans (if_pos (Int64.le_refl _)).symm
    next => rfl
  next => rfl

theorem mem_keys_insert {k l : Key} {x : α} (h : l ∈ (a.insert k x).keys) :
    l = k ∨ l ∈ a.keys := by
  have hinsert {l : Key} (h : l ∈ (a.insertHash k x).keys) : l = k ∨ l ∈ a.keys :=
    (OrderedMap.mem_keys_insert.1 h).imp id fun h => keys_toMap_subset a h
  unfold insert at h
  split at h
  next vs i =>
    split at h
    next hi =>
      have hlt : vs.length < 0x8000000000000000 := by have := i.toInt_lt; omega
      have hk : i = index vs.length := by rw [← Int64.toInt_inj, toInt_index hlt, hi]
      subst hk
      rw [keys, entries, enumerate_append_singleton, List.map_append, List.mem_append] at h
      exact h.symm.imp List.mem_singleton.1 id
    next => exact hinsert h
  next => exact hinsert h

/-- Appending fails just if the key of the next index is taken. -/
theorem append?_eq_none_iff {x : α} : a.append? x = none ↔ Key.int a.next ∈ a.keys := by
  by_cases h : a.Bounded
  · have hv := map_view_append? h x
    rw [← Option.map_eq_none_iff, hv]
    split <;> simp_all
  · cases a with
    | hash m n => exact absurd trivial h
    | packed vs =>
      have hlt : ¬vs.length ≤ 0x8000000000000000 := h
      have hmax : (packed vs).next = .maxValue := index_of_le (by omega)
      refine iff_of_true (if_neg (by omega)) (int_mem_map_fst_enumerate.2 ?_)
      refine ⟨0x8000000000000000 - 1, by omega, ?_⟩
      rw [hmax, ← Int64.toInt_inj, toInt_index (by omega)]
      decide

/-- What appending does if it succeeds. -/
theorem of_append?_eq_some {x : α} {i : Int64} (h : a.append? x = some (i, b)) :
    i = a.next ∧ Key.int a.next ∉ a.keys ∧ b.entries = a.entries ++ [(.int a.next, x)] ∧
      b.next = succ a.next := by
  have hk : Key.int a.next ∉ a.keys := by
    rw [← append?_eq_none_iff (x := x), h]
    nofun
  have hb : a.Bounded := by
    cases a with
    | hash m n => trivial
    | packed vs =>
      obtain ⟨hlt, -⟩ := Option.ite_none_right_eq_some.1 h
      exact Nat.le_of_lt hlt
  have hv := map_view_append? hb x
  rw [h, if_neg hk, Option.map_some, Option.some_inj] at hv
  exact ⟨congrArg Prod.fst hv, hk, congrArg (·.2.1) hv, congrArg (·.2.2) hv⟩

/-- Whether the next index has not fallen and every integer key is an old one or is left behind. -/
structure Advances (a b : OrderedArray α) : Prop where
  next_le : a.next ≤ b.next
  mem_or : ∀ i, Key.int i ∈ b.keys → Key.int i ∈ a.keys ∨ IsPassed b.next i

namespace Advances

theorem of_subset (hk : b.keys ⊆ a.keys) (hn : b.next = a.next) : a.Advances b :=
  ⟨hn ▸ Int64.le_refl _, fun _ hi => .inl (hk hi)⟩

theorem refl (a : OrderedArray α) : a.Advances a := of_subset (List.Subset.refl _) rfl

theorem trans (h₁ : a.Advances b) (h₂ : b.Advances c) : a.Advances c := by
  refine ⟨Int64.le_trans h₁.next_le h₂.next_le, fun i hi => ?_⟩
  obtain hi | hi := h₂.mem_or i hi
  · exact (h₁.mem_or i hi).imp id fun hi => hi.of_le h₂.next_le
  · exact .inr hi

theorem allPassed (h : a.Advances b) (ha : a.AllPassed) : b.AllPassed := by
  intro i hi
  obtain hi | hi := h.mem_or i hi
  · exact (ha i hi).of_le h.next_le
  · exact hi

end Advances

theorem advances_insert (a : OrderedArray α) (k : Key) (x : α) : a.Advances (a.insert k x) := by
  refine ⟨next_insert a k x ▸ le_nextAfter a.next k, fun i hi => ?_⟩
  obtain rfl | hi := mem_keys_insert hi
  · exact .inr (next_insert a _ x ▸ isPassed_nextAfter a.next i)
  · exact .inl hi

theorem advances_of_append? {x : α} {r : Int64 × OrderedArray α} (h : a.append? x = some r) :
    a.Advances r.2 := by
  obtain ⟨-, -, he, hn⟩ := of_append?_eq_some h
  refine ⟨hn ▸ le_succ a.next, fun i hi => ?_⟩
  rw [keys, he, List.map_append, List.mem_append] at hi
  obtain hi | hi := hi
  · exact .inl hi
  · cases List.mem_singleton.1 hi
    exact .inr (hn ▸ isPassed_succ a.next)

theorem advances_adopt (a : OrderedArray α) (e : Key × α) : a.Advances (a.adopt e) := by
  obtain ⟨k, x⟩ := e
  cases k with
  | str s => exact advances_insert a _ x
  | int i =>
    simp only [adopt]
    cases hr : a.append? x with
    | none => exact .refl a
    | some r => exact advances_of_append? hr

theorem advances_foldl_adopt (l : List (Key × α)) (a : OrderedArray α) :
    a.Advances (l.foldl adopt a) :=
  List.foldlRecOn l adopt (.refl a) fun b hb e _ => hb.trans (advances_adopt b e)

theorem keys_modify (a : OrderedArray α) (k : Key) (f : α → α) : (a.modify k f).keys = a.keys := by
  cases a with
  | hash m n =>
    change (m.entries.map fun e => if e.1 = k then (e.1, f e.2) else e).map Prod.fst = _
    rw [List.map_map]
    refine List.map_congr_left fun e _ => ?_
    by_cases h : e.1 = k <;> simp [h]
  | packed vs =>
    cases k with
    | str s => rfl
    | int i =>
      change (enumerate _).map Prod.fst = (enumerate _).map Prod.fst
      rw [map_fst_enumerate, map_fst_enumerate]
      split <;> simp

theorem next_modify (a : OrderedArray α) (k : Key) (f : α → α) : (a.modify k f).next = a.next := by
  cases a with
  | hash m n => rfl
  | packed vs =>
    cases k with
    | str s => rfl
    | int i =>
      change index _ = index _
      split <;> simp

theorem advances_modify (a : OrderedArray α) (k : Key) (f : α → α) : a.Advances (a.modify k f) :=
  .of_subset (by rw [keys_modify]; exact List.Subset.refl _) (next_modify a k f)

theorem advances_erase (a : OrderedArray α) (k : Key) : a.Advances (a.erase k) := by
  refine .of_subset (fun l hl => ?_) rfl
  have hsub : (a.toMap.erase k).keys ⊆ a.toMap.keys := (List.filter_sublist.map Prod.fst).subset
  exact keys_toMap_subset a (hsub hl)

theorem advances_of_shift? {r : α × OrderedArray α} (h : a.shift? = some r) :
    a.Advances r.2 := by
  obtain ⟨e, -, rfl⟩ := Option.map_eq_some_iff.1 h
  refine .of_subset (fun l hl => ?_) rfl
  have hsub : a.toMap.tail.keys ⊆ a.toMap.keys := ((List.tail_sublist _).map Prod.fst).subset
  exact keys_toMap_subset a (hsub hl)

/-- What is left when the last element has been removed, and what becomes of the next index. In the
packed form there is nothing to say of the latter: positions are always left behind. -/
theorem of_pop?_eq_some {r : α × OrderedArray α} (h : a.pop? = some r) :
    ∃ k, a.keys = r.2.keys ++ [k] ∧ (r.2.AllPassed ∨ r.2.next = released a.next k) := by
  cases a with
  | packed vs =>
    obtain ⟨x, hx, rfl⟩ := Option.map_eq_some_iff.1 h
    obtain ⟨us, rfl⟩ := List.getLast?_eq_some_iff.1 hx
    refine ⟨.int (index us.length), ?_, .inl (allPassed_packed _)⟩
    rw [keys, entries, enumerate_append_singleton, List.map_append, List.dropLast_concat]
    rfl
  | hash m n =>
    obtain ⟨⟨k, x⟩, hx, rfl⟩ := Option.map_eq_some_iff.1 h
    obtain ⟨l, hl⟩ := List.getLast?_eq_some_iff.1 hx
    refine ⟨k, ?_, .inr (by cases k <;> rfl)⟩
    change m.entries.map Prod.fst = m.entries.dropLast.map Prod.fst ++ [k]
    rw [hl, List.dropLast_concat, List.map_append]
    rfl

/-- Positions are numbered anew up to the next index. -/
theorem allPassed_unshift (a : OrderedArray α) (x : α) : (a.unshift x).AllPassed := by
  cases a with
  | packed vs => exact allPassed_packed (x :: vs)
  | hash m n =>
    intro i hi
    have hi : Key.int i ∈ (OrderedMap.ofList ((.int 0, x) :: renumber 1 m.entries)).keys := hi
    change IsPassed (index ((m.entries.filter fun e => e.1.isInt).length + 1)) i
    obtain ⟨y, hy⟩ := Option.isSome_iff_exists.1 (OrderedMap.isSome_get?_iff.2 hi)
    obtain he | hm := List.mem_cons.1 (OrderedMap.mem_of_get?_ofList hy)
    · have hzero : index 0 = 0 := by decide
      rw [Key.int.inj (congrArg Prod.fst he), ← hzero]
      exact isPassed_index (Nat.succ_pos _)
    · obtain ⟨j, -, hj, rfl⟩ := exists_of_int_mem_renumber (List.mem_map_of_mem hm)
      exact isPassed_index (by omega)

end OrderedArray

end ObjectModel
