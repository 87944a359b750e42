import ObjectModel.Proofs.OrderedArray.Appending
/-!
# The sign of the next index

A negative key is written without moving the next index, which starts at zero or above. There is one
way below zero: removing the last element hands its key out again, and when the next index is zero,
the key before it is minus one, which no append has handed out. A run keeps the next index from
becoming negative just if it never gives back minus one in this way.
-/

namespace ObjectModel

namespace OrderedArray

/-- A step of a run: a call, or a slice or a copy that takes the place of the array. The heap may be
any. -/
inductive Move where
  | call (h : Heap) (c : Call)
  | slice (offset : Int) (length? : Option Int)
  | deepCopy (h : Heap)

def Move.target (a : OrderedArray Val) : Move → OrderedArray Val
  | .call h c => (h.call a c).2.2
  | .slice offset length? => a.slice offset length?
  | .deepCopy h => (h.deepCopyArray a).2

/-- The arrays that a run passes through, from the first to the last. -/
def visited (a : OrderedArray Val) : List Move → List (OrderedArray Val)
  | [] => [a]
  | m :: ms => a :: visited (m.target a) ms

/-- Whether a step removes a last element under the key minus one while the next index is zero. -/
def Move.GivesBackMinusOne (a : OrderedArray Val) : Move → Prop
  | .call _ .pop => a.next = 0 ∧ a.keys.getLast? = some (.int (-1))
  | _ => False

def GivesBackMinusOne (a : OrderedArray Val) : List Move → Prop
  | [] => False
  | m :: ms => m.GivesBackMinusOne a ∨ GivesBackMinusOne (m.target a) ms

theorem index_nonneg (n : Nat) : 0 ≤ index n := Int64.not_lt.1 (not_index_neg n)

theorem released_nonneg_iff {next : Int64} (hn : 0 ≤ next) (k : Key) :
    0 ≤ released next k ↔ ¬(next = 0 ∧ k = .int (-1)) := by
  cases k with
  | str s => simp [released, hn]
  | int i =>
    rw [released]
    split
    next hi =>
      obtain ⟨hmax, rfl⟩ := hi
      have hi := toInt_add_one hmax
      rw [Key.int.injEq]
      simp only [Int64.le_iff_toInt_le, ← Int64.toInt_inj, hi, Int64.toInt_zero] at hn ⊢
      have hone : (-1 : Int64).toInt = -1 := by decide
      rw [hone]
      omega
    next hi =>
      refine iff_of_true hn ?_
      rintro ⟨rfl, hk⟩
      cases Key.int.inj hk
      exact hi (by decide)

theorem next_slice_nonneg (a : OrderedArray Val) (offset : Int) (length? : Option Int) :
    0 ≤ (a.slice offset length?).next := by
  cases a with
  | packed vs => exact index_nonneg _
  | hash m n =>
    have hle := (advances_foldl_adopt (cut m.entries offset length?) ∅).next_le
    exact Int64.le_trans (index_nonneg 0) hle

theorem next_unshift_nonneg (a : OrderedArray Val) (v : Val) : 0 ≤ (a.unshift v).next := by
  cases a <;> exact index_nonneg _

/-- Removing the last element is where the next index may fall below zero. -/
theorem next_pop_nonneg_iff {a : OrderedArray Val} (ha : 0 ≤ a.next) (h : Heap) :
    0 ≤ (h.call a .pop).2.2.next ↔ ¬(a.next = 0 ∧ a.keys.getLast? = some (.int (-1))) := by
  rw [Heap.call_eq, Heap.outcome]
  cases a with
  | packed vs =>
    refine iff_of_true ?_ ?_
    · cases hr : (packed vs).pop? with
      | none => exact ha
      | some r =>
        obtain ⟨x, -, rfl⟩ := Option.map_eq_some_iff.1 hr
        exact index_nonneg _
    · -- positions are not negative
      rintro ⟨-, hk⟩
      obtain ⟨n, -, hn⟩ := int_mem_map_fst_enumerate.1 (List.mem_of_getLast? hk)
      exact absurd (hn ▸ index_nonneg n) (by decide)
  | hash m n =>
    have hkeys : (hash m n).keys.getLast? = m.entries.getLast?.map Prod.fst := List.getLast?_map
    have hv := map_view_pop? (a := hash m n) trivial
    change Option.map _ _ = m.entries.getLast?.map _ at hv
    rw [hkeys]
    cases he : m.entries.getLast? with
    | none =>
      rw [he, Option.map_none, Option.map_eq_none_iff] at hv
      rw [hv]
      exact iff_of_true ha (by simp)
    | some e =>
      rw [he, Option.map_some] at hv
      obtain ⟨r, hr, hv⟩ := Option.map_eq_some_iff.1 hv
      have hnext : r.2.next = released n e.1 := congrArg (·.2.2) hv
      rw [hr]
      change 0 ≤ r.2.next ↔ ¬(n = 0 ∧ some e.1 = some (.int (-1)))
      rw [hnext, Option.some_inj]
      exact released_nonneg_iff ha e.1

/-- A step leads below zero just if it gives back minus one. -/
theorem next_target_nonneg_iff {a : OrderedArray Val} (ha : 0 ≤ a.next) (m : Move) :
    0 ≤ (m.target a).next ↔ ¬m.GivesBackMinusOne a := by
  cases m with
  | slice offset length? => exact iff_of_true (next_slice_nonneg a offset length?) id
  | deepCopy h => exact iff_of_true (Int64.le_trans ha (advances_deepCopyArray h a).next_le) id
  | call h c =>
    cases hc : c.turnsBack with
    | false =>
      refine iff_of_true (Int64.le_trans ha (advances_call h a hc).next_le) ?_
      cases c with
      | pop => cases hc
      | _ => exact id
    | true =>
      cases c with
      | pop => exact next_pop_nonneg_iff ha h
      | unshift v =>
        refine iff_of_true ?_ id
        rw [Move.target, Heap.call_eq]
        exact next_unshift_nonneg a v
      | _ => cases hc

theorem next_visited_nonneg_iff {a : OrderedArray Val} (ha : 0 ≤ a.next) (ms : List Move) :
    (∀ b ∈ visited a ms, 0 ≤ b.next) ↔ ¬GivesBackMinusOne a ms := by
  induction ms generalizing a with
  | nil => exact iff_of_true (List.forall_mem_singleton.2 ha) id
  | cons m ms ih =>
    rw [visited, List.forall_mem_cons, GivesBackMinusOne, not_or, ← next_target_nonneg_iff ha m,
      and_iff_right ha]
    constructor
    · intro hv
      have hm : 0 ≤ (m.target a).next := by
        cases ms <;> exact hv _ List.mem_cons_self
      exact ⟨hm, (ih hm).1 hv⟩
    · rintro ⟨hm, hms⟩
      exact (ih hm).2 hms

/-- The next index is negative nowhere in a run that starts with a list, and no key that an append
would hand out is, just if no step of the run gives back minus one. -/
theorem nonneg_iff_not_givesBackMinusOne (l : List Val) (ms : List Move) :
    (∀ a ∈ visited (.ofList l) ms,
        0 ≤ a.next ∧ ∀ v i b, a.append? v = some (i, b) → 0 ≤ i) ↔
      ¬GivesBackMinusOne (.ofList l) ms := by
  have hl : 0 ≤ (ofList l).next := index_nonneg l.length
  rw [← next_visited_nonneg_iff hl]
  refine ⟨fun hv a ha => (hv a ha).1, fun hv a ha => ⟨hv a ha, fun v i b hr => ?_⟩⟩
  obtain ⟨rfl, -⟩ := of_append?_eq_some hr
  exact hv a ha

/-- Minus one is written and removed again; then an append hands it out. -/
theorem exists_negative_index : ∃ a : OrderedArray Val,
    a.Reachable ∧ a.next < 0 ∧ ∃ b, a.append? .null = some (-1, b) := by
  let written : OrderedArray Val := hash (.ofList [(.int (-1), .null)]) 0
  have hwritten : written.Reachable := (Reachable.ofList []).call {} (.set (.int (-1)) .null)
  have hremoved : (hash ∅ (-1)).Reachable := hwritten.call {} .pop
  exact ⟨hash ∅ (-1), hremoved, by decide, written, rfl⟩

end OrderedArray

end ObjectModel
