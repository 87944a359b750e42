import ObjectModel.OrderedArray.InPlace
import ObjectModel.Proofs.OrderedArray.View
/-!
# Programs on stored arrays

Each program on a stored array does to it what the operation of that name does to the array: it
hands back the same, and what it leaves is the resulting array as it is stored. So the key of the
next appended element, which the programs carry along, is the number of elements as long as the
array is packed, and a program that refuses leaves the stored array as it was.
-/

namespace ObjectModel

universe u v

namespace OrderedMap

variable {κ : Type u} {α : Type v} [DecidableEq κ]

theorem takeEntry_eq {k : κ} {l : List (κ × α)} (h : (l.map Prod.fst).Nodup) :
    takeEntry k l = (l.lookup k, l.filter fun e => e.1 ≠ k) := by
  induction l with
  | nil => rfl
  | cons e l ih =>
    rw [List.map_cons, List.nodup_cons] at h
    rw [takeEntry, lookup_cons_ite, ih h.2]
    by_cases hk : e.1 = k
    · have hrest : (l.filter fun e => e.1 ≠ k) = l :=
        List.filter_eq_self.2 fun e' he' => by
          have hne : e'.1 ≠ k := fun he => h.1 (hk ▸ he ▸ List.mem_map_of_mem he')
          exact decide_eq_true hne
      rw [if_pos hk, if_pos hk.symm, List.filter_cons_of_neg (by simp [hk]), hrest]
    · rw [if_neg hk, if_neg (Ne.symm hk), List.filter_cons_of_pos (by simp [hk])]

/-- Taking an entry out is reading its value and removing it. -/
theorem take_eq (m : OrderedMap κ α) (k : κ) : m.take k = (m.get? k, m.erase k) := by
  have h : takeEntry k m.entries = (m.get? k, (m.erase k).entries) := takeEntry_eq m.nodup_keys
  rw [Prod.ext_iff] at h
  exact Prod.ext h.1 (OrderedMap.ext h.2)

theorem head?_insertMany {m : OrderedMap κ α} {e : κ × α} (h : m.entries.head? = some e)
    {l : List (κ × α)} (hl : e.1 ∉ l.map Prod.fst) :
    (m.insertMany l).entries.head? = some e := by
  induction l generalizing m with
  | nil => exact h
  | cons e' l ih =>
    rw [List.map_cons, List.mem_cons, not_or] at hl
    refine ih ?_ hl.2
    obtain ⟨rest, hm⟩ := List.head?_eq_some_iff.1 h
    rw [entries_insert, hm, insertEntry, if_neg hl.1]
    rfl

end OrderedMap

namespace OrderedArray

variable {α : Type u}

theorem succ_index_eq (n : Nat) : succ (index n) = index (n + 1) := by
  obtain h | h := Nat.lt_or_ge n 0x8000000000000000
  · exact succ_index h
  · rw [index_of_le h, index_of_le (by omega)]
    rfl

theorem index_ne_zero {n : Nat} (h : 1 ≤ n) : index n ≠ 0 := by
  obtain h' | h' := Nat.lt_or_ge n 0x8000000000000000
  · rw [ne_eq, ← Int64.toInt_inj, toInt_index h', Int64.toInt_zero]
    omega
  · rw [index_of_le h']
    decide

/-- The first element keeps its place when the elements are given explicit keys. -/
theorem head?_toMap (a : OrderedArray α) : a.toMap.entries.head? = a.entries.head? := by
  cases a with
  | hash m n => rfl
  | packed vs =>
    cases vs with
    | nil => rfl
    | cons x vs =>
      change (OrderedMap.ofList (enumerate (x :: vs))).entries.head? = (enumerate (x :: vs)).head?
      rw [enumerate_cons]
      refine OrderedMap.head?_insertMany
        (m := OrderedMap.empty.insert (Key.int 0) x) rfl fun h => ?_
      obtain ⟨i, hi, -, h0⟩ := exists_of_int_mem_renumber h
      exact absurd h0.symm (index_ne_zero hi)

end OrderedArray

namespace StoredArray

open OrderedArray (hash index nextAfter packed released renumber succ)

section Program

variable {σ β γ : Type}

theorem run_bind (p : StateM σ β) (f : β → StateM σ γ) (s : σ) :
    (p >>= f).run s = (f (p.run s).1).run (p.run s).2 := rfl

theorem run_get (s : σ) : (get : StateM σ σ).run s = (s, s) := rfl

theorem run_pure (x : β) (s : σ) : (pure x : StateM σ β).run s = (x, s) := rfl

end Program

variable {α : Type}

theorem run_putPacked (a : StoredArray α) (vs : List α) :
    (putPacked vs).run a = ((), (packed vs).stored) := rfl

theorem run_putHash (a : StoredArray α) (m : OrderedMap Key α) :
    (putHash m).run a = ((), (hash m a.nextFree).stored) := rfl

theorem run_putNext (a : StoredArray α) (n : Int64) :
    (putNext n).run a = ((), ⟨a.storage, n⟩) := rfl

theorem stored_packed (vs : List α) : (packed vs).stored = ⟨.packed vs, index vs.length⟩ := rfl

theorem stored_hash (m : OrderedMap Key α) (n : Int64) : (hash m n).stored = ⟨.hash m, n⟩ := rfl

variable (a : OrderedArray α)

@[simp] theorem nextFree_stored : a.stored.nextFree = a.next := by
  cases a with
  | packed vs => rfl
  | hash m n => rfl

@[simp] theorem toArray_stored : a.stored.toArray = a := by
  cases a with
  | packed vs => rfl
  | hash m n => rfl

theorem run_convertToHash (n : Int64) :
    convertToHash.run ⟨a.stored.storage, n⟩ = (a.toMap, (hash a.toMap n).stored) := by
  cases a with
  | packed vs => rfl
  | hash m n => rfl

theorem run_convertToHash_stored :
    convertToHash.run a.stored = (a.toMap, (hash a.toMap a.next).stored) := by
  rw [← run_convertToHash, ← nextFree_stored]

theorem run_insertHash (k : Key) (x : α) :
    (insertHash k x).run a.stored = ((), (a.insertHash k x).stored) := by
  rw [insertHash, run_bind, run_get, run_bind, run_putNext, run_bind, run_convertToHash,
    run_putHash, OrderedArray.insertHash, nextFree_stored, nextFree_stored, OrderedArray.next]

theorem run_insert (k : Key) (x : α) :
    (insert k x).run a.stored = ((), (a.insert k x).stored) := by
  cases a with
  | hash m n => exact run_insertHash (hash m n) k x
  | packed vs =>
    cases k with
    | str s =>
      exact run_insertHash (packed vs) (.str s) x
    | int i =>
      simp only [insert, OrderedArray.insert, stored_packed, run_bind, run_get]
      split
      · exact run_putPacked _ _
      · rw [← run_insertHash, stored_packed]

theorem run_modifyAt (k : Key) (f : α → α) :
    (modifyAt k f).run a.stored = ((), (a.modify k f).stored) := by
  cases a with
  | hash m n => cases k <;> rfl
  | packed vs =>
    cases k with
    | str s => rfl
    | int i =>
      have hlen : (if i < 0 then vs else vs.modify i.toInt.toNat f).length = vs.length := by
        split
        · rfl
        · exact List.length_modify f vs i.toInt.toNat
      rw [OrderedArray.modify, stored_packed, stored_packed, hlen]
      rfl

theorem run_append (x : α) :
    (append x).run a.stored =
      ((a.append? x).map Prod.fst, (((a.append? x).map Prod.snd).getD a).stored) := by
  cases a with
  | packed vs =>
    rw [OrderedArray.append?]
    by_cases h : vs.length < 0x8000000000000000
    · rw [if_pos h]
      simp only [append, stored_packed, run_bind, run_get, h, if_true, run_putPacked, run_pure,
        Option.map_some, Option.getD_some]
    · rw [if_neg h]
      simp only [append, stored_packed, run_bind, run_get, h, if_false, run_pure, Option.map_none,
        Option.getD_none]
  | hash m n =>
    rw [OrderedArray.append?]
    by_cases h : m.contains (.int n)
    · rw [if_pos h]
      simp only [append, stored_hash, run_bind, run_get, h, if_true, run_pure, Option.map_none,
        Option.getD_none]
    · rw [if_neg h]
      rw [Bool.not_eq_true] at h
      simp only [append, stored_hash, run_bind, run_get, h, Bool.false_eq_true, if_false,
        run_putHash, run_putNext, run_pure, Option.map_some, Option.getD_some]

theorem run_push (x : α) :
    (push x).run a.stored =
      ((a.push? x).map Prod.fst, (((a.push? x).map Prod.snd).getD a).stored) := by
  simp only [push, OrderedArray.push?, run_bind, run_append]
  cases a.append? x with
  | none => rfl
  | some r =>
    simp only [run_bind, run_get, run_pure, toArray_stored, Option.map_some, Option.getD_some]

theorem run_unset (k : Key) :
    (unset k).run a.stored = (a.toMap.get? k, (a.erase k).stored) := by
  simp only [unset, run_bind, run_convertToHash_stored, OrderedMap.take_eq, run_putHash, run_pure]
  rfl

theorem run_pop :
    pop.run a.stored = (a.pop?.map Prod.fst, ((a.pop?.map Prod.snd).getD a).stored) := by
  cases a with
  | packed vs =>
    simp only [pop, OrderedArray.pop?, stored_packed, run_bind, run_get]
    cases vs.getLast? with
    | none => rfl
    | some x =>
      simp only [run_bind, run_putPacked, run_pure, Option.map_some, Option.getD_some,
        stored_packed]
  | hash m n =>
    simp only [pop, OrderedArray.pop?, stored_hash, run_bind, run_get]
    cases m.entries.getLast? with
    | none => rfl
    | some e =>
      simp only [run_bind, run_putHash, run_get, run_putNext, run_pure, Option.map_some,
        Option.getD_some, stored_hash]

theorem run_shift :
    shift.run a.stored = (a.shift?.map Prod.fst, ((a.shift?.map Prod.snd).getD a).stored) := by
  have hempty : a.isEmpty ↔ a.entries.head? = none := by
    rw [OrderedArray.isEmpty, beq_iff_eq, List.head?_eq_none_iff, ← OrderedArray.length_entries,
      List.length_eq_zero_iff]
  simp only [shift, OrderedArray.shift?, OrderedArray.first?, run_bind, run_get, toArray_stored]
  cases he : a.entries.head? with
  | none =>
    rw [if_pos (hempty.2 he)]
    rfl
  | some e =>
    rw [if_neg fun h => Option.some_ne_none e (he ▸ hempty.1 h)]
    simp only [run_bind, run_convertToHash_stored, run_putHash, run_pure, OrderedArray.head?_toMap,
      he, Option.map_some]
    rfl

theorem renumberInto_index (m : OrderedMap Key α) (n : Nat) (l : List (Key × α)) :
    renumberInto m (index n) l =
      (m.insertMany (renumber n l), index (n + (l.filter fun e => e.1.isInt).length)) := by
  induction l generalizing m n with
  | nil => rfl
  | cons e l ih =>
    obtain ⟨k, x⟩ := e
    cases k with
    | str s =>
      rw [renumberInto, ih, OrderedArray.filter_isInt_cons_str]
      rfl
    | int i =>
      rw [renumberInto, OrderedArray.succ_index_eq, ih, OrderedArray.filter_isInt_cons_int,
        List.length_cons, Nat.add_right_comm, Nat.add_assoc]
      rfl

theorem run_unshift (x : α) :
    (unshift x).run a.stored = ((a.unshift x).size, (a.unshift x).stored) := by
  cases a with
  | packed vs =>
    simp only [unshift, stored_packed, run_bind, run_get, run_putPacked, run_pure]
    rfl
  | hash m n =>
    have hone : (1 : Int64) = index 1 := by decide
    have hrest := renumberInto_index (.ofList [(.int 0, x)]) 1 m.entries
    have hlist : (OrderedMap.ofList [(.int 0, x)]).insertMany (renumber 1 m.entries) =
        .ofList ((.int 0, x) :: renumber 1 m.entries) := rfl
    rw [← hone, Nat.add_comm, hlist] at hrest
    simp only [unshift, OrderedArray.unshift, stored_hash, run_bind, run_get, hrest, run_putHash,
      run_putNext, run_pure, toArray]

theorem run_adopt (e : Key × α) : (adopt e).run a.stored = ((), (a.adopt e).stored) := by
  obtain ⟨k, x⟩ := e
  cases k with
  | str s => exact run_insert a _ x
  | int i => exact congrArg (fun r => ((), r.2)) (run_append a x)

theorem run_merge (b : OrderedArray α) :
    (merge b).run a.stored = ((), (a.merge b).stored) := by
  rw [merge, OrderedArray.merge]
  induction b.entries generalizing a with
  | nil => rfl
  | cons e l ih =>
    change (l.forM adopt).run ((adopt e).run a.stored).2 = _
    rw [run_adopt, ih]
    rfl

/-- Whether the next index of a stored array that is packed is the number of its elements. -/
def IsCounted (a : StoredArray α) : Prop :=
  ∀ vs, a.storage = .packed vs → a.nextFree = index vs.length

theorem isCounted_stored : a.stored.IsCounted := by
  cases a with
  | packed vs =>
    intro vs' h
    cases h
    rfl
  | hash m n => nofun

theorem IsCounted.stored_toArray {a : StoredArray α} (h : a.IsCounted) : a.toArray.stored = a := by
  obtain ⟨s, n⟩ := a
  cases s with
  | packed vs => exact congrArg (StoredArray.mk (.packed vs)) (h vs rfl).symm
  | hash m => rfl

end StoredArray

end ObjectModel
