import ObjectModel.Proofs.OrderedArray.Forms
import ObjectModel.Proofs.OrderedArray.NextIndex
/-!
# Appending to an array

Whatever has been done to an array, its next index is past every integer key but one: the greatest
machine integer may be a key although the next index has come to its end or, since removing the last
element hands its key out again, lies before it. So the next index is a free key unless it is the
greatest machine integer and this one is taken. Appending and removing the last element are inverse
to one another for every array on which appending succeeds.
-/

namespace ObjectModel

namespace OrderedArray

universe u

variable {α : Type u} {a b : OrderedArray α}

/-- Whether every integer key is before the next index or is the greatest machine integer. -/
def KeysBelowNext (a : OrderedArray α) : Prop :=
  ∀ i, Key.int i ∈ a.keys → i < a.next ∨ i = .maxValue

theorem IsPassed.lt_or_eq {next i : Int64} (h : IsPassed next i) : i < next ∨ i = .maxValue := by
  obtain h | rfl := h
  · exact .inl h
  · rw [lt_maxValue_iff]
    exact (Decidable.em _).symm

theorem AllPassed.keysBelowNext (ha : a.AllPassed) : a.KeysBelowNext :=
  fun i hi => (ha i hi).lt_or_eq

namespace KeysBelowNext

theorem of_advances (ha : a.KeysBelowNext) (h : a.Advances b) : b.KeysBelowNext := by
  intro i hi
  obtain hi | hi := h.mem_or i hi
  · exact (ha i hi).imp (fun hlt => Int64.lt_of_lt_of_le hlt h.next_le) id
  · exact hi.lt_or_eq

/-- The key that becomes free again is the greatest of those before the next index, and it is gone. -/
theorem of_released {k : Key} (ha : a.KeysBelowNext) (hnd : a.keys.Nodup)
    (hk : a.keys = b.keys ++ [k]) (hn : b.next = released a.next k) : b.KeysBelowNext := by
  intro i hi
  rw [hk] at hnd
  have hne : Key.int i ≠ k := (List.nodup_append.1 hnd).2.2 _ hi _ (List.mem_singleton_self k)
  have hai := ha i (hk ▸ List.mem_append_left _ hi)
  rw [hn]
  cases k with
  | str s => exact hai
  | int j =>
    rw [released]
    split
    next hj =>
      refine hai.imp (fun hlt => ?_) id
      rw [← hj.2, Int64.lt_iff_toInt_lt, toInt_add_one hj.1] at hlt
      have hij : i.toInt ≠ j.toInt := fun he => hne (congrArg Key.int (Int64.toInt_inj.1 he))
      rw [Int64.lt_iff_toInt_lt]
      omega
    next => exact hai

theorem of_pop? {r : α × OrderedArray α} (ha : a.KeysBelowNext) (h : a.pop? = some r) :
    r.2.KeysBelowNext := by
  obtain ⟨k, hk, hr | hr⟩ := of_pop?_eq_some h
  · exact hr.keysBelowNext
  · cases a with
    | hash m n => exact ha.of_released m.nodup_keys hk hr
    | packed vs =>
      obtain ⟨x, -, rfl⟩ := Option.map_eq_some_iff.1 h
      exact (allPassed_packed _).keysBelowNext

end KeysBelowNext

theorem keysBelowNext_slice (a : OrderedArray α) (offset : Int) (length? : Option Int) :
    (a.slice offset length?).KeysBelowNext := by
  cases a with
  | packed vs => exact (allPassed_packed _).keysBelowNext
  | hash m n =>
    exact ((advances_foldl_adopt _ ∅).allPassed (allPassed_packed [])).keysBelowNext

theorem advances_mapAccum {σ : Type u} (f : σ → α → σ × α) (s : σ) (a : OrderedArray α) :
    a.Advances (a.mapAccum f s).2 := by
  cases a with
  | packed vs =>
    refine .of_subset (fun k hk => ?_) ?_
    · change k ∈ (enumerate (ObjectModel.mapAccum f s vs).2).map Prod.fst at hk
      rw [map_fst_enumerate, length_mapAccum, ← map_fst_enumerate] at hk
      exact hk
    · exact congrArg index (length_mapAccum s vs)
  | hash m n =>
    refine .of_subset (fun k hk => ?_) rfl
    change k ∈ (m.mapAccum f s).2.keys at hk
    rwa [OrderedMap.keys_mapAccum] at hk

theorem advances_deepCopyArray (h : Heap) (a : OrderedArray Val) :
    a.Advances (h.deepCopyArray a).2 :=
  advances_mapAccum (Heap.copyWithin h.copyDepth) { heap := h } a

/-- Whether a call may turn the next index back. -/
def Call.turnsBack : Call → Bool
  | .pop | .unshift _ => true
  | _ => false

/-- All other calls advance. -/
theorem advances_call (h : Heap) (a : OrderedArray Val) {c : Call} (hc : c.turnsBack = false) :
    a.Advances (h.call a c).2.2 := by
  rw [Heap.call_eq]
  cases c with
  | set k v => exact advances_insert a k v
  | assign k v =>
    simp only [Heap.outcome]
    cases a.get? k with
    | none => exact .refl a
    | some old => exact advances_modify a k _
  | append v =>
    simp only [Heap.outcome]
    cases hr : a.append? v with
    | none => exact .refl a
    | some r => exact advances_of_append? hr
  | push v =>
    simp only [Heap.outcome, push?]
    cases hr : a.append? v with
    | none => exact .refl a
    | some r => exact advances_of_append? hr
  | unset k => exact advances_erase a k
  | pop => cases hc
  | shift =>
    simp only [Heap.outcome]
    cases hr : a.shift? with
    | none => exact .refl a
    | some r => exact advances_of_shift? hr
  | unshift v => cases hc
  | merge other => exact advances_foldl_adopt other.entries a
  | _ => exact .refl a

theorem KeysBelowNext.call {a : OrderedArray Val} (ha : a.KeysBelowNext) (h : Heap) (c : Call) :
    (h.call a c).2.2.KeysBelowNext := by
  cases hc : c.turnsBack with
  | false => exact ha.of_advances (advances_call h a hc)
  | true =>
    rw [Heap.call_eq]
    cases c with
    | pop =>
      simp only [Heap.outcome]
      cases hr : a.pop? with
      | none => exact ha
      | some r => exact ha.of_pop? hr
    | unshift v => exact (allPassed_unshift a v).keysBelowNext
    | _ => cases hc

/-- Whether an array comes from a list by calls, by taking slices and by copying. The heap may be
any at each of these. -/
inductive Reachable : OrderedArray Val → Prop
  | ofList (l : List Val) : Reachable (.ofList l)
  | call {a : OrderedArray Val} (ha : Reachable a) (h : Heap) (c : Call) :
    Reachable (h.call a c).2.2
  | slice {a : OrderedArray Val} (ha : Reachable a) (offset : Int) (length? : Option Int) :
    Reachable (a.slice offset length?)
  | deepCopy {a : OrderedArray Val} (ha : Reachable a) (h : Heap) :
    Reachable (h.deepCopyArray a).2

theorem Reachable.keysBelowNext {a : OrderedArray Val} (ha : a.Reachable) : a.KeysBelowNext := by
  induction ha with
  | ofList l => exact (allPassed_packed l).keysBelowNext
  | call _ h c ih => exact ih.call h c
  | slice _ offset length? _ => exact keysBelowNext_slice _ offset length?
  | deepCopy _ h ih => exact ih.of_advances (advances_deepCopyArray h _)

/-- The next index of a reachable array is taken only at the end of the machine integers. -/
theorem Reachable.append?_eq_none_iff {a : OrderedArray Val} (ha : a.Reachable) {v : Val} :
    a.append? v = none ↔ a.next = .maxValue ∧ Key.int .maxValue ∈ a.keys := by
  rw [OrderedArray.append?_eq_none_iff]
  constructor
  · intro hk
    have hmax : a.next = .maxValue := (ha.keysBelowNext _ hk).resolve_left Int64.lt_irrefl
    exact ⟨hmax, hmax ▸ hk⟩
  · rintro ⟨hmax, hk⟩
    rwa [hmax]

theorem released_succ (i : Int64) : released (succ i) (.int i) = i := by
  rw [released, succ]
  split <;> simp_all

/-- Removing the last element undoes appending, whatever the array. -/
theorem pop?_of_append?_eq_some {x : α} {i : Int64} (h : a.append? x = some (i, b)) :
    b.pop? = some (x, a) := by
  cases a with
  | packed vs =>
    obtain ⟨-, hb⟩ := Option.ite_none_right_eq_some.1 h
    cases hb
    rw [pop?, List.getLast?_concat, List.dropLast_concat]
    rfl
  | hash m n =>
    obtain ⟨hk, hb⟩ := Option.ite_none_left_eq_some.1 h
    cases hb
    have he := OrderedMap.entries_insert_of_notMem x (mt OrderedMap.contains_iff.2 hk)
    have hm : (m.insert (.int i) x).dropLast = m :=
      OrderedMap.ext ((congrArg List.dropLast he).trans List.dropLast_concat)
    rw [pop?, he, List.getLast?_concat, Option.map_some, hm]
    exact congrArg (fun next => some (x, hash m next)) (released_succ i)

/-- Appending to a reachable array fails just if the next index is the greatest machine integer and
is taken, and then nothing changes. Otherwise it returns the next index, which is no key yet, and
adds one entry under it behind all others; removing the last element right after that yields the
value and gives the array back as it was. -/
theorem Reachable.pop_after_append {a : OrderedArray Val} (ha : a.Reachable) (h : Heap) (v : Val) :
    if a.next = .maxValue ∧ Key.int .maxValue ∈ a.keys then
      h.call a (.append v) = (.index none, h, a)
    else Key.int a.next ∉ a.keys ∧ ∃ b, h.call a (.append v) = (.index (some a.next), h, b) ∧
      b.entries = a.entries ++ [(.int a.next, v)] ∧ h.call b .pop = (.value (some v), h, a) := by
  split
  next htaken =>
    rw [Heap.call_eq, Heap.outcome, ha.append?_eq_none_iff.2 htaken]
    rfl
  next hfree =>
    obtain ⟨⟨i, b⟩, hr⟩ := Option.ne_none_iff_exists'.1 (mt ha.append?_eq_none_iff.1 hfree)
    obtain ⟨rfl, hk, he, -⟩ := of_append?_eq_some hr
    refine ⟨hk, b, ?_, he, ?_⟩
    · rw [Heap.call_eq, Heap.outcome, hr]
      rfl
    · rw [Heap.call_eq, Heap.outcome, pop?_of_append?_eq_some hr]
      rfl

/-- The greatest machine integer is taken, and the key before it was handed out and given back. -/
theorem pop_after_append_below_maximum :
    let a : OrderedArray Val := hash (.ofList [(.int .maxValue, .null)]) (.maxValue - 1)
    let h : Heap := {}
    a.Reachable ∧ ∃ b, h.call a (.append (.bool true)) = (.index (some (.maxValue - 1)), h, b) ∧
      b.entries = [(.int .maxValue, .null), (.int (.maxValue - 1), .bool true)] ∧
      h.call b .pop = (.value (some (.bool true)), h, a) := by
  intro a h
  have hset := ((Reachable.ofList []).call h (.set (.int .maxValue) .null)).call h
    (.set (.int (.maxValue - 1)) .null)
  have ha : a.Reachable := hset.call h .pop
  have hfree : ¬(a.next = .maxValue ∧ Key.int .maxValue ∈ a.keys) := by decide
  have happend := ha.pop_after_append h (.bool true)
  rw [if_neg hfree] at happend
  exact ⟨ha, happend.2⟩

end OrderedArray

end ObjectModel
