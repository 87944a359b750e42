import ObjectModel.Proofs.OrderedArray.Appending
/-!
# Keys that are handed out once

While nothing is removed at the end and nothing is put at the front of an array, the next index has
left behind every integer key that the array ever had. A key that appending returns is therefore
new to the whole run, and comes after those returned before. The end of the machine integers is an
exception: there the next index stands still, so that the greatest machine integer, once it has been
a key and was removed, is handed out again.
-/

namespace ObjectModel

namespace OrderedArray

/-- The keys of the array at a point of a run. -/
def heldKeys (o : Observation) : List Key := o.2.2.1.map Prod.fst

/-- The key that an append returned, if one led to a point of a run. -/
def appendedKey? (o : Observation) : Option Int64 :=
  match o.1 with
  | .index i? => i?
  | _ => none

/-- Whether the key that an append returned is new, seen from an earlier point: the array did not
have it there, and it comes after a key that an append returned there. -/
def HandsOutNew (earlier later : Observation) : Prop :=
  ∀ i, appendedKey? later = some i →
    Key.int i ∉ heldKeys earlier ∧ ∀ j, appendedKey? earlier = some j → j < i

variable {h : Heap} {a : OrderedArray Val} {o : Observation} {calls : List Call}

/-- An append returns the next index, which was free and is a key afterwards. -/
theorem of_appendedKey?_eq_some {c : Call} {i : Int64}
    (hi : appendedKey? (h.call a c).observe = some i) :
    i = a.next ∧ Key.int i ∉ a.keys ∧ Key.int i ∈ heldKeys (h.call a c).observe := by
  rw [Heap.call_eq] at hi ⊢
  cases c with
  | append v =>
    simp only [Heap.outcome] at hi ⊢
    cases hr : a.append? v with
    | none =>
      rw [hr] at hi
      cases hi
    | some r =>
      rw [hr] at hi
      obtain ⟨hn, hk, he, -⟩ := of_append?_eq_some (b := r.2) hr
      obtain rfl : r.1 = i := Option.some.inj hi
      refine ⟨hn, hn ▸ hk, ?_⟩
      change Key.int r.1 ∈ r.2.entries.map Prod.fst
      rw [he, List.map_append, hn]
      exact List.mem_append_right _ (List.mem_singleton_self _)
  | assign k v =>
    simp only [Heap.outcome] at hi
    split at hi <;> cases hi
  | _ => cases hi

/-- Seen from a point whose keys the next index has left behind, what is appended later is new. -/
theorem handsOutNew_of_isPassed (ho : ∀ i, appendedKey? o = some i → Key.int i ∈ heldKeys o)
    (hp : ∀ i, Key.int i ∈ heldKeys o → IsPassed a.next i)
    (hc : ∀ c ∈ calls, c.turnsBack = false) :
    ∀ o' ∈ h.observations a calls, HandsOutNew o o' ∨
      appendedKey? o' = some .maxValue ∧ Key.int .maxValue ∈ heldKeys o := by
  induction calls generalizing h a with
  | nil => nofun
  | cons c cs ih =>
    rw [List.forall_mem_cons] at hc
    have hadv := advances_call h a hc.1
    rw [Heap.observations_cons]
    refine List.forall_mem_cons.2 ⟨?_, ih (fun i hi => (hp i hi).of_le hadv.next_le) hc.2⟩
    rw [or_iff_not_imp_right, not_and]
    intro hmax i hi
    obtain ⟨rfl, -⟩ := of_appendedKey?_eq_some hi
    constructor
    · intro hk
      obtain hlt | hend := hp _ hk
      · exact Int64.lt_irrefl hlt
      · rw [hend] at hi hk
        exact hmax hi hk
    · intro j hj
      obtain hlt | hend := hp j (ho j hj)
      · exact hlt
      · rw [hend] at hi ⊢
        rw [lt_maxValue_iff]
        rintro rfl
        exact hmax hi (ho _ hj)

/-- The points of a run that does not turn the next index back, after a point at which the array had
the keys that it starts with. -/
theorem pairwise_observations (ho : ∀ i, appendedKey? o = some i → Key.int i ∈ heldKeys o)
    (hoa : heldKeys o = a.keys) (ha : a.AllPassed) (hc : ∀ c ∈ calls, c.turnsBack = false) :
    (o :: h.observations a calls).Pairwise fun earlier later => HandsOutNew earlier later ∨
      appendedKey? later = some .maxValue ∧ Key.int .maxValue ∈ heldKeys earlier := by
  induction calls generalizing o h a with
  | nil => exact List.pairwise_singleton _ _
  | cons c cs ih =>
    have hlater := handsOutNew_of_isPassed (h := h) ho (fun i hi => ha i (hoa ▸ hi)) hc
    rw [List.forall_mem_cons] at hc
    have ha' := (advances_call h a hc.1).allPassed ha
    rw [Heap.observations_cons] at hlater ⊢
    exact List.pairwise_cons.2
      ⟨hlater, ih (fun i hi => (of_appendedKey?_eq_some hi).2.2) rfl ha' hc.2⟩

/-- In a run that starts with a list and never turns the next index back, every key that an append
returns is greater than those returned before and was at no earlier point a key of the array, unless
it is the greatest machine integer and was a key at that point. -/
theorem appends_hand_out_new (h : Heap) (l : List Val) {calls : List Call}
    (hc : ∀ c ∈ calls, c.turnsBack = false) :
    List.Pairwise
      (fun earlier later => HandsOutNew earlier later ∨
        appendedKey? later = some .maxValue ∧ Key.int .maxValue ∈ heldKeys earlier)
      ((.done, h, (ofList l).view) :: h.observations (.ofList l) calls) :=
  pairwise_observations nofun rfl (allPassed_packed l) hc

/-- The keys of elements that were removed at the front and in the middle stay away. -/
theorem appends_hand_out_new_after_removals :
    let calls : List Call :=
      [.append .null, .shift, .unset (.int 1), .append .null, .set (.int 7) .null, .append .null]
    (∀ c ∈ calls, c.turnsBack = false) ∧
      List.Pairwise
        (fun earlier later => HandsOutNew earlier later ∨
          appendedKey? later = some .maxValue ∧ Key.int .maxValue ∈ heldKeys earlier)
        ((.done, {}, (ofList [.null]).view) :: ({} : Heap).observations (.ofList [.null]) calls) ∧
      (({} : Heap).observations (.ofList [.null]) calls).filterMap appendedKey? = [1, 2, 8] := by
  intro calls
  have hc : ∀ c ∈ calls, c.turnsBack = false := by decide
  exact ⟨hc, appends_hand_out_new {} [.null] hc, by decide⟩

/-- The greatest machine integer is handed out although it was a key before. -/
theorem exists_key_handed_out_again : ∃ calls : List Call,
    (∀ c ∈ calls, c.turnsBack = false) ∧
      ¬List.Pairwise HandsOutNew
        ((.done, {}, (ofList []).view) :: ({} : Heap).observations (.ofList []) calls) := by
  refine ⟨[.set (.int .maxValue) .null, .unset (.int .maxValue), .append .null], by decide, ?_⟩
  intro hp
  -- the append leads to the fourth point, and the key was there at the second
  have hnew := (List.pairwise_cons.1 (List.pairwise_cons.1 hp).2).1 _
    (List.mem_cons_of_mem _ List.mem_cons_self)
  exact (hnew .maxValue (by decide)).1 (by decide)

end OrderedArray

end ObjectModel
