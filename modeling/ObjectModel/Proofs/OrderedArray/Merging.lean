import ObjectModel.Proofs.OrderedArray.Appending
/-!
# Merging arrays

Merging overwrites the values of the string keys that both arrays have, where they stand, and adds
the other entries at the end in their order. Added string keys stay as they are; added integer keys
are numbered from the next index on. Numbering comes to an end with the machine integers: an array
has room for so many elements under integer keys, and what the other array has beyond that is lost.
-/

namespace ObjectModel

namespace OrderedArray

universe u

variable {α : Type u} {a b : OrderedArray α}

/-- An entry with the value that a list has for its key, if the key is a string. -/
def overwrite (l : List (Key × α)) (e : Key × α) : Key × α :=
  match e.1 with
  | .int _ => e
  | .str s => (.str s, (l.lookup (.str s)).getD e.2)

/-- Whether merging adds an entry: its key is an integer, or a string that is no key yet. -/
def isAdded (a : OrderedArray α) (e : Key × α) : Bool := e.1.isInt || decide (e.1 ∉ a.keys)

theorem isAdded_str_iff {s : Bytes} {x : α} :
    a.isAdded (.str s, x) = true ↔ Key.str s ∉ a.keys := by
  simp [isAdded, Key.isInt]

/-- Gives the integer keys of a list of entries the numbers from `n` on, in order. -/
def numberFrom (n : Int64) : List (Key × α) → List (Key × α)
  | [] => []
  | (.int _, x) :: l => (.int n, x) :: numberFrom (n + 1) l
  | (.str s, x) :: l => (.str s, x) :: numberFrom n l

/-- The entries that are left of a list when those with integer keys go after the first `n`. -/
def keepInts (n : Nat) : List (Key × α) → List (Key × α)
  | [] => []
  | (.int i, x) :: l =>
    match n with
    | 0 => keepInts 0 l
    | n + 1 => (.int i, x) :: keepInts n l
  | (.str s, x) :: l => (.str s, x) :: keepInts n l

/-- The number of elements that an array can take under integer keys: the machine integers from the
next index on, without the greatest one if it is a key already. -/
def room (a : OrderedArray α) : Nat :=
  ((if Key.int .maxValue ∈ a.keys then Int64.maxValue.toInt else Int64.maxValue.toInt + 1) -
    a.next.toInt).toNat

example : (hash (.ofList [(.int 7, true)]) (.maxValue - 1)).room = 2 := by decide

theorem keepInts_sublist (n : Nat) (l : List (Key × α)) : (keepInts n l).Sublist l := by
  induction l generalizing n with
  | nil => exact .slnil
  | cons e l ih =>
    obtain ⟨k, x⟩ := e
    cases k with
    | str s => exact (ih n).cons_cons _
    | int i =>
      cases n with
      | zero => exact (ih 0).cons _
      | succ n => exact (ih n).cons_cons _

/-- Nothing goes just if there are no more integer keys than are kept. -/
theorem keepInts_eq_self_iff {n : Nat} {l : List (Key × α)} :
    keepInts n l = l ↔ (l.filter fun e => e.1.isInt).length ≤ n := by
  induction l generalizing n with
  | nil => simp [keepInts]
  | cons e l ih =>
    obtain ⟨k, x⟩ := e
    cases k with
    | str s =>
      rw [keepInts, List.cons_inj_right, ih, filter_isInt_cons_str]
    | int i =>
      rw [filter_isInt_cons_int, List.length_cons]
      cases n with
      | zero =>
        refine iff_of_false (fun he => ?_) (by omega)
        have hle := (keepInts_sublist 0 l).length_le
        rw [keepInts] at he
        rw [he, List.length_cons] at hle
        omega
      | succ n => rw [keepInts, List.cons_inj_right, ih, Nat.add_le_add_iff_right]

/-- Where no integer key is kept there is nothing to number. -/
theorem numberFrom_keepInts_zero (m n : Int64) (p : Key × α → Bool) (l : List (Key × α)) :
    numberFrom m ((keepInts 0 l).filter p) = numberFrom n ((keepInts 0 l).filter p) := by
  induction l with
  | nil => rfl
  | cons e l ih =>
    obtain ⟨k, x⟩ := e
    cases k with
    | int i => exact ih
    | str s =>
      rw [keepInts, List.filter_cons]
      split
      · rw [numberFrom, numberFrom, ih]
      · exact ih

theorem overwrite_str (l : List (Key × α)) (s : Bytes) (x : α) :
    overwrite l (.str s, x) = (.str s, (l.lookup (.str s)).getD x) := rfl

/-- An entry stays as it is if its key is not on the list. -/
theorem overwrite_of_notMem {k : Key} {l : List (Key × α)} (h : k ∉ l.map Prod.fst) (x : α) :
    overwrite l (k, x) = (k, x) := by
  cases k with
  | int i => rfl
  | str s => rw [overwrite_str, OrderedMap.lookup_eq_none_iff_notMem.2 h, Option.getD_none]

/-- Only the entry with the same string key is overwritten by the first of a list. -/
theorem overwrite_cons_of_ne {k k' : Key} (h : k ≠ k') (x y : α) (l : List (Key × α)) :
    overwrite ((k', x) :: l) (k, y) = overwrite l (k, y) := by
  cases k with
  | int i => rfl
  | str s => rw [overwrite_str, overwrite_str, OrderedMap.lookup_cons_ite, if_neg h]

theorem overwrite_cons_int (i : Int64) (x : α) (l : List (Key × α)) :
    overwrite ((.int i, x) :: l) = overwrite l := by
  funext ⟨k, y⟩
  cases k with
  | int j => rfl
  | str s => exact overwrite_cons_of_ne (by simp) x y l

/-- Writing a string key that comes only once overwrites its value or adds an entry. -/
theorem map_overwrite_insertEntry {s : Bytes} {l es : List (Key × α)} (x : α)
    (hs : Key.str s ∉ l.map Prod.fst) (hes : (es.map Prod.fst).Nodup) :
    (OrderedMap.insertEntry (.str s) x es).map (overwrite l) =
      es.map (overwrite ((.str s, x) :: l)) ++
        if Key.str s ∈ es.map Prod.fst then [] else [(.str s, x)] := by
  induction es with
  | nil => simp [OrderedMap.insertEntry, overwrite_of_notMem hs]
  | cons e es ih =>
    obtain ⟨k, y⟩ := e
    rw [List.map_cons, List.nodup_cons] at hes
    rw [OrderedMap.insertEntry]
    split
    next hk =>
      obtain rfl : k = .str s := hk
      have hfirst : overwrite ((.str s, x) :: l) (.str s, y) = (.str s, x) := by
        rw [overwrite_str, OrderedMap.lookup_cons_ite, if_pos rfl, Option.getD_some]
      have hrest : es.map (overwrite ((.str s, x) :: l)) = es.map (overwrite l) := by
        refine List.map_congr_left fun e he => overwrite_cons_of_ne (fun hk => ?_) x e.2 l
        exact hes.1 (List.mem_map.2 ⟨e, he, hk⟩)
      have hmem : Key.str s ∈ ((Key.str s, y) :: es).map Prod.fst := List.mem_cons_self
      rw [List.map_cons, overwrite_of_notMem hs, List.map_cons, hfirst, hrest, if_pos hmem,
        List.append_nil]
    next hk =>
      have hmem : Key.str s ∈ ((k, y) :: es).map Prod.fst ↔ Key.str s ∈ es.map Prod.fst := by
        rw [List.map_cons, List.mem_cons, or_iff_right (Ne.symm hk)]
      simp only [hmem]
      rw [List.map_cons, ih hes.2, List.map_cons, overwrite_cons_of_ne hk, List.cons_append]

/-- There is no room just if the next index is taken. -/
theorem KeysBelowNext.room_eq_zero_iff (ha : a.KeysBelowNext) :
    a.room = 0 ↔ Key.int a.next ∈ a.keys := by
  have hlt := a.next.toInt_lt
  rw [room, toInt_maxValue]
  split
  next hmax =>
    constructor
    · intro hroom
      have hnext : a.next = .maxValue := by
        rw [← Int64.toInt_inj, toInt_maxValue]
        omega
      rwa [hnext]
    · intro hk
      have hnext := (ha _ hk).resolve_left Int64.lt_irrefl
      rw [hnext, toInt_maxValue]
      rfl
  next hmax =>
    refine iff_of_false (by omega) fun hk => ?_
    have hnext := (ha _ hk).resolve_left Int64.lt_irrefl
    exact hmax (hnext ▸ hk)

/-- An array whose next index is appended as a key has room for one element less. -/
theorem room_eq_succ (hk : Key.int a.next ∉ a.keys) {x : α}
    (he : b.entries = a.entries ++ [(.int a.next, x)]) (hn : b.next = succ a.next) :
    a.room = b.room + 1 := by
  have hlt := a.next.toInt_lt
  have hkeys : b.keys = a.keys ++ [.int a.next] := by rw [keys, he, List.map_append]; rfl
  rw [room, room, hkeys, hn, succ, toInt_maxValue]
  by_cases hmax : a.next = .maxValue
  · rw [if_pos hmax, if_neg (hmax ▸ hk), if_pos (by simp [hmax]), hmax, toInt_maxValue]
    rfl
  · have hlt' := lt_maxValue_iff.2 hmax
    rw [Int64.lt_iff_toInt_lt, toInt_maxValue] at hlt'
    have hmem : Key.int .maxValue ∈ a.keys ++ [.int a.next] ↔ Key.int .maxValue ∈ a.keys := by
      simp [Ne.symm hmax]
    simp only [hmem]
    rw [if_neg hmax, toInt_add_one hmax]
    split <;> omega

theorem room_congr (h : a.view = b.view) : a.room = b.room := by
  obtain ⟨he, hn⟩ := view_eq_iff.1 h
  rw [room, room, keys, keys, he, hn]

def HasDistinctStrings (l : List (Key × α)) : Prop :=
  l.Pairwise fun e e' => e.1 = e'.1 → e.1.isInt

theorem hasDistinctStrings_entries (a : OrderedArray α) : HasDistinctStrings a.entries := by
  cases a with
  | packed vs =>
    exact List.pairwise_of_forall_mem_list fun e he _ _ _ => isInt_of_mem_enumerate he
  | hash m n =>
    exact (List.pairwise_map.1 m.nodup_keys).imp fun hne he => absurd he hne

/-- The entries of an array that has taken over a list of entries: the old ones with overwritten
values, and then those that are added, as far as there is room for them. -/
def mergedEntries (a : OrderedArray α) (l : List (Key × α)) : List (Key × α) :=
  a.entries.map (overwrite l) ++ numberFrom a.next ((keepInts a.room l).filter a.isAdded)

/-- What is added depends on the string keys only. -/
theorem filter_isAdded_congr {l : List (Key × α)}
    (h : ∀ e ∈ l, ∀ s, e.1 = .str s → (Key.str s ∈ a.keys ↔ Key.str s ∈ b.keys)) :
    l.filter a.isAdded = l.filter b.isAdded := by
  refine List.filter_congr fun ⟨k, x⟩ he => ?_
  cases k with
  | int i => rfl
  | str s => simp only [isAdded, h _ he s rfl]

/-- An element that is refused is left out. -/
theorem mergedEntries_adopt_of_mem (hb : a.Bounded) (ha : a.KeysBelowNext)
    (hk : Key.int a.next ∈ a.keys) (i : Int64) (x : α) (l : List (Key × α)) :
    mergedEntries (a.adopt (.int i, x)) l = mergedEntries a ((.int i, x) :: l) := by
  have hview : (a.adopt (.int i, x)).view = a.view := (view_adopt hb _).trans (if_pos hk)
  obtain ⟨he, hn⟩ := view_eq_iff.1 hview
  have hadded : (keepInts 0 l).filter (a.adopt (.int i, x)).isAdded =
      (keepInts 0 l).filter a.isAdded :=
    filter_isAdded_congr fun _ _ s _ => by rw [keys, he]; rfl
  rw [mergedEntries, mergedEntries, overwrite_cons_int, room_congr hview, he, hn,
    ha.room_eq_zero_iff.2 hk, hadded]
  rfl

/-- An element that is appended comes under the first number. -/
theorem mergedEntries_adopt_of_notMem (hb : a.Bounded) (hk : Key.int a.next ∉ a.keys) (i : Int64)
    (x : α) (l : List (Key × α)) :
    mergedEntries (a.adopt (.int i, x)) l = mergedEntries a ((.int i, x) :: l) := by
  have hview := (view_adopt hb (.int i, x)).trans (if_neg hk)
  generalize a.adopt (.int i, x) = c at hview ⊢
  have he : c.entries = a.entries ++ [(.int a.next, x)] := congrArg Prod.fst hview
  have hn : c.next = succ a.next := congrArg Prod.snd hview
  have hroom := room_eq_succ hk he hn
  have hkeys : c.keys = a.keys ++ [.int a.next] := by rw [keys, he, List.map_append]; rfl
  have hadded : (keepInts c.room l).filter c.isAdded = (keepInts c.room l).filter a.isAdded :=
    filter_isAdded_congr fun _ _ s _ => by simp [hkeys]
  -- the numbers go on as long as there is room
  have hnumber : numberFrom (succ a.next) ((keepInts c.room l).filter a.isAdded) =
      numberFrom (a.next + 1) ((keepInts c.room l).filter a.isAdded) := by
    rw [succ]
    split
    next hmax =>
      have hzero : c.room = 0 := by
        have hle : a.room ≤ 1 := by
          rw [room, hmax, if_neg (hmax ▸ hk)]
          decide
        omega
      rw [hzero]
      exact numberFrom_keepInts_zero _ _ _ l
    next => rfl
  rw [mergedEntries, mergedEntries, overwrite_cons_int, hroom, he, hn, hadded, hnumber,
    List.map_append, List.append_assoc]
  rfl

/-- A string key is overwritten, or added if it is new. -/
theorem mergedEntries_adopt_str (hb : a.Bounded) {s : Bytes} {l : List (Key × α)}
    (hs : Key.str s ∉ l.map Prod.fst) (x : α) :
    mergedEntries (a.adopt (.str s, x)) l = mergedEntries a ((.str s, x) :: l) := by
  have hview : (a.adopt (.str s, x)).view = (OrderedMap.insertEntry (.str s) x a.entries, a.next) :=
    view_adopt hb _
  generalize a.adopt (.str s, x) = c at hview ⊢
  have he : c.entries = OrderedMap.insertEntry (.str s) x a.entries := congrArg Prod.fst hview
  have hn : c.next = a.next := congrArg Prod.snd hview
  have hmem (k : Key) : k ∈ c.keys ↔ k = .str s ∨ k ∈ a.keys := by
    rw [keys, he, OrderedMap.mem_map_fst_insertEntry]
    rfl
  have hroom : c.room = a.room := by
    simp [room, hmem, hn]
  have hadded : (keepInts a.room l).filter c.isAdded = (keepInts a.room l).filter a.isAdded := by
    refine filter_isAdded_congr fun e hmem' t ht => ?_
    have hne : Key.str t ≠ .str s := by
      rintro h
      exact hs (List.mem_map.2 ⟨e, (keepInts_sublist _ l).subset hmem', ht.trans h⟩)
    rw [hmem, or_iff_right hne]
  rw [mergedEntries, mergedEntries, he, map_overwrite_insertEntry x hs hb.nodup_keys, hroom, hadded,
    hn, keepInts, List.filter_cons, List.append_assoc]
  by_cases hk : Key.str s ∈ a.entries.map Prod.fst
  · rw [if_pos hk, if_neg (mt isAdded_str_iff.1 (not_not_intro hk)), List.nil_append]
  · rw [if_neg hk, if_pos (isAdded_str_iff.2 hk)]
    rfl

/-- What becomes of an array that takes over a list of entries in which no string key comes
twice. -/
theorem entries_foldl_adopt (hb : a.Bounded) (ha : a.KeysBelowNext) {l : List (Key × α)}
    (hl : HasDistinctStrings l) : (l.foldl adopt a).entries = mergedEntries a l := by
  induction l generalizing a with
  | nil =>
    have hid : a.entries.map (overwrite []) = a.entries :=
      (List.map_congr_left fun e _ => overwrite_of_notMem List.not_mem_nil e.2).trans
        (List.map_id _)
    rw [mergedEntries, hid]
    exact (List.append_nil _).symm
  | cons e l ih =>
    obtain ⟨k, x⟩ := e
    obtain ⟨hfirst, hl⟩ := List.pairwise_cons.1 hl
    rw [List.foldl_cons, ih (hb.adopt _) (ha.of_advances (advances_adopt a _)) hl]
    cases k with
    | int i =>
      by_cases hk : Key.int a.next ∈ a.keys
      · exact mergedEntries_adopt_of_mem hb ha hk i x l
      · exact mergedEntries_adopt_of_notMem hb hk i x l
    | str s =>
      refine mergedEntries_adopt_str hb (fun hs => ?_) x
      obtain ⟨e, he, hk⟩ := List.mem_map.1 hs
      cases hfirst e he hk.symm

theorem length_numberFrom (n : Int64) (l : List (Key × α)) :
    (numberFrom n l).length = l.length := by
  induction l generalizing n with
  | nil => rfl
  | cons e l ih =>
    obtain ⟨k, x⟩ := e
    cases k <;> rw [numberFrom, List.length_cons, List.length_cons, ih]

theorem length_filter_isInt_keepInts_le (n : Nat) (l : List (Key × α)) :
    ((keepInts n l).filter fun e => e.1.isInt).length ≤ n := by
  induction l generalizing n with
  | nil => exact Nat.zero_le n
  | cons e l ih =>
    obtain ⟨k, x⟩ := e
    cases k with
    | str s =>
      rw [keepInts, filter_isInt_cons_str]
      exact ih n
    | int i =>
      cases n with
      | zero => exact ih 0
      | succ n =>
        rw [keepInts, filter_isInt_cons_int, List.length_cons]
        exact Nat.succ_le_succ (ih n)

/-- Among the entries that are added are all those with integer keys. -/
theorem filter_isInt_filter_isAdded (a : OrderedArray α) (l : List (Key × α)) :
    ((l.filter a.isAdded).filter fun e => e.1.isInt) = l.filter fun e => e.1.isInt := by
  rw [List.filter_filter]
  refine List.filter_congr fun e _ => ?_
  cases hi : e.1.isInt <;> simp [isAdded, hi]

/-- If as many entries are added as there are on the list, then none of them was left out. -/
theorem length_ints_le_of_length_eq {n : Nat} {l : List (Key × α)}
    (h : ((keepInts n l).filter a.isAdded).length = (l.filter a.isAdded).length) :
    (l.filter fun e => e.1.isInt).length ≤ n := by
  have hsub := (keepInts_sublist n l).filter a.isAdded
  rw [← filter_isInt_filter_isAdded a l, ← hsub.eq_of_length h, filter_isInt_filter_isAdded]
  exact length_filter_isInt_keepInts_le n l

theorem map_fst_map_overwrite (l es : List (Key × α)) :
    (es.map (overwrite l)).map Prod.fst = es.map Prod.fst := by
  rw [List.map_map]
  refine List.map_congr_left fun ⟨k, x⟩ _ => ?_
  cases k <;> rfl

theorem Bounded.foldl_adopt (h : a.Bounded) (l : List (Key × α)) :
    (l.foldl OrderedArray.adopt a).Bounded :=
  List.foldlRecOn l OrderedArray.adopt h fun _ hb e _ => hb.adopt e

/-- No key under which an entry is added was a key before. -/
theorem notMem_keys_of_added (hb : a.Bounded) {l es : List (Key × α)}
    (h : (l.foldl adopt a).entries = a.entries.map (overwrite l) ++ es) :
    ∀ e ∈ es, e.1 ∉ a.keys := by
  intro e he hk
  have hnodup := (hb.foldl_adopt l).nodup_keys
  rw [keys, h, List.map_append, map_fst_map_overwrite] at hnodup
  exact (List.nodup_append.1 hnodup).2.2 e.1 hk e.1 (List.mem_map_of_mem he) rfl

/-- Merging an array into a reachable one keeps the old entries in their order, with the values of
the other array under the string keys that both have, and adds the other entries in their order
under new keys, where integer keys are numbered from the next index on, as far as there is room. It
loses nothing just if there is room for every element that the other array has under an integer
key. -/
theorem Reachable.merge_loses_nothing_iff {a : OrderedArray Val} (ha : a.Reachable)
    (hb : a.Bounded) (b : OrderedArray Val) :
    let added := numberFrom a.next ((keepInts a.room b.entries).filter a.isAdded)
    (a.merge b).entries = a.entries.map (overwrite b.entries) ++ added ∧
      (∀ e ∈ added, e.1 ∉ a.keys) ∧
      ((a.merge b).entries = a.entries.map (overwrite b.entries) ++
          numberFrom a.next (b.entries.filter a.isAdded) ↔
        (b.entries.filter fun e => e.1.isInt).length ≤ a.room) := by
  intro added
  have hmerge := entries_foldl_adopt hb ha.keysBelowNext (hasDistinctStrings_entries b)
  refine ⟨hmerge, notMem_keys_of_added hb hmerge, fun heq => ?_, fun hroom => ?_⟩
  · have hlen := congrArg List.length (List.append_cancel_left (hmerge.symm.trans heq))
    rw [length_numberFrom, length_numberFrom] at hlen
    exact length_ints_le_of_length_eq hlen
  · refine hmerge.trans ?_
    rw [mergedEntries, keepInts_eq_self_iff.2 hroom]

/-- One of two elements finds room under the greatest machine integer, the other one is lost. -/
theorem merge_loses_nothing_iff_near_end :
    let a : OrderedArray Val := hash (.ofList [(.str [0x6B], .null), (.int (.maxValue - 1), .null)])
      .maxValue
    let b : OrderedArray Val :=
      hash (.ofList [(.int 0, .int 1), (.str [0x6B], .int 2), (.int 5, .int 3)]) 6
    a.Reachable ∧ a.Bounded ∧ (a.merge b).entries =
      [(.str [0x6B], .int 2), (.int (.maxValue - 1), .null), (.int .maxValue, .int 1)] ∧
      (a.merge b).entries ≠ a.entries.map (overwrite b.entries) ++
        numberFrom a.next (b.entries.filter a.isAdded) := by
  intro a b
  let first : OrderedArray Val := hash (.ofList [(.str [0x6B], .null)]) 0
  have hfirst : first.Reachable := (Reachable.ofList []).call {} (.set (.str [0x6B]) .null)
  have ha : a.Reachable := hfirst.call {} (.set (.int (Int64.maxValue - 1)) .null)
  obtain ⟨hmerge, -, hiff⟩ := ha.merge_loses_nothing_iff trivial b
  exact ⟨ha, trivial, hmerge, mt hiff.1 (by decide)⟩

/-- The only element of a list is lost when the greatest machine integer is taken. -/
theorem exists_element_lost_by_merge : ∃ a b : OrderedArray Val,
    a.Reachable ∧ b.Reachable ∧ a.merge b = a ∧
      (a.merge b).entries ≠ a.entries.map (overwrite b.entries) ++
        numberFrom a.next (b.entries.filter a.isAdded) := by
  let a : OrderedArray Val := hash (.ofList [(.int .maxValue, .null)]) .maxValue
  have ha : a.Reachable := (Reachable.ofList []).call {} (.set (.int .maxValue) .null)
  have hmerge : a.merge (.ofList [.null]) = a := rfl
  refine ⟨a, .ofList [.null], ha, .ofList _, hmerge, fun he => ?_⟩
  have hlen := congrArg List.length he
  rw [hmerge] at hlen
  exact absurd hlen (by decide)

end OrderedArray

end ObjectModel
