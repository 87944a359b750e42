import ObjectModel.Proofs.OrderedArray.Index
/-!
# Operations on ordered arrays through the view

The view of an array is its list of entries and its next index. Every operation is described here
by what it does to the view, and no description mentions the form: a packed array and a hash with
the same view answer alike and have the same view afterwards. Packed arrays are taken to have at
most `2 ^ 63` elements, so that their positions are distinct keys.
-/

namespace ObjectModel.OrderedArray

universe u

variable {α : Type u} {a b : OrderedArray α}

def view (a : OrderedArray α) : List (Key × α) × Int64 := (a.entries, a.next)

/-- A packed array has no more elements than there are positions that are machine integers. -/
def Bounded : OrderedArray α → Prop
  | packed vs => vs.length ≤ 0x8000000000000000
  | hash .. => True

theorem view_eq_iff : a.view = b.view ↔ a.entries = b.entries ∧ a.next = b.next := by
  simp [view]

@[simp] theorem view_hash (m : OrderedMap Key α) (n : Int64) :
    (hash m n).view = (m.entries, n) := rfl

theorem length_entries (a : OrderedArray α) : a.entries.length = a.size := by
  cases a with
  | packed vs => exact length_enumerate vs
  | hash m n => rfl

theorem Bounded.nodup_keys (h : a.Bounded) : a.keys.Nodup := by
  cases a with
  | packed vs => exact nodup_map_fst_enumerate h
  | hash m n => exact m.nodup_keys

theorem Bounded.of_size_lt (h : a.size < 0x8000000000000000) : a.Bounded := by
  cases a with
  | packed vs => exact Nat.le_of_lt h
  | hash m n => trivial

theorem Bounded.entries_toMap (h : a.Bounded) : a.toMap.entries = a.entries := by
  cases a with
  | packed vs => exact OrderedMap.entries_ofList (nodup_map_fst_enumerate h)
  | hash m n => rfl

/-- The key of the next appended element is new to a packed array that has room for it. -/
theorem int_index_notMem {vs : List α} (h : vs.length < 0x8000000000000000) :
    Key.int (index vs.length) ∉ (enumerate vs).map Prod.fst := by
  rw [int_mem_map_fst_enumerate]
  rintro ⟨n, hn, he⟩
  exact Nat.ne_of_lt hn ((index_inj (by omega) h).1 he)

theorem int_index_mem_of_eq {vs : List α} (h : vs.length = 0x8000000000000000) :
    Key.int (index vs.length) ∈ (enumerate vs).map Prod.fst := by
  rw [int_mem_map_fst_enumerate]
  refine ⟨0x8000000000000000 - 1, by omega, ?_⟩
  rw [h, index_of_le (Nat.le_refl _), ← Int64.toInt_inj, toInt_index (by omega)]
  decide

theorem get?_eq_lookup (h : a.Bounded) (k : Key) : a.get? k = a.entries.lookup k := by
  cases a with
  | hash m n => rfl
  | packed vs =>
    change _ = (enumerate vs).lookup k
    cases k with
    | str s =>
      exact (OrderedMap.lookup_eq_none_iff_notMem.2 (str_notMem_map_fst_enumerate vs s)).symm
    | int i =>
      rw [get?]
      split
      next hi =>
        symm
        rw [OrderedMap.lookup_eq_none_iff_notMem, int_mem_map_fst_enumerate]
        rintro ⟨n, -, rfl⟩
        exact not_index_neg n hi
      next hi =>
        cases hx : vs[i.toInt.toNat]? with
        | some x =>
          symm
          rw [OrderedMap.lookup_eq_some_iff_mem (nodup_map_fst_enumerate h),
            List.mem_iff_getElem?]
          refine ⟨i.toInt.toNat, ?_⟩
          rw [getElem?_enumerate, hx, index_toNat hi]
          rfl
        | none =>
          symm
          rw [OrderedMap.lookup_eq_none_iff_notMem, int_mem_map_fst_enumerate]
          rintro ⟨n, hn, rfl⟩
          have hvs : vs.length ≤ 0x8000000000000000 := h
          rw [List.getElem?_eq_none_iff, toInt_index (by omega), Int.toNat_natCast] at hx
          omega

theorem isList_eq (a : OrderedArray α) :
    a.isList = a.entries.zipIdx.all fun (e, i) => e.1 = .int (index i) := by
  cases a with
  | hash m n => rfl
  | packed vs =>
    symm
    rw [isList, List.all_eq_true]
    rintro ⟨e, i⟩ hm
    have hi : (enumerate vs)[i]? = some e := (List.mem_zipIdx_iff_getElem?).1 hm
    rw [getElem?_enumerate] at hi
    obtain ⟨x, -, rfl⟩ := Option.map_eq_some_iff.1 hi
    exact decide_eq_true rfl

theorem view_insertHash (h : a.Bounded) (k : Key) (x : α) :
    (a.insertHash k x).view = (OrderedMap.insertEntry k x a.entries, nextAfter a.next k) := by
  rw [insertHash, view_hash, OrderedMap.entries_insert, h.entries_toMap]

theorem view_packed_append {vs : List α} (h : vs.length < 0x8000000000000000) (x : α) :
    (packed (vs ++ [x])).view =
      ((packed vs).entries ++ [(.int (packed vs).next, x)], succ (packed vs).next) := by
  change (enumerate (vs ++ [x]), index (vs ++ [x]).length) = _
  rw [enumerate_append_singleton, List.length_append, List.length_singleton, ← succ_index h]
  rfl

theorem view_insert (h : a.Bounded) (k : Key) (x : α) :
    (a.insert k x).view = (OrderedMap.insertEntry k x a.entries, nextAfter a.next k) := by
  unfold insert
  split
  next vs i =>
    split
    next hi =>
      have hlt : vs.length < 0x8000000000000000 := by have := i.toInt_lt; omega
      have hk : i = index vs.length := by rw [← Int64.toInt_inj, toInt_index hlt, hi]
      subst hk
      rw [view_packed_append hlt]
      change _ = (OrderedMap.insertEntry _ x (enumerate vs), _)
      rw [OrderedMap.insertEntry_of_notMem x (int_index_notMem hlt), nextAfter, if_pos]
      · rfl
      · exact Int64.le_refl _
    next => exact view_insertHash h _ x
  next => exact view_insertHash h k x

theorem entries_insert_of_notMem (h : a.Bounded) {k : Key} (hk : k ∉ a.keys) (x : α) :
    (a.insert k x).entries = a.entries ++ [(k, x)] :=
  (congrArg Prod.fst (view_insert h k x)).trans (OrderedMap.insertEntry_of_notMem x hk)

theorem Bounded.insert (h : a.Bounded) (k : Key) (x : α) : (a.insert k x).Bounded := by
  unfold OrderedArray.insert
  split
  next vs i =>
    split
    next hi =>
      have := i.toInt_lt
      change (vs ++ [x]).length ≤ 0x8000000000000000
      rw [List.length_append, List.length_singleton]
      omega
    next => trivial
  next => trivial

theorem view_modify (h : a.Bounded) (k : Key) (f : α → α) :
    (a.modify k f).view =
      (a.entries.map fun e => if e.1 = k then (e.1, f e.2) else e, a.next) := by
  cases a with
  | hash m n => rfl
  | packed vs =>
    have hvs : vs.length ≤ 0x8000000000000000 := h
    cases k with
    | str s =>
      have hid : ∀ e ∈ enumerate vs, (if e.1 = .str s then (e.1, f e.2) else e) = id e := by
        intro e he
        have hk : e.1 ≠ .str s := fun hs =>
          str_notMem_map_fst_enumerate vs s (hs ▸ List.mem_map_of_mem he)
        exact if_neg hk
      exact Prod.ext ((List.map_congr_left hid).trans (List.map_id _)).symm rfl
    | int i =>
      rw [modify]
      change (enumerate _, index _) = ((enumerate vs).map _, index _)
      apply Prod.ext
      · apply List.ext_getElem?
        intro n
        rw [getElem?_enumerate, List.getElem?_map, getElem?_enumerate]
        split
        next hi =>
          cases vs[n]? with
          | none => rfl
          | some x =>
            have hne : Key.int (index n) ≠ .int i := fun he =>
              not_index_neg n (Key.int.inj he ▸ hi)
            simp [hne]
        next hi =>
          rw [List.getElem?_modify]
          cases hx : vs[n]? with
          | none => rfl
          | some x =>
            have hn : n < vs.length := (List.getElem?_eq_some_iff.1 hx).1
            have hiff : (Key.int (index n) = .int i) ↔ i.toInt.toNat = n := by
              rw [Key.int.injEq, ← index_toNat hi, index_inj (by omega), index_toNat hi]
              · exact eq_comm
              · have := i.toInt_lt; omega
            simp only [Option.map_some, Option.map_eq_map, hiff]
            split <;> rfl
      · split <;> simp

theorem map_view_append? (h : a.Bounded) (x : α) :
    (a.append? x).map (Prod.map id view) =
      if Key.int a.next ∈ a.keys then none
      else some (a.next, a.entries ++ [(.int a.next, x)], succ a.next) := by
  cases a with
  | hash m n =>
    change Option.map _ (if m.contains (.int n) then _ else _) =
      if Key.int n ∈ m.keys then _ else some (n, m.entries ++ [(.int n, x)], succ n)
    by_cases hk : Key.int n ∈ m.keys
    · rw [if_pos (OrderedMap.contains_iff.2 hk), if_pos hk]
      rfl
    · rw [if_neg (mt OrderedMap.contains_iff.1 hk), if_neg hk, Option.map_some, Prod.map_apply,
        view_hash, OrderedMap.entries_insert_of_notMem x hk, id]
  | packed vs =>
    have hvs : vs.length ≤ 0x8000000000000000 := h
    change Option.map _ (if vs.length < 0x8000000000000000 then _ else _) =
      if Key.int (index vs.length) ∈ (enumerate vs).map Prod.fst then _ else _
    by_cases hlt : vs.length < 0x8000000000000000
    · rw [if_pos hlt, if_neg (int_index_notMem hlt), Option.map_some, Prod.map_apply,
        view_packed_append hlt]
      rfl
    · rw [if_neg hlt, if_pos (int_index_mem_of_eq (by omega))]
      rfl

theorem Bounded.append? (h : a.Bounded) {x : α} {r : Int64 × OrderedArray α}
    (hr : a.append? x = some r) : r.2.Bounded := by
  cases a with
  | hash m n =>
    simp only [OrderedArray.append?] at hr
    split at hr
    · cases hr
    · cases hr; trivial
  | packed vs =>
    simp only [OrderedArray.append?] at hr
    split at hr
    next hlt =>
      cases hr
      change (vs ++ [x]).length ≤ 0x8000000000000000
      rw [List.length_append, List.length_singleton]
      omega
    next => cases hr

theorem view_erase (h : a.Bounded) (k : Key) :
    (a.erase k).view = (a.entries.filter fun e => e.1 ≠ k, a.next) := by
  rw [erase, view_hash, ← h.entries_toMap]
  rfl

theorem released_index {n : Nat} (h : n < 0x8000000000000000) :
    released (index (n + 1)) (.int (index n)) = index n := by
  have hs := succ_index h
  rw [succ] at hs
  rw [released]
  split at hs
  next hmax => rw [if_neg (fun hc => hc.1 hmax), ← hs]
  next hne => rw [if_pos ⟨hne, hs⟩]

theorem map_view_pop? (h : a.Bounded) :
    a.pop?.map (Prod.map id view) = a.entries.getLast?.map fun e =>
      (e.2, a.entries.dropLast, released a.next e.1) := by
  cases a with
  | hash m n =>
    change Option.map _ (m.entries.getLast?.map _) = m.entries.getLast?.map _
    rw [Option.map_map]
    rfl
  | packed vs =>
    have hvs : vs.length ≤ 0x8000000000000000 := h
    change Option.map _ (vs.getLast?.map _) = (enumerate vs).getLast?.map _
    rw [Option.map_map]
    obtain rfl | ⟨us, x, rfl⟩ := List.eq_nil_or_concat vs
    · rfl
    · rw [List.length_concat] at hvs
      rw [List.concat_eq_append, enumerate_append_singleton, List.getLast?_concat,
        List.getLast?_concat]
      change some (x, (packed (us ++ [x]).dropLast).view) =
        some (x, (enumerate (us ++ [x])).dropLast, released (index (us ++ [x]).length) _)
      rw [enumerate_append_singleton, List.dropLast_concat, List.dropLast_concat,
        List.length_append, List.length_singleton, released_index (by omega)]
      rfl

theorem map_view_shift? (h : a.Bounded) :
    a.shift?.map (Prod.map id view) =
      a.entries.head?.map fun e => (e.2, a.entries.tail, a.next) := by
  rw [shift?, Option.map_map, ← h.entries_toMap]
  exact congrArg (fun l : List (Key × α) => l.head?.map _) h.entries_toMap.symm

theorem filter_isInt_cons_int (i : Int64) (x : α) (l : List (Key × α)) :
    (((.int i, x) :: l).filter fun e => e.1.isInt) =
      (.int i, x) :: l.filter fun e => e.1.isInt := List.filter_cons_of_pos rfl

theorem filter_isInt_cons_str (s : Bytes) (x : α) (l : List (Key × α)) :
    (((.str s, x) :: l).filter fun e => e.1.isInt) = l.filter fun e => e.1.isInt :=
  List.filter_cons_of_neg Bool.false_ne_true

theorem renumber_eq_of_forall_isInt {l : List (Key × α)} (h : ∀ e ∈ l, e.1.isInt) (n : Nat) :
    renumber n l = ((l.map Prod.snd).zipIdx n).map fun (x, i) => (.int (index i), x) := by
  induction l generalizing n with
  | nil => rfl
  | cons e l ih =>
    obtain ⟨k, x⟩ := e
    rw [List.forall_mem_cons] at h
    cases k with
    | str s => exact absurd h.1 (by simp [Key.isInt])
    | int i => rw [renumber, ih h.2, List.map_cons, List.zipIdx_cons, List.map_cons]

theorem isInt_of_mem_enumerate {l : List α} {e : Key × α} (h : e ∈ enumerate l) : e.1.isInt := by
  obtain ⟨p, -, rfl⟩ := List.mem_map.1 h
  rfl

theorem enumerate_cons (x : α) (l : List α) :
    enumerate (x :: l) = (.int 0, x) :: renumber 1 (enumerate l) := by
  rw [renumber_eq_of_forall_isInt fun _ => isInt_of_mem_enumerate, map_snd_enumerate]
  rfl

theorem str_mem_map_fst_renumber {s : Bytes} {n : Nat} {l : List (Key × α)} :
    Key.str s ∈ (renumber n l).map Prod.fst ↔ Key.str s ∈ l.map Prod.fst := by
  induction l generalizing n with
  | nil => rfl
  | cons e l ih =>
    obtain ⟨k, x⟩ := e
    cases k <;> simp [renumber, ih]

theorem exists_of_int_mem_renumber {i : Int64} {n : Nat} {l : List (Key × α)}
    (h : Key.int i ∈ (renumber n l).map Prod.fst) :
    ∃ j, n ≤ j ∧ j < n + (l.filter fun e => e.1.isInt).length ∧ i = index j := by
  induction l generalizing n with
  | nil => simp [renumber] at h
  | cons e l ih =>
    obtain ⟨k, x⟩ := e
    cases k with
    | str s =>
      have hm : Key.int i ∈ (renumber n l).map Prod.fst := by simpa [renumber] using h
      simpa [Key.isInt] using ih hm
    | int k =>
      rw [renumber, List.map_cons, List.mem_cons] at h
      obtain h | h := h
      · exact ⟨n, Nat.le_refl n, by simp [Key.isInt], Key.int.inj h⟩
      · obtain ⟨j, hle, hlt, rfl⟩ := ih h
        refine ⟨j, by omega, ?_, rfl⟩
        rw [filter_isInt_cons_int, List.length_cons]
        omega

theorem nodup_map_fst_renumber {n : Nat} {l : List (Key × α)} (hl : (l.map Prod.fst).Nodup)
    (hn : n + (l.filter fun e => e.1.isInt).length ≤ 0x8000000000000000) :
    ((renumber n l).map Prod.fst).Nodup := by
  induction l generalizing n with
  | nil => exact List.nodup_nil
  | cons e l ih =>
    obtain ⟨k, x⟩ := e
    rw [List.map_cons, List.nodup_cons] at hl
    cases k with
    | str s =>
      rw [filter_isInt_cons_str] at hn
      rw [renumber, List.map_cons, List.nodup_cons]
      exact ⟨mt str_mem_map_fst_renumber.1 hl.1, ih hl.2 hn⟩
    | int k =>
      rw [filter_isInt_cons_int, List.length_cons] at hn
      rw [renumber, List.map_cons, List.nodup_cons]
      constructor
      · intro hm
        obtain ⟨j, hle, hlt, he⟩ := exists_of_int_mem_renumber hm
        exact absurd ((index_inj (by omega) (by omega)).1 he) (by omega)
      · exact ih hl.2 (by omega)

theorem view_unshift (h : a.size < 0x8000000000000000) (x : α) :
    (a.unshift x).view = ((.int 0, x) :: renumber 1 a.entries,
      index ((a.entries.filter fun e => e.1.isInt).length + 1)) := by
  cases a with
  | packed vs =>
    have hf : ((enumerate vs).filter fun e => e.1.isInt) = enumerate vs :=
      List.filter_eq_self.2 fun e he => isInt_of_mem_enumerate he
    change (enumerate (x :: vs), index (vs.length + 1)) = (_, index (_ + 1))
    rw [enumerate_cons, entries, hf, length_enumerate]
  | hash m n =>
    have hle : (m.entries.filter fun e => e.1.isInt).length ≤ m.entries.length :=
      List.length_filter_le _ _
    have hlt : m.entries.length < 0x8000000000000000 := h
    rw [unshift, view_hash, OrderedMap.entries_ofList, entries]
    rw [List.map_cons, List.nodup_cons]
    constructor
    · intro hm
      obtain ⟨j, hj, hlt, he⟩ := exists_of_int_mem_renumber hm
      have h0 : (0 : Int64) = index 0 := by decide
      rw [h0, index_inj (by omega) (by omega)] at he
      omega
    · exact nodup_map_fst_renumber m.nodup_keys (by omega)

theorem view_adopt (h : a.Bounded) (e : Key × α) :
    (a.adopt e).view = match e.1 with
      | .int _ =>
        if Key.int a.next ∈ a.keys then a.view
        else (a.entries ++ [(.int a.next, e.2)], succ a.next)
      | .str s => (OrderedMap.insertEntry (.str s) e.2 a.entries, a.next) := by
  obtain ⟨k, x⟩ := e
  cases k with
  | str s => exact view_insert h _ x
  | int i =>
    have hv := map_view_append? h x
    simp only [adopt]
    cases hr : a.append? x with
    | none =>
      rw [hr] at hv
      split at hv
      next hk => rw [if_pos hk]; rfl
      next => cases hv
    | some r =>
      rw [hr] at hv
      split at hv
      next => cases hv
      next hk => rw [if_neg hk]; exact congrArg Prod.snd (Option.some.inj hv)

theorem Bounded.adopt (h : a.Bounded) (e : Key × α) : (a.adopt e).Bounded := by
  obtain ⟨k, x⟩ := e
  cases k with
  | str s => exact h.insert _ x
  | int i =>
    simp only [OrderedArray.adopt]
    cases hr : a.append? x with
    | none => exact h
    | some r => exact h.append? hr

theorem view_foldl_adopt_congr (ha : a.Bounded) (hb : b.Bounded) (h : a.view = b.view)
    (l : List (Key × α)) : (l.foldl adopt a).view = (l.foldl adopt b).view := by
  induction l generalizing a b with
  | nil => exact h
  | cons e l ih =>
    obtain ⟨he, hn⟩ := view_eq_iff.1 h
    have hk : a.keys = b.keys := congrArg (List.map Prod.fst) he
    apply ih (ha.adopt e) (hb.adopt e)
    rw [view_adopt ha, view_adopt hb, h, he, hn, hk]

/-- Entries with integer keys are taken over by a packed array as further elements. -/
theorem foldl_adopt_packed {us : List α} {l : List (Key × α)} (hl : ∀ e ∈ l, e.1.isInt)
    (h : us.length + l.length ≤ 0x8000000000000000) :
    l.foldl adopt (packed us) = packed (us ++ l.map Prod.snd) := by
  induction l generalizing us with
  | nil => simp
  | cons e l ih =>
    obtain ⟨k, x⟩ := e
    rw [List.forall_mem_cons] at hl
    rw [List.length_cons] at h
    cases k with
    | str s => exact absurd hl.1 (by simp [Key.isInt])
    | int i =>
      have hstep : (packed us).adopt (.int i, x) = packed (us ++ [x]) := by
        have hlt : us.length < 0x8000000000000000 := by omega
        change (Option.map Prod.snd
          (if us.length < 0x8000000000000000 then _ else none)).getD (packed us) = _
        rw [if_pos hlt]
        rfl
      have hlen : (us ++ [x]).length + l.length ≤ 0x8000000000000000 := by
        rw [List.length_append, List.length_singleton]
        omega
      rw [List.foldl_cons, hstep, ih hl.2 hlen, List.append_assoc]
      rfl

/-- The elements of a list that a slice takes. -/
def cut {β : Type u} (l : List β) (offset : Int) (length? : Option Int) : List β :=
  let size : Int := l.length
  let start := if offset < 0 then max (size + offset) 0 else min offset size
  let stop := match length? with
    | some l => if 0 ≤ l then min (start + l) size else size
    | none => size
  (l.drop start.toNat).take (stop - start).toNat

theorem cut_sublist {β : Type u} (l : List β) (offset : Int) (length? : Option Int) :
    (cut l offset length?).Sublist l :=
  (List.take_sublist _ _).trans (List.drop_sublist _ _)

theorem map_cut {β γ : Type u} (f : β → γ) (l : List β) (offset : Int) (length? : Option Int) :
    (cut l offset length?).map f = cut (l.map f) offset length? := by
  simp only [cut, List.map_take, List.map_drop, List.length_map]

/-- A slice takes over a part of the entries. -/
theorem slice_eq (h : a.Bounded) (offset : Int) (length? : Option Int) :
    a.slice offset length? = (cut a.entries offset length?).foldl adopt ∅ := by
  cases a with
  | hash m n => rfl
  | packed vs =>
    have hvs : vs.length ≤ 0x8000000000000000 := h
    have hsub := cut_sublist (enumerate vs) offset length?
    have hlen := hsub.length_le
    rw [length_enumerate] at hlen
    symm
    change (cut (enumerate vs) offset length?).foldl adopt (packed []) =
      packed (cut vs offset length?)
    rw [foldl_adopt_packed (fun e he => isInt_of_mem_enumerate (hsub.subset he)), map_cut,
      map_snd_enumerate, List.nil_append]
    rw [List.length_nil]
    omega

end ObjectModel.OrderedArray
