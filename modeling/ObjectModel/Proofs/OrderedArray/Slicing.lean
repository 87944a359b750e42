import ObjectModel.Proofs.Numeral
import ObjectModel.Proofs.OrderedArray.Merging
/-!
# Slices

A slice takes over a part of the entries into a new array, so its keys are those of the part with
the integer keys numbered anew. Two slices that meet continue each other: merging the second into
the first gives the slice of the whole.

The positions of a slice are computed with exact integers. `checkedSlice?` computes them with
machine integers and fails where a sum overflows or a position is out of range, which never happens
to an array of fewer than `2 ^ 63` elements.
-/

namespace ObjectModel.OrderedArray

universe u

variable {α : Type u} {a : OrderedArray α}

section Cut

variable {β : Type u} (l : List β)

theorem cut_zero_some {k : Int} (hk : 0 ≤ k) : cut l 0 (some k) = l.take k.toNat := by
  have hstart : (min 0 (l.length : Int)).toNat = 0 := by omega
  simp only [cut, if_neg (Int.lt_irrefl 0), if_pos hk, hstart, List.drop_zero]
  rw [List.take_eq_take_iff]
  omega

theorem cut_none {k : Int} (hk : 0 ≤ k) : cut l k none = l.drop k.toNat := by
  simp only [cut, if_neg (Int.not_lt.2 hk)]
  rw [List.take_of_length_le (by rw [List.length_drop]; omega)]
  obtain h | h := Int.le_total k l.length
  · rw [Int.min_eq_left h]
  · rw [Int.min_eq_right h, List.drop_of_length_le (by omega), List.drop_of_length_le (by omega)]

/-- A position from the end is a position from the start. -/
theorem cut_neg {k : Int} (hk : 1 ≤ k) (hle : k ≤ l.length) (length? : Option Int) :
    cut l (-k) length? = cut l (l.length - k) length? := by
  have hstart : (if -k < 0 then max (l.length + -k) 0 else min (-k) l.length) =
      if (l.length - k : Int) < 0 then max (l.length + (l.length - k)) 0
      else min (l.length - k) l.length := by
    rw [if_pos (by omega), if_neg (by omega)]
    omega
  simp only [cut, hstart]

end Cut

/-- Only the order of the integer keys counts when entries are taken over. -/
theorem foldl_adopt_renumber (a : OrderedArray α) (n : Nat) (l : List (Key × α)) :
    (renumber n l).foldl adopt a = l.foldl adopt a := by
  induction l generalizing a n with
  | nil => rfl
  | cons e l ih =>
    obtain ⟨k, x⟩ := e
    cases k with
    | int i => exact ih _ (n + 1)
    | str s => exact ih _ n

/-- Counting with machine integers is renumbering as long as they last. -/
theorem numberFrom_index {n : Nat} {l : List (Key × α)}
    (h : n + (l.filter fun e => e.1.isInt).length < 0x8000000000000000) :
    numberFrom (index n) l = renumber n l := by
  induction l generalizing n with
  | nil => rfl
  | cons e l ih =>
    obtain ⟨k, x⟩ := e
    cases k with
    | str s =>
      rw [filter_isInt_cons_str] at h
      rw [numberFrom, renumber, ih h]
    | int i =>
      rw [filter_isInt_cons_int, List.length_cons] at h
      have hne : index n ≠ .maxValue := by
        rw [ne_eq, ← Int64.toInt_inj, toInt_index (by omega), toInt_maxValue]
        omega
      have hsucc : index n + 1 = index (n + 1) := by
        rw [← succ_index (by omega), succ, if_neg hne]
      rw [numberFrom, renumber, hsucc, ih (by omega)]

/-- The entries of a new array that takes over a list of entries. -/
theorem entries_foldl_adopt_empty {l : List (Key × α)} (hl : HasDistinctStrings l)
    (hlen : l.length < 0x8000000000000000) :
    (l.foldl adopt (∅ : OrderedArray α)).entries = renumber 0 l := by
  have hints : (l.filter fun e => e.1.isInt).length < 0x8000000000000000 :=
    Nat.lt_of_le_of_lt (List.length_filter_le _ l) hlen
  have hroom : (∅ : OrderedArray α).room = 0x8000000000000000 := rfl
  have hadded : l.filter (∅ : OrderedArray α).isAdded = l := by
    refine List.filter_eq_self.2 fun ⟨k, x⟩ _ => ?_
    cases k with
    | int i => rfl
    | str s => exact isAdded_str_iff.2 List.not_mem_nil
  have hbelow : (∅ : OrderedArray α).KeysBelowNext := fun i hi => absurd hi List.not_mem_nil
  rw [entries_foldl_adopt (Nat.zero_le _) hbelow hl, mergedEntries, hroom,
    keepInts_eq_self_iff.2 (Nat.le_of_lt hints), hadded]
  exact numberFrom_index ((Nat.zero_add _).symm ▸ hints)

theorem HasDistinctStrings.sublist {l l' : List (Key × α)} (h : HasDistinctStrings l)
    (hs : l'.Sublist l) : HasDistinctStrings l' := List.Pairwise.sublist hs h

/-- The entries of a slice are a part of those of the array, with the integer keys numbered from
zero on. -/
theorem entries_slice (h : a.size < 0x8000000000000000) (offset : Int) (length? : Option Int) :
    (a.slice offset length?).entries = renumber 0 (cut a.entries offset length?) := by
  have hsub := cut_sublist a.entries offset length?
  have hlen := hsub.length_le
  rw [length_entries] at hlen
  rw [slice_eq (.of_size_lt h)]
  exact entries_foldl_adopt_empty ((hasDistinctStrings_entries a).sublist hsub) (by omega)

theorem map_snd_renumber (n : Nat) (l : List (Key × α)) :
    (renumber n l).map Prod.snd = l.map Prod.snd := by
  induction l generalizing n with
  | nil => rfl
  | cons e l ih =>
    obtain ⟨k, x⟩ := e
    cases k <;> rw [renumber, List.map_cons, ih, List.map_cons]

/-- Two slices that meet continue each other. -/
theorem merge_slice_slice (h : a.size < 0x8000000000000000) {k : Int} (hk : 0 ≤ k) :
    (a.slice 0 (some k)).merge (a.slice k none) = a.slice 0 none := by
  have hb : a.Bounded := .of_size_lt h
  calc (a.slice 0 (some k)).merge (a.slice k none)
      = (a.entries.drop k.toNat).foldl adopt (a.slice 0 (some k)) := by
        rw [merge, entries_slice h, foldl_adopt_renumber, cut_none _ hk]
    _ = (a.entries.drop k.toNat).foldl adopt ((a.entries.take k.toNat).foldl adopt ∅) := by
        rw [slice_eq hb, cut_zero_some _ hk]
    _ = a.entries.foldl adopt ∅ := by
        rw [← List.foldl_append, List.take_append_drop]
    _ = a.slice 0 none := by
        rw [slice_eq hb, cut_none _ (Int.le_refl 0)]
        rfl

/-- The positions between which a slice lies, as exact integers. -/
def sliceBounds (size offset : Int) (length? : Option Int) : Int × Int :=
  let start := if offset < 0 then max (size + offset) 0 else min offset size
  (start, match length? with
    | some l => if 0 ≤ l then min (start + l) size else size
    | none => size)

theorem sliceBounds_fst (size offset : Int) (length? : Option Int) :
    (sliceBounds size offset length?).1 =
      if offset < 0 then max (size + offset) 0 else min offset size := rfl

theorem sliceBounds_snd_some (size offset l : Int) :
    (sliceBounds size offset (some l)).2 =
      if 0 ≤ l then min ((sliceBounds size offset (some l)).1 + l) size else size := rfl

theorem cut_eq {β : Type u} (l : List β) (offset : Int) (length? : Option Int) :
    cut l offset length? =
      let (start, stop) := sliceBounds l.length offset length?
      (l.drop start.toNat).take (stop - start).toNat := rfl

theorem sliceBounds_mem {size : Int} (hsize : 0 ≤ size) (offset : Int) (length? : Option Int) :
    0 ≤ (sliceBounds size offset length?).1 ∧ (sliceBounds size offset length?).2 ≤ size := by
  constructor
  · rw [sliceBounds_fst]
    split <;> omega
  · cases length? with
    | none => exact Int.le_refl size
    | some l =>
      rw [sliceBounds_snd_some]
      split <;> omega

theorem toInt_saturatingAdd {i j : Int64} (hi : 0 ≤ i.toInt) (hj : 0 ≤ j.toInt) :
    (saturatingAdd i j).toInt = min (i.toInt + j.toInt) (0x8000000000000000 - 1) := by
  have hmin : Int64.minValue.toInt = -0x8000000000000000 := by decide
  have hmax := toInt_maxValue
  rw [saturatingAdd, Int64.ofIntClamp, dif_pos (by omega)]
  split
  next hle =>
    rw [Int64.toInt_ofIntLE]
    omega
  next hle =>
    rw [hmax]
    omega

/-- The start of a slice is computed without overflow. -/
theorem exists_sliceStart? {size : Int64} (hsize : 0 ≤ size.toInt) (offset : Int64)
    (length? : Option Int) :
    ∃ start, sliceStart? size offset = some start ∧
      start.toInt = (sliceBounds size.toInt offset.toInt length?).1 := by
  have hlow := offset.le_toInt
  have hhigh := size.toInt_lt
  have hneg : offset < 0 ↔ offset.toInt < 0 := by rw [Int64.lt_iff_toInt_lt, Int64.toInt_zero]
  rw [sliceStart?, sliceBounds_fst]
  by_cases h : offset.toInt < 0
  · obtain ⟨sum, hsome, hsum⟩ :=
      Numeral.exists_int64?_eq (i := size.toInt + offset.toInt) (by omega) (by omega)
    rw [if_pos (hneg.2 h), checkedAdd?, hsome]
    refine ⟨_, rfl, ?_⟩
    rw [Numeral.toInt_max, hsum, Int64.toInt_zero]
    exact (if_pos h).symm
  · rw [if_neg (mt hneg.1 h)]
    refine ⟨_, rfl, ?_⟩
    rw [Numeral.toInt_min]
    exact (if_neg h).symm

/-- The end of a slice is computed without overflow. -/
theorem toInt_sliceStop {size start offset : Int64} {length? : Option Int64}
    (hsize : 0 ≤ size.toInt)
    (h : start.toInt = (sliceBounds size.toInt offset.toInt (length?.map Int64.toInt)).1) :
    (sliceStop size start length?).toInt =
      (sliceBounds size.toInt offset.toInt (length?.map Int64.toInt)).2 := by
  have hstart := (sliceBounds_mem hsize offset.toInt (length?.map Int64.toInt)).1
  have hhigh := size.toInt_lt
  cases length? with
  | none => rfl
  | some l =>
    have hle : 0 ≤ l ↔ 0 ≤ l.toInt := by rw [Int64.le_iff_toInt_le, Int64.toInt_zero]
    rw [← h] at hstart
    rw [Option.map_some] at h ⊢
    rw [sliceBounds_snd_some, ← h, sliceStop]
    by_cases hl : 0 ≤ l.toInt
    · rw [if_pos (hle.2 hl), if_pos hl, Numeral.toInt_min, toInt_saturatingAdd hstart hl]
      omega
    · rw [if_neg (mt hle.1 hl), if_neg hl]

theorem between?_eq {β : Type u} {l : List β} {start stop : Int64} (h0 : 0 ≤ start.toInt)
    (h : start.toInt ≤ stop.toInt) (hlen : stop.toInt ≤ l.length) :
    between? l start stop =
      some ((l.drop start.toInt.toNat).take (stop.toInt - start.toInt).toNat) := by
  have hcount : stop.toInt.toNat - start.toInt.toNat = (stop.toInt - start.toInt).toNat := by omega
  rw [between?, if_pos ⟨Int64.le_iff_toInt_le.2 h0, Int64.le_iff_toInt_le.2 h, hlen⟩,
    List.drop_take, hcount]

/-- What is between the positions of a slice is what it takes. -/
theorem between?_sliceBounds {β : Type u} {l : List β} {start stop : Int64} {offset : Int}
    {length? : Option Int}
    (h : (start.toInt, stop.toInt) = sliceBounds l.length offset length?)
    (hlt : ¬ stop ≤ start) : between? l start stop = some (cut l offset length?) := by
  have hmem := sliceBounds_mem (Int.natCast_nonneg l.length) offset length?
  rw [Int64.le_iff_toInt_le] at hlt
  rw [← h] at hmem
  rw [between?_eq hmem.1 (by omega) hmem.2, cut_eq, ← h]

/-- A slice that ends where it starts or before takes nothing. -/
theorem cut_eq_nil {β : Type u} {l : List β} {start stop : Int64} {offset : Int}
    {length? : Option Int}
    (h : (start.toInt, stop.toInt) = sliceBounds l.length offset length?)
    (hle : stop ≤ start) : cut l offset length? = [] := by
  rw [Int64.le_iff_toInt_le] at hle
  rw [cut_eq, ← h]
  have hzero : (stop.toInt - start.toInt).toNat = 0 := by omega
  dsimp only
  rw [hzero, List.take_zero]

/-- Machine integers suffice for slices: no sum overflows, and no position is out of range. -/
theorem checkedSlice?_eq (h : a.size < 0x8000000000000000) (offset : Int64)
    (length? : Option Int64) :
    a.checkedSlice? offset length? =
      some (a.slice offset.toInt (length?.map Int64.toInt)) := by
  have hsize : (Int64.ofNat a.size).toInt = a.size := Int64.toInt_ofNat_of_lt h
  have hnonneg : 0 ≤ (Int64.ofNat a.size).toInt := by omega
  obtain ⟨start, hsome, hstart⟩ :=
    exists_sliceStart? hnonneg offset (length?.map Int64.toInt)
  have hstop := toInt_sliceStop hnonneg hstart
  rw [checkedSlice?, hsome, Option.bind_some]
  dsimp only
  generalize sliceStop (.ofNat a.size) start length? = stop at hstop ⊢
  have hexact : (start.toInt, stop.toInt) =
      sliceBounds a.size offset.toInt (length?.map Int64.toInt) := by
    rw [← hsize]
    exact Prod.ext hstart hstop
  cases a with
  | packed vs =>
    split
    next hle => exact congrArg (some ∘ packed) (cut_eq_nil hexact hle).symm
    next hlt => exact congrArg (Option.map packed) (between?_sliceBounds hexact hlt)
  | hash m n =>
    split
    next hle =>
      exact congrArg (fun l : List (Key × α) => some (l.foldl adopt ∅)) (cut_eq_nil hexact hle).symm
    next hlt => exact congrArg (Option.map (·.foldl adopt ∅)) (between?_sliceBounds hexact hlt)

/-- The slices before and from a position make up the slice of the whole, which has the elements of
the array in their order under the same string keys and under integer keys numbered from zero on. A
position from the end is one from the start, and all this is computed with machine integers. -/
theorem slice_partition (h : a.size < 0x8000000000000000) :
    (∀ k : Int64, 0 ≤ k →
      (a.slice 0 (some k.toInt)).merge (a.slice k.toInt none) = a.slice 0 none) ∧
    (a.slice 0 none).entries = renumber 0 a.entries ∧
    (a.slice 0 none).values = a.values ∧
    (∀ k : Nat, 1 ≤ k → k ≤ a.size →
      ∀ length?, a.slice (-k) length? = a.slice (a.size - k) length?) ∧
    ∀ offset length?,
      a.checkedSlice? offset length? =
        some (a.slice offset.toInt (length?.map Int64.toInt)) := by
  have hentries : (a.slice 0 none).entries = renumber 0 a.entries := by
    rw [entries_slice h, cut_none _ (Int.le_refl 0)]
    rfl
  refine ⟨fun k hk => merge_slice_slice h (Int64.le_iff_toInt_le.1 hk), hentries, ?_,
    fun k hk hle length? => ?_, checkedSlice?_eq h⟩
  · rw [values, hentries, map_snd_renumber]
    rfl
  · have hb : a.Bounded := .of_size_lt h
    rw [slice_eq hb, slice_eq hb, ← length_entries]
    rw [← length_entries] at hle
    rw [cut_neg _ (by omega) (by omega)]

/-- An array is cut inside a run of keys of both kinds. -/
theorem slice_partition_mixed_keys :
    let a : OrderedArray Val :=
      hash (.ofList [(.int 5, .int 1), (.str [0x6B], .int 2), (.int (-3), .int 3)]) 6
    a.size < 0x8000000000000000 ∧
      (a.slice 0 (some 2)).merge (a.slice 2 none) = a.slice 0 none ∧
      (a.slice 0 none).entries = [(.int 0, .int 1), (.str [0x6B], .int 2), (.int 1, .int 3)] ∧
      (a.slice 0 none).values = [.int 1, .int 2, .int 3] ∧
      a.slice (-2) (some 1) = a.slice 1 (some 1) ∧
      a.checkedSlice? .minValue (some .maxValue) =
        some (a.slice Int64.minValue.toInt (some Int64.maxValue.toInt)) := by
  intro a
  have hsize : a.size < 0x8000000000000000 := by decide
  obtain ⟨hmerge, hentries, hvalues, hneg, hchecked⟩ := slice_partition hsize
  exact ⟨hsize, hmerge 2 (by decide), hentries, hvalues, hneg 2 (by decide) (by decide) (some 1),
    hchecked .minValue (some .maxValue)⟩

end ObjectModel.OrderedArray
