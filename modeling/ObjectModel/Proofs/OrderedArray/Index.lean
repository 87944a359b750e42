import ObjectModel.OrderedArray.Basic
import ObjectModel.Proofs.OrderedMap
import Mathlib.Data.List.Nodup
/-!
# Positions as machine integers

The elements of a packed array have their positions as keys. As long as there are at most `2 ^ 63`
of them, positions and machine integers agree: distinct positions are distinct keys, and counting
up from a position stops at the greatest machine integer just as `OrderedArray.succ` does.
-/

namespace ObjectModel.OrderedArray

universe u

variable {α : Type u}

theorem toInt_index {n : Nat} (h : n < 0x8000000000000000) : (index n).toInt = n := by
  have hmin : Int64.minValue.toInt = -0x8000000000000000 := by decide
  have hmax : Int64.maxValue.toInt = 0x8000000000000000 - 1 := by decide
  have hlow : Int64.minValue.toInt ≤ (n : Int) := by omega
  have hhigh : (n : Int) ≤ Int64.maxValue.toInt := by omega
  rw [index, Int64.ofIntClamp, dif_pos hlow, dif_pos hhigh]
  exact Int64.toInt_ofIntLE

theorem index_of_le {n : Nat} (h : 0x8000000000000000 ≤ n) : index n = .maxValue := by
  have hmin : Int64.minValue.toInt = -0x8000000000000000 := by decide
  have hmax : Int64.maxValue.toInt = 0x8000000000000000 - 1 := by decide
  have hlow : Int64.minValue.toInt ≤ (n : Int) := by omega
  rw [index, Int64.ofIntClamp, dif_pos hlow, dif_neg (by omega)]

theorem index_inj {m n : Nat} (hm : m < 0x8000000000000000) (hn : n < 0x8000000000000000) :
    index m = index n ↔ m = n := by
  rw [← Int64.toInt_inj, toInt_index hm, toInt_index hn, Int.natCast_inj]

/-- A machine integer that is not negative is the index of the position it counts. -/
theorem index_toNat {i : Int64} (h : ¬ i < 0) : index i.toInt.toNat = i := by
  have hz : (0 : Int64).toInt = 0 := by decide
  have hi : 0 ≤ i.toInt := by rw [Int64.lt_iff_toInt_lt, hz] at h; omega
  have hlt := i.toInt_lt
  rw [← Int64.toInt_inj, toInt_index (by omega)]
  omega

theorem not_index_neg (n : Nat) : ¬ index n < 0 := by
  have hz : (0 : Int64).toInt = 0 := by decide
  rw [Int64.lt_iff_toInt_lt, hz]
  obtain h | h := Nat.lt_or_ge n 0x8000000000000000
  · rw [toInt_index h]; omega
  · rw [index_of_le h]; decide

theorem succ_index {n : Nat} (h : n < 0x8000000000000000) : succ (index n) = index (n + 1) := by
  have hmax : Int64.maxValue.toInt = 0x8000000000000000 - 1 := by decide
  obtain h' | h' := Nat.lt_or_ge (n + 1) 0x8000000000000000
  · have hne : index n ≠ .maxValue := by
      rw [ne_eq, ← Int64.toInt_inj, toInt_index h]; omega
    rw [succ, if_neg hne, ← Int64.toInt_inj, toInt_index h', Int64.toInt_add, toInt_index h,
      Int64.toInt_one]
    exact Int.bmod_eq_of_le (by omega) (by omega)
  · have he : index n = .maxValue := by
      rw [← Int64.toInt_inj, toInt_index h]; omega
    rw [succ, if_pos he, he, index_of_le h']

theorem enumerate_append_singleton (l : List α) (x : α) :
    enumerate (l ++ [x]) = enumerate l ++ [(.int (index l.length), x)] := by
  simp [enumerate, List.zipIdx_append]

@[simp] theorem length_enumerate (l : List α) : (enumerate l).length = l.length := by
  simp [enumerate]

@[simp] theorem map_snd_enumerate (l : List α) : (enumerate l).map Prod.snd = l := by
  simp [enumerate, Function.comp_def]

@[simp] theorem values_packed (vs : List α) : (packed vs).values = vs := map_snd_enumerate vs

theorem map_fst_enumerate (l : List α) :
    (enumerate l).map Prod.fst = (List.range l.length).map fun i => Key.int (index i) := by
  rw [List.range_eq_range', ← List.zipIdx_map_snd 0 l, List.map_map]
  simp [enumerate, Function.comp_def]

theorem getElem?_enumerate (l : List α) (i : Nat) :
    (enumerate l)[i]? = l[i]?.map fun x => (.int (index i), x) := by
  simp [enumerate, Function.comp_def]

theorem nodup_map_fst_enumerate {l : List α} (h : l.length ≤ 0x8000000000000000) :
    ((enumerate l).map Prod.fst).Nodup := by
  rw [map_fst_enumerate]
  refine List.Nodup.map_on ?_ List.nodup_range
  intro i hi j hj hij
  rw [List.mem_range] at hi hj
  exact (index_inj (by omega) (by omega)).1 (Key.int.inj hij)

theorem int_mem_map_fst_enumerate {l : List α} {i : Int64} :
    Key.int i ∈ (enumerate l).map Prod.fst ↔ ∃ n < l.length, index n = i := by
  rw [map_fst_enumerate]
  simp

theorem str_notMem_map_fst_enumerate (l : List α) (s : Bytes) :
    Key.str s ∉ (enumerate l).map Prod.fst := by
  rw [map_fst_enumerate]
  simp

end ObjectModel.OrderedArray
