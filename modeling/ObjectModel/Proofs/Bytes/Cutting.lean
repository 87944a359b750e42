import ObjectModel.Bytes.Parts
import ObjectModel.Proofs.Numeral
/-!
# Cutting

A part of a string runs from the position that its start names to the one that its length names, and
is computed with machine integers: no sum is out of their range, and no position out of the string.
A number names the same position as the length of a part at the beginning of the string and as the
start of a part at the end, so these two parts make up the string.
-/

namespace ObjectModel.Bytes

variable {s : Bytes} {size start first count : Int64} {n f c : Nat}

/-- The position that a number names in a string of `size` bytes: it is counted from the end when
the number is negative, and clamped to the string. -/
def position (size : Nat) (k : Int) : Nat := min (if k < 0 then size + k else k).toNat size

/-- The position at which a part ends that starts at `first`, in a string of `size` bytes. -/
def partEnd (size first : Nat) : (length? : Option Int) → Nat
  | none => size
  | some l => if l < 0 then position size l else min (first + l.toNat) size

theorem position_le (size : Nat) (k : Int) : position size k ≤ size := Nat.min_le_right _ _

theorem position_zero (size : Nat) : position size 0 = 0 := Nat.zero_min size

theorem position_of_le {k : Int} (h : n ≤ k) : position n k = n := by
  rw [position, if_neg (by omega)]
  omega

theorem partEnd_le (size first : Nat) (length? : Option Int) :
    partEnd size first length? ≤ size := by
  cases length? with
  | none => exact Nat.le_refl size
  | some l =>
    rw [partEnd]
    split
    · exact position_le size l
    · exact Nat.min_le_right _ _

/-- At the beginning of a string the length names the end as a start would. -/
theorem partEnd_zero (size : Nat) (k : Int) : partEnd size 0 (some k) = position size k := by
  rw [partEnd, position, Nat.zero_add]
  split <;> rfl

/-- The start of a part is computed within the range of the machine integers. -/
theorem exists_partStart?_eq (hsize : size.toInt = n) (hle : start ≤ size) :
    ∃ first, partStart? size start = some first ∧ first.toInt = position n start.toInt := by
  have hneg : start < 0 ↔ start.toInt < 0 := Int64.lt_iff_toInt_lt
  have hbound : start.toInt ≤ size.toInt := Int64.le_iff_toInt_le.1 hle
  have hlow := start.le_toInt
  have hhigh := size.toInt_lt
  by_cases h : start.toInt < 0
  · obtain ⟨sum, hsum, htoInt⟩ :=
      Numeral.exists_int64?_eq (i := size.toInt + start.toInt) (by omega) (by omega)
    refine ⟨max sum 0, ?_, ?_⟩
    · simp [partStart?, hneg.2 h, hsum]
    · rw [Numeral.toInt_max, htoInt, Int64.toInt_zero, position, if_pos h]
      omega
  · refine ⟨start, ?_, ?_⟩
    · simp [partStart?, mt hneg.1 h]
    · rw [position, if_neg h]
      omega

/-- The length of a part is computed within the range of the machine integers. -/
theorem exists_partLength?_eq (hsize : size.toInt = n) (hfirst : first.toInt = f) (hle : f ≤ n)
    (length? : Option Int64) :
    ∃ count, partLength? size first length? = some count ∧
      count.toInt = (partEnd n f (length?.map Int64.toInt) - f : Nat) := by
  have hhigh := size.toInt_lt
  obtain ⟨rest, hrest, hrestInt⟩ :=
    Numeral.exists_int64?_eq (i := size.toInt - first.toInt) (by omega) (by omega)
  cases length? with
  | none =>
    refine ⟨rest, hrest, ?_⟩
    rw [Option.map_none, partEnd]
    omega
  | some l =>
    have hneg : l < 0 ↔ l.toInt < 0 := Int64.lt_iff_toInt_lt
    have hlow := l.le_toInt
    rw [Option.map_some, partEnd, partLength?]
    by_cases h : l.toInt < 0
    · obtain ⟨stop, hstop, hstopInt⟩ :=
        Numeral.exists_int64?_eq (i := size.toInt + l.toInt) (by omega) (by omega)
      have hend : (position n l.toInt : Int) = max stop.toInt 0 := by
        rw [position, if_pos h]
        omega
      rw [if_pos (hneg.2 h), if_pos h, hstop]
      have hbefore : stop < first ↔ stop.toInt < first.toInt := Int64.lt_iff_toInt_lt
      -- a negative length may leave out more bytes than there are from the start on
      by_cases hlt : stop.toInt < first.toInt
      · refine ⟨0, if_pos (hbefore.2 hlt), ?_⟩
        rw [Int64.toInt_zero]
        omega
      · obtain ⟨count, hcount, hcountInt⟩ :=
          Numeral.exists_int64?_eq (i := stop.toInt - first.toInt) (by omega) (by omega)
        refine ⟨count, (if_neg (mt hbefore.1 hlt)).trans hcount, ?_⟩
        omega
    · rw [if_neg (mt hneg.1 h), if_neg h]
      refine ⟨min l rest, by rw [hrest]; rfl, ?_⟩
      rw [Numeral.toInt_min]
      omega

theorem extract?_eq (hfirst : first.toInt = f) (hcount : count.toInt = c)
    (hle : f + c ≤ s.length) : s.extract? first count = some ((s.drop f).take c) := by
  have hinside : 0 ≤ first ∧ 0 ≤ count ∧ first.toInt + count.toInt ≤ s.length := by
    refine ⟨Int64.le_iff_toInt_le.2 ?_, Int64.le_iff_toInt_le.2 ?_, by omega⟩
    · simp [hfirst]
    · simp [hcount]
  rw [extract?, if_pos hinside, hfirst, hcount, Int.toNat_natCast, Int.toNat_natCast]

/-- A part lies between the positions that its start and its length name: no sum is out of the range
of the machine integers, and no position out of the string. -/
theorem substr?_eq (h : s.length < 0x8000000000000000) (start : Int64) (length? : Option Int64) :
    s.substr? start length? =
      some (s.extract (position s.length start.toInt)
        (partEnd s.length (position s.length start.toInt) (length?.map Int64.toInt))) := by
  have hsize : (Int64.ofNat s.length).toInt = s.length := Int64.toInt_ofNat_of_lt h
  -- a start beyond the end is not computed with: clamped to the string, it leaves nothing
  by_cases hbeyond : Int64.ofNat s.length < start
  · have hle : s.length ≤ start.toInt := by
      rw [Int64.lt_iff_toInt_lt, hsize] at hbeyond
      omega
    rw [position_of_le hle]
    simp [substr?, hbeyond]
  · have hfits := position_le s.length start.toInt
    obtain ⟨first, hfirst, hfirstInt⟩ := exists_partStart?_eq hsize (Int64.not_lt.1 hbeyond)
    obtain ⟨count, hcount, hcountInt⟩ := exists_partLength?_eq hsize hfirstInt hfits length?
    have hend := partEnd_le s.length (position s.length start.toInt) (length?.map Int64.toInt)
    have hrun : s.substr? start length? =
        if count ≤ 0 then some [] else s.extract? first count := by
      simp [substr?, hbeyond, hfirst, hcount]
    by_cases hnone : count ≤ 0
    · have hzero : count.toInt ≤ 0 := Int64.le_iff_toInt_le.1 hnone
      have hlength : partEnd s.length (position s.length start.toInt)
          (length?.map Int64.toInt) - position s.length start.toInt = 0 := by omega
      rw [hrun, if_pos hnone, List.extract, hlength, List.take_zero]
    · rw [hrun, if_neg hnone]
      exact extract?_eq hfirstInt hcountInt (by omega)

example : substr? [0x61, 0x62, 0x63] 2 (some (-2)) = some [] := by decide

/-- At the beginning of a string a length names the end of the part. -/
theorem substr?_zero_some (h : s.length < 0x8000000000000000) (k : Int64) :
    s.substr? 0 (some k) = some (s.take (position s.length k.toInt)) := by
  rw [substr?_eq h, Option.map_some, Int64.toInt_zero, position_zero, partEnd_zero]
  rfl

/-- Without a length a part runs to the end. -/
theorem substr?_none (h : s.length < 0x8000000000000000) (k : Int64) :
    s.substr? k none = some (s.drop (position s.length k.toInt)) := by
  rw [substr?_eq h, Option.map_none, partEnd, List.extract, List.take_of_length_le]
  exact Nat.le_of_eq List.length_drop

/-- The part of any length from the beginning of a string and the part from there on make up the
string. Every part is computed, and is what stands at the position that its start names, up to the
one that its length names. -/
theorem substr?_append_substr? (h : s.length < 0x8000000000000000) :
    (∀ k, ∃ front back, s.substr? 0 (some k) = some front ∧ s.substr? k none = some back ∧
      front ++ back = s) ∧
    ∀ start length?, ∃ part, s.substr? start length? = some part ∧
      part <+: s.drop (position s.length start.toInt) ∧
      part.length = partEnd s.length (position s.length start.toInt) (length?.map Int64.toInt) -
        position s.length start.toInt := by
  refine ⟨fun k => ?_, fun start length? => ?_⟩
  · exact ⟨_, _, substr?_zero_some h k, substr?_none h k, List.take_append_drop _ s⟩
  · refine ⟨_, substr?_eq h start length?, List.take_prefix _ _, ?_⟩
    have hend := partEnd_le s.length (position s.length start.toInt) (length?.map Int64.toInt)
    rw [List.extract, List.length_take, List.length_drop]
    omega

/-- The string `abc` is cut two bytes before its end, and the part of the greatest length from the
least start on is the whole string. -/
theorem substr?_append_substr?_near_ends :
    let s : Bytes := [0x61, 0x62, 0x63]
    s.length < 0x8000000000000000 ∧
      (∃ front back, s.substr? 0 (some (-2)) = some front ∧ s.substr? (-2) none = some back ∧
        front ++ back = s ∧ front = [0x61]) ∧
      ∃ part, s.substr? .minValue (some .maxValue) = some part ∧ part <+: s ∧
        part.length = s.length := by
  intro s
  have hsize : s.length < 0x8000000000000000 := by decide
  obtain ⟨hcut, hpart⟩ := substr?_append_substr? hsize
  refine ⟨hsize, ?_, ?_⟩
  · obtain ⟨front, back, hfront, hback, happend⟩ := hcut (-2)
    have heq : s.substr? 0 (some (-2)) = some [0x61] := by decide
    exact ⟨front, back, hfront, hback, happend, Option.some.inj (hfront.symm.trans heq)⟩
  · obtain ⟨part, heq, hprefix, hlength⟩ := hpart .minValue (some .maxValue)
    have hfirst : position s.length Int64.minValue.toInt = 0 := by decide
    have hstop : partEnd s.length 0 (some Int64.maxValue.toInt) = s.length := by decide
    rw [hfirst] at hprefix hlength
    exact ⟨part, heq, hprefix, hlength.trans hstop⟩

end ObjectModel.Bytes
