import Mathlib.Data.List.Infix
import ObjectModel.Bytes.Parts
/-!
# Splitting and joining

A string is split at the leftmost occurrences of the delimiter that do not overlap: each is the
first at or after the end of the one before, `LeftmostFrom`. The parts are what lies between these
occurrences, so that no part contains the delimiter, and joining the parts with the delimiter gives
the string back. The invariant is about a start that moves from the end of one occurrence to the end
of the next, and what is left of the string from there on.
-/

namespace ObjectModel

namespace Bytes

variable {needle s : Bytes} {start i j n : Nat}

/-- Whether a needle stands at a position of a string. -/
def OccursAt (needle s : Bytes) (i : Nat) : Prop := needle <+: s.drop i

structure IsFirstFrom (needle s : Bytes) (start i : Nat) : Prop where
  start_le : start ≤ i
  occursAt : OccursAt needle s i
  not_occursAt : ∀ j, start ≤ j → j < i → ¬ OccursAt needle s j

/-- Whether positions are those of the leftmost occurrences of a needle from `start` on, each at or
after the end of the one before. -/
inductive LeftmostFrom (needle s : Bytes) : (start : Nat) → List Nat → Prop
  | none {start : Nat} : (∀ j, start ≤ j → ¬ OccursAt needle s j) → LeftmostFrom needle s start []
  | next {start i : Nat} {is : List Nat} : IsFirstFrom needle s start i →
      LeftmostFrom needle s (i + needle.length) is → LeftmostFrom needle s start (i :: is)

theorem occursAt_drop_iff : OccursAt needle (s.drop start) j ↔ OccursAt needle s (start + j) := by
  rw [OccursAt, OccursAt, List.drop_drop]

/-- What follows an occurrence is the rest of the string. -/
theorem OccursAt.append_drop (h : OccursAt needle s i) :
    needle ++ s.drop (i + needle.length) = s.drop i := by
  rw [← List.drop_drop]
  exact List.prefix_iff_eq_append.1 h

theorem OccursAt.add_length_le (h : OccursAt needle s i) (hn : needle ≠ []) :
    i + needle.length ≤ s.length := by
  have hle := h.length_le
  have hpos := List.length_pos_iff.2 hn
  rw [List.length_drop] at hle
  omega

/-- An occurrence in a part of a string is one in the string. -/
theorem occursAt_of_append {t u : Bytes} (h : OccursAt needle t j) :
    OccursAt needle (t ++ u) j := by
  rw [OccursAt, List.drop_append]
  exact h.trans (List.prefix_append _ _)

theorem exists_occursAt_of_infix (h : needle <:+: s) :
    ∃ j, OccursAt needle s j ∧ j + needle.length ≤ s.length := by
  obtain ⟨t, u, rfl⟩ := h
  refine ⟨t.length, ?_, by simp⟩
  rw [OccursAt, List.append_assoc, List.drop_left]
  exact List.prefix_append _ _

theorem IsFirstFrom.unique (hi : IsFirstFrom needle s start i) (hj : IsFirstFrom needle s start j) :
    i = j := by
  apply Nat.le_antisymm
  · exact Nat.le_of_not_lt fun hlt => hi.not_occursAt j hj.start_le hlt hj.occursAt
  · exact Nat.le_of_not_lt fun hlt => hj.not_occursAt i hi.start_le hlt hi.occursAt

/-- There is one way of picking leftmost occurrences. -/
theorem LeftmostFrom.unique {is js : List Nat} (hi : LeftmostFrom needle s start is)
    (hj : LeftmostFrom needle s start js) : is = js := by
  induction hi generalizing js with
  | none hnone =>
    cases hj with
    | none => rfl
    | next hfirst => exact absurd hfirst.occursAt (hnone _ hfirst.start_le)
  | next hfirst _ ih =>
    cases hj with
    | none hnone => exact absurd hfirst.occursAt (hnone _ hfirst.start_le)
    | next hfirst' hrest =>
      obtain rfl := hfirst.unique hfirst'
      rw [ih hrest]

theorem not_occursAt_of_indexOf?_eq_none (h : indexOf? s needle = none) (j : Nat) :
    ¬ OccursAt needle s j := by
  induction s generalizing j with
  | nil =>
    simp only [indexOf?, List.isEmpty_iff, ite_eq_right_iff, reduceCtorEq, imp_false] at h
    rwa [OccursAt, List.drop_nil, List.prefix_nil]
  | cons b s ih =>
    simp only [indexOf?] at h
    split at h
    · cases h
    next hprefix =>
      cases j with
      | zero => exact fun hz => hprefix (List.isPrefixOf_iff_prefix.2 hz)
      | succ j => exact ih (Option.map_eq_none_iff.1 h) j

/-- The search finds the first occurrence. -/
theorem isFirstFrom_of_indexOf? (h : indexOf? s needle = some i) : IsFirstFrom needle s 0 i := by
  induction s generalizing i with
  | nil =>
    simp only [indexOf?] at h
    split at h
    next hempty =>
      cases h
      rw [List.isEmpty_iff.1 hempty]
      exact ⟨Nat.le_refl 0, List.nil_prefix, fun j _ hj => absurd hj (Nat.not_lt_zero j)⟩
    next => cases h
  | cons b s ih =>
    simp only [indexOf?] at h
    split at h
    next hprefix =>
      cases h
      exact ⟨Nat.le_refl 0, List.isPrefixOf_iff_prefix.1 hprefix,
        fun j _ hj => absurd hj (Nat.not_lt_zero j)⟩
    next hprefix =>
      obtain ⟨k, hk, rfl⟩ := Option.map_eq_some_iff.1 h
      have hfirst := ih hk
      refine ⟨Nat.zero_le _, hfirst.occursAt, fun j _ hj => ?_⟩
      cases j with
      | zero => exact fun hz => hprefix (List.isPrefixOf_iff_prefix.2 hz)
      | succ j => exact hfirst.not_occursAt j (Nat.zero_le j) (Nat.lt_of_succ_lt_succ hj)

/-- What is first in the rest of a string is first from there on. -/
theorem IsFirstFrom.of_drop (h : IsFirstFrom needle (s.drop start) 0 i) :
    IsFirstFrom needle s start (start + i) := by
  refine ⟨Nat.le_add_right start i, occursAt_drop_iff.1 h.occursAt, fun j hle hlt hj => ?_⟩
  obtain ⟨k, rfl⟩ := Nat.exists_eq_add_of_le hle
  exact h.not_occursAt k (Nat.zero_le k) (Nat.lt_of_add_lt_add_left hlt) (occursAt_drop_iff.2 hj)

/-- What lies between delimiters of length `n` at given positions, from `start` on. -/
def between (s : Bytes) (n : Nat) (start : Nat) : List Nat → List Bytes
  | [] => [s.drop start]
  | i :: is => (s.drop start).take (i - start) :: between s n (i + n) is

/-- A string is split at the leftmost occurrences of the delimiter. -/
theorem exists_splitOn_eq_between (d : UInt8) (ds s : Bytes) (start : Nat) :
    ∃ cuts, LeftmostFrom (d :: ds) s start cuts ∧
      splitOn d ds (s.drop start) = s.between (d :: ds).length start cuts := by
  induction h : s.drop start using splitOn.induct d ds generalizing start with
  | case1 t hnone =>
    subst h
    refine ⟨[], .none fun j hle hj => ?_, ?_⟩
    · obtain ⟨k, rfl⟩ := Nat.exists_eq_add_of_le hle
      exact not_occursAt_of_indexOf?_eq_none hnone k (occursAt_drop_iff.2 hj)
    · rw [splitOn, hnone, between]
  | case2 t i hsome ih =>
    subst h
    have hfirst := (isFirstFrom_of_indexOf? hsome).of_drop
    obtain ⟨cuts, hcuts, heq⟩ := ih (start + i + (d :: ds).length)
      (by rw [List.drop_drop, Nat.add_assoc])
    refine ⟨(start + i) :: cuts, .next hfirst hcuts, ?_⟩
    rw [splitOn, hsome, between, Nat.add_sub_cancel_left, ← heq]

theorem length_between (s : Bytes) (n start : Nat) (cuts : List Nat) :
    (s.between n start cuts).length = cuts.length + 1 := by
  induction cuts generalizing start with
  | nil => rfl
  | cons i is ih => exact congrArg Nat.succ (ih (i + n))

theorem between_ne_nil (s : Bytes) (n start : Nat) (cuts : List Nat) :
    s.between n start cuts ≠ [] := by
  cases cuts <;> exact List.cons_ne_nil _ _

theorem IsFirstFrom.take_append_drop (h : IsFirstFrom needle s start i) :
    (s.drop start).take (i - start) ++ s.drop i = s.drop start := by
  have hrest : (s.drop start).drop (i - start) = s.drop i := by
    rw [List.drop_drop, Nat.add_sub_cancel' h.start_le]
  rw [← hrest]
  exact List.take_append_drop _ _

/-- Joining the parts with the delimiter gives the rest of the string back. -/
theorem LeftmostFrom.intercalate_between {cuts : List Nat}
    (h : LeftmostFrom needle s start cuts) :
    needle.intercalate (s.between needle.length start cuts) = s.drop start := by
  induction h with
  | none => exact List.intercalate_singleton
  | @next start i is hfirst _ ih =>
    have hne := between_ne_nil s needle.length (i + needle.length) is
    rw [between]
    calc
      needle.intercalate
          ((s.drop start).take (i - start) :: s.between needle.length (i + needle.length) is)
        = (s.drop start).take (i - start) ++ needle ++
            needle.intercalate (s.between needle.length (i + needle.length) is) :=
          List.intercalate_cons_of_ne_nil hne
      _ = (s.drop start).take (i - start) ++ (needle ++ s.drop (i + needle.length)) := by
          rw [ih, List.append_assoc]
      _ = (s.drop start).take (i - start) ++ s.drop i := by
          rw [hfirst.occursAt.append_drop]
      _ = s.drop start := hfirst.take_append_drop

/-- No part contains the delimiter: it would occur before the part ends. -/
theorem LeftmostFrom.not_infix_of_mem_between {cuts : List Nat}
    (h : LeftmostFrom needle s start cuts) (hn : needle ≠ []) :
    ∀ part ∈ s.between needle.length start cuts, ¬ needle <:+: part := by
  induction h with
  | @none start hnone =>
    refine List.forall_mem_singleton.2 fun hinfix => ?_
    obtain ⟨j, hj, -⟩ := exists_occursAt_of_infix hinfix
    exact hnone (start + j) (Nat.le_add_right start j) (occursAt_drop_iff.1 hj)
  | @next start i is hfirst _ ih =>
    refine List.forall_mem_cons.2 ⟨fun hinfix => ?_, ih⟩
    obtain ⟨j, hj, hlt⟩ := exists_occursAt_of_infix hinfix
    have hoccurs := occursAt_of_append (u := s.drop i) hj
    rw [hfirst.take_append_drop, occursAt_drop_iff] at hoccurs
    have hpos := List.length_pos_iff.2 hn
    have hle := List.length_take_le (i - start) (s.drop start)
    exact hfirst.not_occursAt (start + j) (Nat.le_add_right start j) (by omega) hoccurs

/-- Where a part begins that follows given parts, each of which a delimiter of length `n` ends. -/
def startAfter (n : Nat) : (before : List Bytes) → Nat
  | [] => 0
  | part :: before => part.length + n + startAfter n before

/-- Every part but the last ends at the first occurrence of the delimiter from its beginning on. -/
theorem LeftmostFrom.isFirstFrom_of_between_eq {cuts : List Nat} {before after : List Bytes}
    {part : Bytes} (h : LeftmostFrom needle s start cuts) (hn : needle ≠ [])
    (heq : s.between needle.length start cuts = before ++ part :: after) (hafter : after ≠ []) :
    IsFirstFrom needle s (start + startAfter needle.length before)
      (start + startAfter needle.length before + part.length) := by
  induction h generalizing before with
  | none =>
    obtain ⟨-, h⟩ := (List.append_eq_singleton_iff.1 heq.symm).resolve_right (by simp)
    exact absurd (List.cons_eq_cons.1 h).2 hafter
  | @next start i is hfirst _ ih =>
    have hlength : ((s.drop start).take (i - start)).length = i - start := by
      have hle := hfirst.occursAt.add_length_le hn
      rw [List.length_take, List.length_drop]
      omega
    have hi : start + (i - start) = i := Nat.add_sub_cancel' hfirst.start_le
    cases before with
    | nil =>
      obtain ⟨rfl, -⟩ := List.cons_eq_cons.1 heq
      rw [hlength]
      exact hi.symm ▸ hfirst
    | cons first before =>
      obtain ⟨rfl, hrest⟩ := List.cons_eq_cons.1 heq
      have hstart : start + startAfter needle.length ((s.drop start).take (i - start) :: before) =
          i + needle.length + startAfter needle.length before := by
        rw [startAfter, hlength]
        omega
      rw [hstart]
      exact ih hrest

/-- A string is split at any delimiter that is not empty. Joining the parts gives the string back,
and no part contains the delimiter. Every part but the last ends where the delimiter occurs first
from the beginning of the part on, and so there is one part more than there are leftmost occurrences
that do not overlap. -/
theorem intercalate_split (s : Bytes) {d : Bytes} (hd : d ≠ []) :
    ∃ parts cuts, s.split d = .ok parts ∧ d.intercalate parts = s ∧
      (∀ part ∈ parts, ¬ d <:+: part) ∧
      (∀ before part after, parts = before ++ part :: after → after ≠ [] →
        IsFirstFrom d s (startAfter d.length before)
          (startAfter d.length before + part.length)) ∧
      (∀ is, LeftmostFrom d s 0 is ↔ is = cuts) ∧ parts.length = cuts.length + 1 := by
  obtain ⟨b, bs, rfl⟩ := List.exists_cons_of_ne_nil hd
  obtain ⟨cuts, hcuts, heq⟩ := exists_splitOn_eq_between b bs s 0
  refine ⟨splitOn b bs s, cuts, rfl, ?_, ?_, ?_, ?_, ?_⟩
  · exact (congrArg _ heq).trans hcuts.intercalate_between
  · rw [List.drop_zero] at heq
    rw [heq]
    exact hcuts.not_infix_of_mem_between hd
  · intro before part after hparts hafter
    have hfirst := hcuts.isFirstFrom_of_between_eq hd (heq.symm.trans hparts) hafter
    rwa [Nat.zero_add] at hfirst
  · intro is
    exact ⟨fun his => his.unique hcuts, fun his => his ▸ hcuts⟩
  · exact (congrArg List.length heq).trans (length_between s _ 0 cuts)

/-- A delimiter that overlaps itself, in a string that it fills but for one byte: five times `a` are
split at `aa` twice, at the first byte and at the third. -/
theorem intercalate_split_overlapping :
    let a : UInt8 := 0x61
    [a, a] ≠ ([] : Bytes) ∧
      ∃ parts cuts, split [a, a, a, a, a] [a, a] = .ok parts ∧
        List.intercalate [a, a] parts = [a, a, a, a, a] ∧ (∀ part ∈ parts, ¬ [a, a] <:+: part) ∧
        parts = [[], [], [a]] ∧ IsFirstFrom [a, a] [a, a, a, a, a] 2 2 ∧
        (∀ is, LeftmostFrom [a, a] [a, a, a, a, a] 0 is ↔ is = cuts) ∧
        parts.length = cuts.length + 1 := by
  intro a
  have hd : [a, a] ≠ ([] : Bytes) := List.cons_ne_nil _ _
  obtain ⟨parts, cuts, hsplit, hjoin, hfree, hfirst, hcuts, hlength⟩ :=
    intercalate_split [a, a, a, a, a] hd
  have hparts : parts = [[], [], [a]] := by
    have heq : split [a, a, a, a, a] [a, a] = .ok [[], [], [a]] := by cbv
    exact Except.ok.inj (hsplit.symm.trans heq)
  exact ⟨hd, parts, cuts, hsplit, hjoin, hfree, hparts,
    hfirst [[]] [] [[a]] hparts (List.cons_ne_nil _ _), hcuts, hlength⟩

end Bytes

end ObjectModel
