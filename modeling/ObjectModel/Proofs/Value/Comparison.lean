import ObjectModel.Proofs.Double.Order
import ObjectModel.Proofs.Heap.Assignment
import ObjectModel.Value.Comparison
/-!
# How the comparisons agree

Values are compared at the ends of their references. Identity is finer than loose equality, and
loose equality is finer than being equal in order, although the two look at different things: loose
equality compares texts where no number is involved, and the order compares truth values where
something is that has one only. Both agree because a truth value, or nothing, has a text that tells
its truth value, `toBool_eq_plainText`, and a number that does, `toBool_of_numEq_unit`.
-/

namespace ObjectModel

namespace Val

variable {v w : Val}

theorem identical_comm (v w : Val) : v.identical w = w.identical v := by
  cases v <;> cases w <;> first | exact Double.numEq_comm _ _ | exact BEq.comm

/-- Identical values are equal, except that doubles are compared as numbers and strings by their
bytes. -/
theorem cases_of_identical (h : v.identical w = true) :
    (∃ a b, v = .float a ∧ w = .float b ∧ a.numEq b = true) ∨
      (∃ s t, v = .str s ∧ w = .str t ∧ s.bytes = t.bytes) ∨
      v = w ∧ v.isFloat = false ∧ v.isStr = false := by
  cases v with
  | float a =>
    cases w with
    | float b => exact .inl ⟨a, b, rfl, rfl, h⟩
    | _ => cases h
  | str s =>
    cases w with
    | str t => exact .inr (.inl ⟨s, t, rfl, rfl, beq_iff_eq.1 h⟩)
    | _ => cases h
  | _ => exact .inr (.inr ⟨beq_iff_eq.1 h, rfl, rfl⟩)

/-- What is neither a number nor compared by identity is a string or compared by its truth value. -/
theorem isTruthLike_or_isStr (hr : v.isReference = false) (hc : v.isComposite = false)
    (hn : v.isNumber = false) : v.isTruthLike = true ∨ v.isStr = true := by
  cases v with
  | undefined | null | bool b => exact .inl rfl
  | str s => exact .inr rfl
  | int i | float d => cases hn
  | array r | object r | resource r => cases hc
  | reference c => cases hr

theorem isNumber_eq_false_of_isTruthLike (hv : v.isTruthLike = true) : v.isNumber = false := by
  cases v <;> first | rfl | cases hv

end Val

theorem Bytes.compareNumerals?_swap (s t : Bytes) :
    t.compareNumerals? s = (s.compareNumerals? t).map Ordering.swap := by
  rw [compareNumerals?, compareNumerals?]
  cases Numeral.scanWhole? s with
  | none =>
    cases Numeral.scanWhole? t <;> exact congrArg some Std.OrientedOrd.eq_swap
  | some a =>
    cases Numeral.scanWhole? t with
    | none => exact congrArg some Std.OrientedOrd.eq_swap
    | some b => exact Double.compare?_swap _ _

/-- A string is equal to itself in order: as a numeral it is not a NaN. -/
theorem Bytes.compareNumerals?_self (s : Bytes) : s.compareNumerals? s = some .eq := by
  rw [compareNumerals?]
  cases hs : Numeral.scanWhole? s with
  | none => exact congrArg some Std.ReflOrd.compare_self
  | some a =>
    rw [Numeral.scanWhole?, Option.map_eq_some_iff] at hs
    obtain ⟨r, hr, rfl⟩ := hs
    have hscan := (Option.filter_eq_some_iff.1 hr).1
    exact Double.numEq_iff_compare?.1 (Double.numEq_self_iff.2 (Numeral.isNaN_of_scan? hscan))

namespace Heap

variable {h : Heap} {v w : Val}

theorem isReference_of_isTruthLike (hv : v.isTruthLike = true) : v.isReference = false := by
  cases v <;> first | rfl | cases hv

/-- A truth value, or nothing, counts as one or zero. -/
theorem toNumeric_of_isTruthLike (h : Heap) (hv : v.isTruthLike = true) :
    h.toNumeric v = .int (if h.toBool v then 1 else 0) := by
  have hint : h.toNumeric v = .int (h.toInt v) := by
    rw [toNumeric, h.deref_eq_self (isReference_of_isTruthLike hv)]
    cases v <;> first | rfl | cases hv
  rw [hint, toInt.eq_def, toBool, h.deref_eq_self (isReference_of_isTruthLike hv)]
  cases v <;> first | rfl | cases hv

/-- A number that equals one is true, and one that equals zero is false. -/
theorem toBool_of_numEq_unit (hw : w.isNumber = true) {b : Bool}
    (he : (Numeric.int (if b then 1 else 0)).numEq (h.toNumeric w) = true) : h.toBool w = b := by
  cases w with
  | int i =>
    have hnumber : h.toNumeric (.int i) = .int i := by rw [toNumeric, deref_int]
    have htruth : h.toBool (.int i) = (i != 0) := by rw [toBool, deref_int]
    rw [hnumber] at he
    rw [htruth, ← show (if b then 1 else 0) = i from beq_iff_eq.1 he]
    cases b <;> rfl
  | float d =>
    have hnumber : h.toNumeric (.float d) = .float d := by rw [toNumeric, h.deref_eq_self rfl]
    have htruth : h.toBool (.float d) = d.isTruthy := by rw [toBool, h.deref_eq_self rfl]
    rw [hnumber] at he
    obtain ⟨-, hnan, hrank⟩ := Double.numEq_iff.1 (show Double.numEq _ d = true from he)
    have hunit : (Double.ofInt (if b then (1 : Int64) else 0).toInt).rank =
        if b then 0x3FF0000000000000 else 0 := by
      cases b <;> decide
    have hrank : d.rank = if b then 0x3FF0000000000000 else 0 := hrank.symm.trans hunit
    rw [htruth, Double.isTruthy, hnan, Bool.not_false, Bool.true_and, Bool.eq_iff_iff, bne_iff_ne]
    rw [Double.rank] at hrank
    cases b with
    | true =>
      rw [if_pos rfl] at hrank
      refine iff_of_true ?_ rfl
      split at hrank <;> omega
    | false =>
      rw [if_neg Bool.false_ne_true] at hrank
      refine iff_of_false ?_ Bool.false_ne_true
      split at hrank <;> omega
  | _ => cases hw

/-- Where a value is a string, or compared by its truth value, its text tells the truth value. -/
theorem toBool_eq_plainText (h : Heap) (precision : Nat)
    (hv : v.isTruthLike = true ∨ v.isStr = true) :
    h.toBool v = !((v.plainText precision).isEmpty || v.plainText precision == [0x30]) := by
  cases v with
  | undefined | null => rw [toBool, h.deref_eq_self rfl]; rfl
  | bool b => rw [toBool, h.deref_eq_self rfl]; cases b <;> rfl
  | str s => rw [toBool, h.deref_eq_self rfl]; rfl
  | _ => obtain hv | hv := hv <;> cases hv

/-- What is neither a double nor a string counts as an integer. -/
theorem exists_toNumeric_eq_int (hr : v.isReference = false) (hf : v.isFloat = false)
    (hs : v.isStr = false) : ∃ i, h.toNumeric v = .int i := by
  rw [toNumeric, h.deref_eq_self hr]
  cases v with
  | float d => cases hf
  | str s => cases hs
  | _ => exact ⟨_, rfl⟩

/-- How the order of two values that are no references comes about. -/
inductive ComparesTo (h : Heap) : Val → Val → Option Ordering → Prop
  | strings (s t : Text) : ComparesTo h (.str s) (.str t) (s.bytes.compareNumerals? t.bytes)
  | arrays (r s : ArrayRef) :
      ComparesTo h (.array r) (.array s) (some (compare (h.array r).size (h.array s).size))
  | objects (o p : ObjectRef) :
      ComparesTo h (.object o) (.object p) (if o = p then some .eq else none)
  /-- If one side is compared by its truth value, so is the other. -/
  | truth {v w : Val} : v.isTruthLike = true ∨ w.isTruthLike = true →
      ComparesTo h v w (some (compare (h.toBool v) (h.toBool w)))
  | numbers {v w : Val} : v.isTruthLike = false → w.isTruthLike = false →
      ¬(v.isStr = true ∧ w.isStr = true) → ¬(v.isArray = true ∧ w.isArray = true) →
      ¬(v.isObject = true ∧ w.isObject = true) →
      ComparesTo h v w ((h.toNumeric v).compare? (h.toNumeric w))

theorem comparesTo_compare? (hv : v.isReference = false) (hw : w.isReference = false) :
    h.ComparesTo v w (h.compare? v w) := by
  rw [compare?, h.deref_eq_self hv, h.deref_eq_self hw]
  split
  · exact .strings _ _
  · exact .arrays _ _
  · exact .objects _ _
  next hstr harray hobject =>
    split
    next ht => exact .truth (Bool.or_eq_true _ _ ▸ ht)
    next ht =>
      rw [Bool.or_eq_true, not_or, Bool.not_eq_true, Bool.not_eq_true] at ht
      refine .numbers ht.1 ht.2 ?_ ?_ ?_
      · rintro ⟨hv, hw⟩
        cases v <;> cases hv
        cases w <;> cases hw
        exact hstr _ _ rfl rfl
      · rintro ⟨hv, hw⟩
        cases v <;> cases hv
        cases w <;> cases hw
        exact harray _ _ rfl rfl
      · rintro ⟨hv, hw⟩
        cases v <;> cases hv
        cases w <;> cases hw
        exact hobject _ _ rfl rfl

namespace ComparesTo

variable {o o' : Option Ordering}

/-- The order comes about in one way only. -/
theorem unique (hc : h.ComparesTo v w o) (hc' : h.ComparesTo v w o') : o = o' := by
  cases hc with
  | strings s t =>
    cases hc' with
    | strings => rfl
    | truth ht => obtain ht | ht := ht <;> cases ht
    | numbers _ _ hs => exact absurd ⟨rfl, rfl⟩ hs
  | arrays r s =>
    cases hc' with
    | arrays => rfl
    | truth ht => obtain ht | ht := ht <;> cases ht
    | numbers _ _ _ ha => exact absurd ⟨rfl, rfl⟩ ha
  | objects r s =>
    cases hc' with
    | objects => rfl
    | truth ht => obtain ht | ht := ht <;> cases ht
    | numbers _ _ _ _ ho => exact absurd ⟨rfl, rfl⟩ ho
  | truth ht =>
    cases hc' with
    | strings | arrays | objects => obtain ht | ht := ht <;> cases ht
    | truth => rfl
    | numbers hv hw =>
      rw [hv, hw] at ht
      obtain ht | ht := ht <;> cases ht
  | numbers hv hw hs ha ho =>
    cases hc' with
    | strings => exact absurd ⟨rfl, rfl⟩ hs
    | arrays => exact absurd ⟨rfl, rfl⟩ ha
    | objects => exact absurd ⟨rfl, rfl⟩ ho
    | truth ht =>
      rw [hv, hw] at ht
      obtain ht | ht := ht <;> cases ht
    | numbers => rfl

/-- Turned around, a comparison comes about in the same way. -/
theorem swap (hc : h.ComparesTo v w o) : h.ComparesTo w v (o.map Ordering.swap) := by
  cases hc with
  | strings s t =>
    rw [← Bytes.compareNumerals?_swap]
    exact .strings t s
  | arrays r s =>
    rw [Option.map_some, ← Std.OrientedOrd.eq_swap]
    exact .arrays s r
  | objects r s =>
    have hswap : (if r = s then some Ordering.eq else none).map Ordering.swap =
        if s = r then some .eq else none := by
      by_cases he : r = s
      · rw [if_pos he, if_pos he.symm]
        rfl
      · rw [if_neg he, if_neg (Ne.symm he)]
        rfl
    rw [hswap]
    exact .objects s r
  | truth ht =>
    rw [Option.map_some, ← Std.OrientedOrd.eq_swap]
    exact .truth ht.symm
  | numbers hv hw hs ha ho =>
    rw [← Numeric.compare?_swap]
    exact .numbers hw hv (mt And.symm hs) (mt And.symm ha) (mt And.symm ho)

/-- Identical values are equal in order. -/
theorem eq_of_identical (hc : h.ComparesTo v w o) (hr : v.isReference = false)
    (hi : v.identical w = true) : o = some .eq := by
  obtain ⟨a, b, rfl, rfl, hab⟩ | ⟨s, t, rfl, rfl, hst⟩ | ⟨rfl, hf, hs⟩ :=
    Val.cases_of_identical hi
  · cases hc with
    | truth ht => obtain ht | ht := ht <;> cases ht
    | numbers =>
      have hnumber (d : Double) : h.toNumeric (.float d) = .float d := by
        rw [toNumeric, h.deref_eq_self rfl]
      rw [hnumber, hnumber]
      exact Numeric.numEq_iff_compare?.1 hab
  · cases hc with
    | strings => rw [hst, Bytes.compareNumerals?_self]
    | truth ht => obtain ht | ht := ht <;> cases ht
    | numbers _ _ hs => exact absurd ⟨rfl, rfl⟩ hs
  · cases hc with
    | strings => cases hs
    | arrays | truth => exact congrArg some Std.ReflOrd.compare_self
    | objects => exact if_pos rfl
    | numbers =>
      obtain ⟨i, hint⟩ := exists_toNumeric_eq_int (h := h) hr hf hs
      rw [hint]
      exact Numeric.numEq_iff_compare?.1 (beq_self_eq_true i)

/-- Where one side is a number and both count as the same, they are equal in order: if the other
side is compared by its truth value, the number is one or zero. -/
theorem eq_of_numEq (hc : h.ComparesTo v w o) (hn : v.isNumber = true ∨ w.isNumber = true)
    (he : (h.toNumeric v).numEq (h.toNumeric w) = true) : o = some .eq := by
  cases hc with
  | strings | arrays | objects => obtain hn | hn := hn <;> cases hn
  | truth ht =>
    have htruth : h.toBool v = h.toBool w := by
      obtain ht | ht := ht
      · have hw := hn.resolve_left (by rw [Val.isNumber_eq_false_of_isTruthLike ht]; nofun)
        rw [toNumeric_of_isTruthLike h ht] at he
        exact (toBool_of_numEq_unit hw he).symm
      · have hv := hn.resolve_right (by rw [Val.isNumber_eq_false_of_isTruthLike ht]; nofun)
        rw [Numeric.numEq_comm, toNumeric_of_isTruthLike h ht] at he
        exact toBool_of_numEq_unit hv he
    rw [htruth]
    exact congrArg some Std.ReflOrd.compare_self
  | numbers => exact Numeric.numEq_iff_compare?.1 he

/-- Where neither side is a number and both have the same text, they are equal in order. -/
theorem eq_of_plainText (hc : h.ComparesTo v w o) {precision : Nat}
    (hv : v.isTruthLike = true ∨ v.isStr = true) (hw : w.isTruthLike = true ∨ w.isStr = true)
    (he : v.plainText precision = w.plainText precision) : o = some .eq := by
  cases hc with
  | strings s t =>
    rw [show s.bytes = t.bytes from he, Bytes.compareNumerals?_self]
  | arrays | objects => obtain hv | hv := hv <;> cases hv
  | truth =>
    have htruth : h.toBool v = h.toBool w := by
      rw [toBool_eq_plainText h precision hv, toBool_eq_plainText h precision hw, he]
    rw [htruth]
    exact congrArg some Std.ReflOrd.compare_self
  | numbers hv' hw' hs =>
    rw [hv'] at hv
    rw [hw'] at hw
    exact absurd ⟨hv.resolve_left nofun, hw.resolve_left nofun⟩ hs

end ComparesTo

section Coherence

variable {a b : Val}

theorem identical_comm (h : Heap) (a b : Val) : h.identical a b = h.identical b a :=
  Val.identical_comm _ _

theorem equalAcrossKinds_comm (h : Heap) (v w : Val) :
    h.equalAcrossKinds v w = h.equalAcrossKinds w v := by
  rw [equalAcrossKinds, equalAcrossKinds, Bool.or_comm v.isComposite, Bool.or_comm v.isNumber,
    Numeric.numEq_comm, BEq.comm (a := v.plainText defaultPrecision)]

theorem looselyEqual_comm (h : Heap) (a b : Val) : h.looselyEqual a b = h.looselyEqual b a := by
  rw [looselyEqual, looselyEqual]
  cases h.deref a <;> cases h.deref b <;> dsimp only <;>
    first
    | exact equalAcrossKinds_comm h _ _
    | exact BEq.comm
    | exact Double.numEq_comm _ _

/-- Identical values are loosely equal, kind by kind. -/
theorem looselyEqual_of_identical (hr : (h.deref a).isReference = false)
    (hi : h.identical a b = true) : h.looselyEqual a b = true := by
  rw [looselyEqual]
  obtain ⟨d, e, ha, hb, hde⟩ | ⟨s, t, ha, hb, hst⟩ | ⟨he, -, -⟩ := Val.cases_of_identical hi
  · rw [ha, hb]
    exact hde
  · rw [ha, hb]
    exact beq_iff_eq.2 hst
  · rw [← he]
    cases hv : h.deref a with
    | undefined | null => rfl
    | float d =>
      rw [Heap.identical, ← he, hv] at hi
      exact hi
    | reference c =>
      rw [hv] at hr
      cases hr
    | _ => exact beq_self_eq_true _

/-- Values that are loosely equal are identical, or one of them is a number and both count as the
same number, or none is and both have the same text. -/
theorem cases_of_looselyEqual (he : h.looselyEqual a b = true) :
    h.identical a b = true ∨
      ((h.deref a).isNumber = true ∨ (h.deref b).isNumber = true) ∧
        (h.toNumeric (h.deref a)).numEq (h.toNumeric (h.deref b)) = true ∨
      ((h.deref a).isComposite = false ∧ (h.deref a).isNumber = false) ∧
        ((h.deref b).isComposite = false ∧ (h.deref b).isNumber = false) ∧
        (h.deref a).plainText defaultPrecision = (h.deref b).plainText defaultPrecision := by
  rw [looselyEqual] at he
  rw [Heap.identical]
  split at he
  case h_1 ha hb | h_2 ha hb | h_3 ha hb | h_4 ha hb =>
    rw [ha, hb]
    exact .inr (.inr ⟨⟨rfl, rfl⟩, ⟨rfl, rfl⟩, rfl⟩)
  case h_5 ha hb | h_6 ha hb | h_9 ha hb | h_10 ha hb | h_11 ha hb =>
    rw [ha, hb, beq_iff_eq.1 he]
    exact .inl (beq_self_eq_true _)
  case h_7 ha hb | h_8 ha hb =>
    rw [ha, hb]
    exact .inl he
  case h_12 =>
    rw [equalAcrossKinds] at he
    split at he
    · cases he
    next hc =>
      rw [Bool.or_eq_true, not_or, Bool.not_eq_true, Bool.not_eq_true] at hc
      split at he
      next hn => exact .inr (.inl ⟨Bool.or_eq_true_iff.1 hn, he⟩)
      next hn =>
        rw [Bool.or_eq_true, not_or, Bool.not_eq_true, Bool.not_eq_true] at hn
        exact .inr (.inr ⟨⟨hc.1, hn.1⟩, ⟨hc.2, hn.2⟩, beq_iff_eq.1 he⟩)

/-- The order looks at the ends of the references. -/
theorem comparesTo_deref (ha : h.ChainEnds a) (hb : h.ChainEnds b) :
    h.ComparesTo (h.deref a) (h.deref b) (h.compare? a b) := by
  have hcompare : h.compare? a b = h.compare? (h.deref a) (h.deref b) := by
    rw [compare?, compare?, h.deref_eq_self ha.isReference_deref,
      h.deref_eq_self hb.isReference_deref]
  rw [hcompare]
  exact comparesTo_compare? ha.isReference_deref hb.isReference_deref

/-- Loosely equal values are equal in order. -/
theorem compare?_of_looselyEqual (ha : h.ChainEnds a) (hb : h.ChainEnds b)
    (he : h.looselyEqual a b = true) : h.compare? a b = some .eq := by
  have hc := comparesTo_deref ha hb
  have hra := ha.isReference_deref
  have hrb := hb.isReference_deref
  obtain hi | ⟨hn, he⟩ | ⟨hna, hnb, he⟩ := cases_of_looselyEqual he
  · exact hc.eq_of_identical hra hi
  · exact hc.eq_of_numEq hn he
  · exact hc.eq_of_plainText (Val.isTruthLike_or_isStr hra hna.1 hna.2)
      (Val.isTruthLike_or_isStr hrb hnb.1 hnb.2) he

/-- The three comparisons agree, whatever two values they are given and however many references lie
before these. Identity and loose equality do not ask which value comes first. Identical values are
loosely equal, and loosely equal ones are equal in order. Turned around, the order is turned around:
it is missing in both directions or in neither. -/
theorem comparisons_coherent (ha : h.ChainEnds a) (hb : h.ChainEnds b) :
    h.identical a b = h.identical b a ∧
      h.looselyEqual a b = h.looselyEqual b a ∧
      (h.identical a b = true → h.looselyEqual a b = true) ∧
      (h.looselyEqual a b = true → h.compare? a b = some .eq) ∧
      h.compare? b a = (h.compare? a b).map Ordering.swap := by
  exact ⟨h.identical_comm a b, h.looselyEqual_comm a b,
    looselyEqual_of_identical ha.isReference_deref, compare?_of_looselyEqual ha hb,
    (comparesTo_deref hb ha).unique (comparesTo_deref ha hb).swap⟩

/-- A string that is a numeral, behind two references, and the integer that it denotes: they are not
identical, yet loosely equal and equal in order. -/
theorem comparisons_coherent_behind_references :
    let h : Heap := { cells := #[.str ⟨Bytes.ofString " 1e1", 0⟩, .reference ⟨0⟩] }
    h.ChainEnds (.reference ⟨1⟩) ∧ h.ChainEnds (.int 10) ∧
      h.identical (.reference ⟨1⟩) (.int 10) = false ∧
      h.identical (.int 10) (.reference ⟨1⟩) = false ∧
      h.looselyEqual (.reference ⟨1⟩) (.int 10) = true ∧
      h.looselyEqual (.int 10) (.reference ⟨1⟩) = true ∧
      h.compare? (.reference ⟨1⟩) (.int 10) = some .eq ∧
      h.compare? (.int 10) (.reference ⟨1⟩) = some .eq := by
  intro h
  have hbuilt : h.Built := by
    have hone : (({} : Heap).allocCell (.str ⟨Bytes.ofString " 1e1", 0⟩)).1.Built :=
      .reference .empty nofun
    have htwo := hone.reference (v := .reference ⟨0⟩) (by rintro _ ⟨⟩; decide)
    exact htwo.store rfl
  have hstring : h.ChainEnds (.reference ⟨1⟩) := hbuilt.descends.chainEnds (by rintro _ ⟨⟩; decide)
  have hinteger : h.ChainEnds (.int 10) := hbuilt.descends.chainEnds nofun
  obtain ⟨hidentical, hloose, -, horder, hswap⟩ := comparisons_coherent hstring hinteger
  have hnot : h.identical (.reference ⟨1⟩) (.int 10) = false := by decide
  have hequal : h.looselyEqual (.reference ⟨1⟩) (.int 10) = true := by decide
  refine ⟨hstring, hinteger, hnot, hidentical ▸ hnot, hequal, hloose ▸ hequal, horder hequal, ?_⟩
  rw [hswap, horder hequal]
  rfl

end Coherence

end Heap

end ObjectModel
