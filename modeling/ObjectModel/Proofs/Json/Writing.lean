import ObjectModel.Proofs.Heap.Reachability
import ObjectModel.Proofs.Json.ValueTree
import ObjectModel.Proofs.OrderedArray.Key
/-!
# Writing value trees

The writer writes a value that denotes a tree as the text of this tree, or refuses it because the
tree is nested too deep. It also refuses an array that lies in itself and strings that are not UTF-8;
but a value that denotes a tree cannot lie in itself, because the arrays around it denote trees of
greater nesting. The same bound shows that the writer is never out of fuel: the arrays around a value
are distinct.
-/

namespace ObjectModel

namespace Bytes

theorem decode?_eq_some_chars {s : Bytes} (h : (Utf8.decode? s).isSome) :
    Utf8.decode? s = some s.chars := by
  obtain ⟨cs, hcs⟩ := Option.isSome_iff_exists.1 h
  rw [chars, hcs, Option.getD_some]

theorem encode_chars {s : Bytes} (h : (Utf8.decode? s).isSome) : Utf8.encode s.chars = s :=
  (Utf8.decode?_eq_some_iff.1 (decode?_eq_some_chars h)).symm

end Bytes

namespace Key

theorem IsNormal.isSome_decode?_text {k : Key} (h : k.IsNormal) :
    (Bytes.Utf8.decode? k.text).isSome := by
  cases k with
  | int i => rw [text_int, Bytes.Utf8.decode?_encode]; rfl
  | str s => exact h.1

theorem IsNormal.isNormalized {k : Key} (h : k.IsNormal) : k.IsNormalized := by
  cases k with
  | int i => trivial
  | str s => exact h.2

end Key

namespace ValueTree

mutual

theorem WellFormed.isUtf8 {t : ValueTree} (h : t.WellFormed) : t.IsUtf8 := by
  match t with
  | .null | .bool _ | .int _ => trivial
  | .str s => exact h
  | .array es => exact WellFormedEntries.areUtf8 h.2

theorem WellFormedEntries.areUtf8 {es : List (Key × ValueTree)} (h : WellFormedEntries es) :
    EntriesAreUtf8 es := by
  match es with
  | [] => trivial
  | (k, t) :: es => exact ⟨h.1.isSome_decode?_text, h.2.1.isUtf8, h.2.2.areUtf8⟩

end

end ValueTree

namespace Json

open ValueTree

theorem encodeText_eq_ok (style : JsonStyle) {s : Bytes} (h : (Bytes.Utf8.decode? s).isSome) :
    encodeText style s = .ok (quote style s.chars) := by
  rw [encodeText, Bytes.decode?_eq_some_chars h]

namespace Writer

/-- The text of a value that is neither a container nor a reference. -/
def writeScalar (w : Writer) : Val → Except JsonError (List Char)
  | .undefined | .null => .ok "null".toList
  | .bool true => .ok "true".toList
  | .bool false => .ok "false".toList
  | .int i => .ok (decimalText i.toInt)
  | .float d => encodeDouble w.style w.precision d
  | .str s => encodeText w.style s.bytes
  | _ => .error .unsupportedType

theorem write_of_scalar {w : Writer} {n : Nat} {outer : List Val} {u v : Val}
    (hv : w.heap.deref v = u) (hu : u.isContainer = false) :
    w.write n outer v = w.writeScalar u := by
  rw [write.eq_def]
  cases u with
  | array r => cases hu
  | object r => cases hu
  | bool b => cases b <;> simp only [hv, writeScalar]
  | _ => simp only [hv, writeScalar]

theorem enter_eq_ok_iff {w : Writer} {outer inner : List Val} {v : Val} :
    w.enter outer v = .ok inner ↔
      v ∉ outer ∧ outer.length + 1 ≤ w.maxDepth ∧ inner = v :: outer := by
  rw [enter]
  split
  next hm => simp [List.contains_iff_mem.1 hm]
  next hm =>
    rw [List.contains_iff_mem] at hm
    split
    next hd => simp [Nat.not_le.2 hd]
    next hd => simp [hm, Nat.not_lt.1 hd, eq_comm]

/-- Whether `outer` are distinct arrays that each denote a tree of nesting greater than `depth`. -/
structure Encloses (h : Heap) (outer : List Val) (depth : Nat) : Prop where
  nodup : outer.Nodup
  deeper : ∀ o ∈ outer, ∃ r t, o = .array r ∧ r.index < h.arrays.size ∧
    Denotes h t o ∧ depth < t.nesting

namespace Encloses

variable {h : Heap} {outer : List Val} {depth : Nat}

theorem nil : Encloses h [] depth := ⟨List.nodup_nil, nofun⟩

theorem of_le {depth' : Nat} (he : Encloses h outer depth) (hd : depth' ≤ depth) :
    Encloses h outer depth' := by
  refine ⟨he.nodup, ?_⟩
  intro o ho
  obtain ⟨r, t, hr, hi, ht, hn⟩ := he.deeper o ho
  exact ⟨r, t, hr, hi, ht, Nat.lt_of_le_of_lt hd hn⟩

/-- There are at most as many enclosing arrays as arrays. -/
theorem length_le (he : Encloses h outer depth) : outer.length ≤ h.arrays.size := by
  have hs : outer ⊆ (List.range h.arrays.size).map fun i => Val.array ⟨i⟩ := by
    intro o ho
    obtain ⟨r, t, rfl, hi, -, -⟩ := he.deeper o ho
    exact List.mem_map.2 ⟨r.index, List.mem_range.2 hi, rfl⟩
  have hl := (he.nodup.subperm hs).length_le
  rwa [List.length_map, List.length_range] at hl

variable {es : List (Key × ValueTree)} {r : ArrayRef}

theorem notMem (he : Encloses h outer (ValueTree.array es).nesting)
    (hr : Denotes h (.array es) (.array r)) : Val.array r ∉ outer := by
  intro hm
  obtain ⟨_, t, -, -, ht, hn⟩ := he.deeper _ hm
  rw [ht.unique hr] at hn
  exact Nat.lt_irrefl _ hn

/-- An array encloses its elements as well. -/
theorem cons (he : Encloses h outer (ValueTree.array es).nesting)
    (hr : Denotes h (.array es) (.array r)) (hi : r.index < h.arrays.size) :
    Encloses h (.array r :: outer) (nestingOfEntries es) := by
  refine ⟨List.nodup_cons.2 ⟨he.notMem hr, he.nodup⟩, ?_⟩
  intro o ho
  obtain rfl | ho := List.mem_cons.1 ho
  · exact ⟨r, .array es, rfl, hi, hr, Nat.lt_succ_self _⟩
  · exact (he.of_le (Nat.le_succ _)).deeper o ho

end Encloses

/-- Whether a tree of nesting `depth` may be written inside `outer`: there is fuel for it, and the
containers around it are not too many. -/
structure Suffices (w : Writer) (n : Nat) (outer : List Val) (depth : Nat) : Prop where
  encloses : Encloses w.heap outer depth
  fuel : w.heap.arrays.size < n + outer.length
  room : outer.length ≤ w.maxDepth

variable {w : Writer} {n depth depth' : Nat} {outer : List Val} {es : List (Key × ValueTree)}
  {r : ArrayRef} {α β γ : Type}

theorem Suffices.of_le (hs : w.Suffices n outer depth) (hd : depth' ≤ depth) :
    w.Suffices n outer depth' :=
  ⟨hs.encloses.of_le hd, hs.fuel, hs.room⟩

/-- There is as much fuel less inside an array that is entered. -/
theorem Suffices.cons (hs : w.Suffices (n + 1) outer (ValueTree.array es).nesting)
    (hr : Denotes w.heap (.array es) (.array r)) (hi : r.index < w.heap.arrays.size)
    (hd : outer.length + 1 ≤ w.maxDepth) :
    w.Suffices n (.array r :: outer) (nestingOfEntries es) := by
  refine ⟨hs.encloses.cons hr hi, ?_, hd⟩
  have := hs.fuel
  rw [List.length_cons]
  omega

/-- A result that lies `depth` containers deep, if the writer allows that many. -/
def within (w : Writer) (depth : Nat) (a : α) : Except JsonError α :=
  if depth ≤ w.maxDepth then .ok a else .error .depth

theorem within_of_le (hd : depth ≤ w.maxDepth) (a : α) : w.within depth a = .ok a := if_pos hd

theorem within_bind (depth : Nat) (a : α) (f : α → β) :
    (w.within depth a >>= fun a => pure (f a)) = w.within depth (f a) := by
  rw [within, within]
  split <;> rfl

/-- Of two results that are put together the deeper one counts. -/
theorem within_bind_within (depth depth' : Nat) (a : α) (b : β) (f : α → β → γ) :
    (w.within depth a >>= fun a => w.within depth' b >>= fun b => pure (f a b)) =
      w.within (max depth depth') (f a b) := by
  simp only [within, Nat.max_le]
  by_cases hd : depth ≤ w.maxDepth
  · simp only [hd, true_and, if_true]
    exact within_bind depth' b (f a)
  · simp only [hd, false_and, if_false]
    rfl

/-- An array that denotes a tree is entered unless it lies too deep. -/
theorem enter_eq (hs : w.Suffices n outer (ValueTree.array es).nesting)
    (hr : Denotes w.heap (.array es) (.array r)) :
    w.enter outer (.array r) = w.within (outer.length + 1) (.array r :: outer) := by
  have hm : ¬ outer.contains (Val.array r) = true := by
    rw [List.contains_iff_mem]
    exact hs.encloses.notMem hr
  rw [enter, if_neg hm, within, ← ite_not]
  simp only [Nat.not_lt]

/-- How an array is written that the writer may enter. -/
theorem write_array {w : Writer} {n : Nat} {outer inner : List Val} {v : Val} {r : ArrayRef}
    (hv : w.heap.deref v = .array r) (he : w.enter outer (.array r) = .ok inner) :
    w.write (n + 1) outer v =
      if w.style.forceObject || !(w.heap.array r).isList then
        w.writeMembers (w.write n inner) inner.length
          ((w.heap.array r).entries.map fun (k, v) => (k.text, v))
      else w.writeItems (w.write n inner) inner.length (w.heap.array r).values := by
  rw [write.eq_def]
  simp only [hv, he]
  rfl

theorem write_array_eq_error {v : Val} {e : JsonError} (hv : w.heap.deref v = .array r)
    (he : w.enter outer (.array r) = .error e) : w.write (n + 1) outer v = .error e := by
  rw [write.eq_def]
  simp only [hv, he]
  rfl

mutual

/-- A value that denotes a tree is written as the text of the tree if the tree, with the containers
around it, is not nested too deep. -/
theorem write_eq {w : Writer} {n : Nat} {outer : List Val} {t : ValueTree} {v : Val}
    (hu : t.IsUtf8) (ht : Denotes w.heap t v) (hs : w.Suffices n outer t.nesting) :
    w.write n outer v = w.within (outer.length + t.nesting) (t.text w.style outer.length) := by
  -- a scalar is as deep as the containers around it
  have hscalar {u : Val} {text : List Char} (hv : w.heap.deref v = u)
      (hu : u.isContainer = false) (htext : w.writeScalar u = .ok text) :
      w.write n outer v = w.within (outer.length + 0) text := by
    rw [write_of_scalar hv hu, htext]
    exact (within_of_le hs.room text).symm
  match t with
  | .null | .bool true | .bool false | .int _ => exact hscalar ht rfl rfl
  | .str s =>
    obtain ⟨buffer, hv⟩ := ht
    exact hscalar hv rfl (encodeText_eq_ok w.style hu)
  | .array es =>
    obtain ⟨r, a, hv, ha, he⟩ := ht
    have hi : r.index < w.heap.arrays.size := (Array.getElem?_eq_some_iff.1 ha).1
    have hr : Denotes w.heap (.array es) (.array r) := ⟨r, a, w.heap.deref_eq_self rfl, ha, he⟩
    have hra : w.heap.array r = a := by rw [Heap.array, ha, Option.getD_some]
    have henter := enter_eq hs hr
    have hdepth : outer.length + (ValueTree.array es).nesting =
        outer.length + 1 + nestingOfEntries es := by
      rw [ValueTree.nesting]
      omega
    cases n with
    | zero =>
      have := hs.fuel
      have := hs.encloses.length_le
      omega
    | succ n =>
      by_cases hd : outer.length + 1 ≤ w.maxDepth
      · rw [within_of_le hd] at henter
        have hcons := hs.cons hr hi hd
        rw [write_array hv henter, hra, ← he.hasListKeys_eq, ValueTree.text, hdepth]
        change (if isWrittenAsObject w.style es then _ else _) = _
        split
        · rw [writeMembers, mapM_member_eq hu he hcons]
          exact within_bind _ _ _
        · rw [writeItems, OrderedArray.values, mapM_item_eq hu he hcons]
          exact within_bind _ _ _
      · rw [within, if_neg hd] at henter
        rw [write_array_eq_error hv henter, within, if_neg (by omega)]

/-- The elements of an array are written as the texts of the trees that they denote. -/
theorem mapM_item_eq {w : Writer} {n : Nat} {outer : List Val} {es : List (Key × ValueTree)}
    {vs : List (Key × Val)} (hu : EntriesAreUtf8 es) (he : EntriesDenote w.heap es vs)
    (hs : w.Suffices n outer (nestingOfEntries es)) :
    (vs.map Prod.snd).mapM (w.write n outer) =
      w.within (outer.length + nestingOfEntries es) (itemTexts w.style outer.length es) := by
  match es with
  | [] =>
    rw [show vs = [] from he]
    exact (within_of_le hs.room _).symm
  | (k, t) :: es =>
    obtain ⟨v, rest, rfl, ht, he⟩ := he
    rw [List.map_cons, List.mapM_cons, write_eq hu.2.1 ht (hs.of_le (Nat.le_max_left _ _)),
      mapM_item_eq hu.2.2 he (hs.of_le (Nat.le_max_right _ _)), nestingOfEntries,
      ← Nat.add_max_add_left]
    exact within_bind_within _ _ _ _ _

/-- The entries of an array are written as their keys and the texts of the trees that the elements
denote. -/
theorem mapM_member_eq {w : Writer} {n : Nat} {outer : List Val}
    {es : List (Key × ValueTree)} {vs : List (Key × Val)} (hu : EntriesAreUtf8 es)
    (he : EntriesDenote w.heap es vs) (hs : w.Suffices n outer (nestingOfEntries es)) :
    ((vs.map fun (k, v) => (k.text, v)).mapM fun (name, v) => do
      return (← encodeText w.style name) ++ nameSeparator w.style ++ (← w.write n outer v)) =
      w.within (outer.length + nestingOfEntries es) (memberTexts w.style outer.length es) := by
  match es with
  | [] =>
    rw [show vs = [] from he]
    exact (within_of_le hs.room _).symm
  | (k, t) :: es =>
    obtain ⟨v, rest, rfl, ht, he⟩ := he
    have hmember : (do
        let name ← encodeText w.style k.text
        let text ← w.write n outer v
        return name ++ nameSeparator w.style ++ text) =
        w.within (outer.length + t.nesting)
          (quote w.style k.text.chars ++ nameSeparator w.style ++ t.text w.style outer.length) := by
      rw [encodeText_eq_ok _ hu.1, write_eq hu.2.1 ht (hs.of_le (Nat.le_max_left _ _))]
      exact within_bind _ _ _
    rw [List.map_cons, List.mapM_cons,
      mapM_member_eq hu.2.2 he (hs.of_le (Nat.le_max_right _ _)), nestingOfEntries,
      ← Nat.add_max_add_left]
    simp only [hmember]
    exact within_bind_within _ _ _ _ _

end

end Writer

/-- A value that denotes a tree is written as the text of the tree if the tree is not nested too
deep, and is refused for its depth if it is. -/
theorem encode_eq {h : Heap} {t : ValueTree} {v : Val} (hu : t.IsUtf8) (hv : t.Denotes h v)
    (settings : Settings) (style : JsonStyle) (maxDepth : Nat) :
    encode h settings style maxDepth v =
      if t.nesting ≤ maxDepth then .ok (t.text style 0) else .error .depth := by
  have hroom : Writer.Suffices ⟨h, style, settings.serializePrecision, maxDepth⟩
      (h.arrays.size + h.objects.size + 1) [] t.nesting := by
    refine ⟨.nil, ?_, Nat.zero_le _⟩
    change h.arrays.size < h.arrays.size + h.objects.size + 1 + 0
    omega
  have hw := Writer.write_eq hu hv hroom
  rwa [List.length_nil, Nat.zero_add] at hw

end Json

end ObjectModel
