import ObjectModel.Json.Reader
import ObjectModel.Proofs.Json.Grammar
/-!
# Reading back the tokens of a document

A reader that has room for the nesting of a document reads its tokens as this document, whatever
brackets are open around it and whatever follows. A reader that has not stops at the first bracket
for which there is no room.
-/

namespace ObjectModel.Json

namespace Reader

variable {m : Strictness}

/-- Whether a reader may open `depth` more brackets inside `stack`. -/
def HasRoom (m : Strictness) (stack : List Frame) (depth : Nat) : Prop :=
  ∀ limit ∈ m.bracketLimit?, stack.length + depth < limit

theorem HasRoom.of_le {stack : List Frame} {depth depth' : Nat} (h : HasRoom m stack depth)
    (hd : depth' ≤ depth) : HasRoom m stack depth' := by
  intro limit hl
  have := h limit hl
  omega

theorem HasRoom.cons {stack : List Frame} {depth : Nat} (h : HasRoom m stack (depth + 1))
    (f : Frame) : HasRoom m (f :: stack) depth := by
  intro limit hl
  have := h limit hl
  rw [List.length_cons]
  omega

theorem openBracket_eq_ok {stack : List Frame} {depth : Nat} (h : HasRoom m stack (depth + 1))
    (next : Reader) : openBracket m stack next = .ok next := by
  rw [openBracket]
  cases hl : m.bracketLimit? with
  | none => rfl
  | some limit =>
    have := h limit hl
    rw [Option.any_some, if_neg]
    rw [decide_eq_true_eq]
    omega

/-- A value does not start with the end of an array. -/
private theorem toTokens_eq_cons (v : Json) :
    ∃ t ts, v.toTokens = t :: ts ∧ ∀ stack, step m (.firstItem stack) t =
      step m (.value (.items [] :: stack)) t := by
  cases v <;> exact ⟨_, _, by rw [toTokens], fun _ => rfl⟩

/-- Where the first item of an array may stand, it is read like any other. -/
private theorem foldlM_firstItem (v : Json) (vs : List Json) (stack : List Frame)
    (rest : List Token) :
    (separated (itemTokens (v :: vs)) ++ rest).foldlM (step m) (.firstItem stack) =
      (separated (itemTokens (v :: vs)) ++ rest).foldlM (step m) (.value (.items [] :: stack)) := by
  obtain ⟨t, ts, hv, ht⟩ := toTokens_eq_cons (m := m) v
  cases vs with
  | nil =>
    simp only [itemTokens, separated, hv, List.cons_append, List.foldlM_cons, ht]
  | cons u us =>
    simp only [itemTokens, separated, hv, List.cons_append, List.foldlM_cons, ht]

/-- A name and a colon are read where a name may stand. -/
private theorem foldlM_name {rev : List (List Char × Json)} {stack : List Frame} {r : Reader}
    (hr : ∀ s, step m r (.string (.ok s)) = .ok (.colon rev s stack)) (name : List Char)
    (ts : List Token) :
    (Token.string (.ok name) :: Token.colon :: ts).foldlM (step m) r =
      ts.foldlM (step m) (.value (.members rev name :: stack)) := by
  rw [List.foldlM_cons, hr]
  rfl

mutual

/-- The tokens of a document are read as the document. -/
theorem foldlM_toTokens {v : Json} {stack : List Frame} (h : HasRoom m stack v.nesting) :
    v.toTokens.foldlM (step m) (.value stack) = .ok (.after v stack) := by
  match v with
  | .null | .bool _ | .int _ | .float _ | .string _ => rfl
  | .array items =>
    rw [toTokens, List.foldlM_cons]
    change (openBracket m stack _ >>= _) = _
    rw [openBracket_eq_ok h]
    cases items with
    | nil => rfl
    | cons v vs =>
      exact (foldlM_firstItem v vs stack _).trans
        (foldlM_itemTokens [] h (List.cons_ne_nil v vs))
  | .object members =>
    rw [toTokens, List.foldlM_cons]
    change (openBracket m stack _ >>= _) = _
    rw [openBracket_eq_ok h]
    cases members with
    | nil => rfl
    | cons e ms => exact foldlM_memberTokens [] h (List.cons_ne_nil e ms) fun _ => rfl

/-- The tokens of the items that are left are read up to the end of the array. -/
theorem foldlM_itemTokens (rev : List Json) {items : List Json} {stack : List Frame}
    (h : HasRoom m stack (nestingOfItems items + 1)) (hne : items ≠ []) :
    (separated (itemTokens items) ++ [Token.endArray]).foldlM (step m)
      (.value (.items rev :: stack)) = .ok (.after (.array (rev.reverse ++ items)) stack) := by
  match items with
  | v :: vs =>
    have hv := foldlM_toTokens ((h.cons (.items rev)).of_le (Nat.le_max_left _ _))
    have hd : (v :: rev).reverse ++ vs = rev.reverse ++ v :: vs := by simp
    cases vs with
    | nil =>
      rw [itemTokens, itemTokens, separated, List.foldlM_append, hv, ← hd, List.append_nil]
      rfl
    | cons u us =>
      have hu := foldlM_itemTokens (v :: rev)
        (h.of_le (Nat.succ_le_succ (Nat.le_max_right _ _))) (List.cons_ne_nil u us)
      rw [itemTokens, itemTokens, separated, List.append_assoc, List.foldlM_append, hv, ← hd, ← hu]
      rfl

/-- The tokens of the members that are left are read up to the end of the object. -/
theorem foldlM_memberTokens (rev : List (List Char × Json)) {members : List (List Char × Json)}
    {stack : List Frame} {r : Reader}
    (h : HasRoom m stack (nestingOfMembers members + 1)) (hne : members ≠ [])
    (hr : ∀ s, step m r (.string (.ok s)) = .ok (.colon rev s stack)) :
    (separated (memberTokens members) ++ [Token.endObject]).foldlM (step m) r =
      .ok (.after (.object (rev.reverse ++ members)) stack) := by
  match members with
  | (name, v) :: ms =>
    have hv := foldlM_toTokens ((h.cons (.members rev name)).of_le (Nat.le_max_left _ _))
    have hd : ((name, v) :: rev).reverse ++ ms = rev.reverse ++ (name, v) :: ms := by simp
    have hname := foldlM_name hr name
    cases ms with
    | nil =>
      rw [memberTokens, memberTokens, separated, List.cons_append, List.cons_append, hname,
        List.foldlM_append, hv, ← hd, List.append_nil]
      rfl
    | cons e ms =>
      have hm := foldlM_memberTokens ((name, v) :: rev) (r := .nextName _ stack)
        (h.of_le (Nat.succ_le_succ (Nat.le_max_right _ _))) (List.cons_ne_nil e ms) fun _ => rfl
      rw [memberTokens, memberTokens, separated, List.cons_append, List.cons_append,
        List.cons_append, List.cons_append, hname, List.append_assoc, List.foldlM_append, hv, ← hd,
        ← hm]
      rfl

end

variable {limit : Nat}

theorem hasRoom_iff (hm : m.bracketLimit? = some limit) {stack : List Frame} {depth : Nat} :
    HasRoom m stack depth ↔ stack.length + depth < limit := by
  rw [HasRoom, hm]
  exact ⟨fun h => h limit rfl, fun h l hl => Option.some.inj hl ▸ h⟩

theorem openBracket_eq_error (hm : m.bracketLimit? = some limit) {stack : List Frame}
    (hd : limit ≤ stack.length + 1) (next : Reader) :
    openBracket m stack next = .error .depth := by
  rw [openBracket, hm, Option.any_some, if_pos (decide_eq_true hd)]

/-- A loop that fails at the first of several sequences of tokens fails. -/
private theorem foldlM_separated_eq_error {ts : List Token} {r : Reader} {e : JsonError}
    (h : ts.foldlM (step m) r = .error e) (tss : List (List Token)) (rest : List Token) :
    (separated (ts :: tss) ++ rest).foldlM (step m) r = .error e := by
  cases tss with
  | nil =>
    rw [separated, List.foldlM_append, h]
    rfl
  | cons us tss =>
    rw [separated, List.append_assoc, List.foldlM_append, h]
    rfl

mutual

/-- The tokens of a document that is nested too deep for the reader are refused. -/
theorem foldlM_toTokens_eq_error (hm : m.bracketLimit? = some limit) {v : Json}
    {stack : List Frame} (hs : stack.length < limit) (hd : limit ≤ stack.length + v.nesting) :
    v.toTokens.foldlM (step m) (.value stack) = .error .depth := by
  match v with
  | .null | .bool _ | .int _ | .float _ | .string _ => exact absurd hs (Nat.not_lt.2 hd)
  | .array items =>
    rw [toTokens, List.foldlM_cons]
    change (openBracket m stack _ >>= _) = _
    by_cases hb : limit ≤ stack.length + 1
    · rw [openBracket_eq_error hm hb]
      rfl
    · have hroom : HasRoom m stack (0 + 1) := (hasRoom_iff hm).2 (by omega)
      rw [openBracket_eq_ok hroom]
      cases items with
      | nil => exact absurd hd hb
      | cons v vs =>
        exact (foldlM_firstItem v vs stack _).trans
          (foldlM_itemTokens_eq_error hm [] (Nat.lt_of_not_le hb) hd)
  | .object members =>
    rw [toTokens, List.foldlM_cons]
    change (openBracket m stack _ >>= _) = _
    by_cases hb : limit ≤ stack.length + 1
    · rw [openBracket_eq_error hm hb]
      rfl
    · have hroom : HasRoom m stack (0 + 1) := (hasRoom_iff hm).2 (by omega)
      rw [openBracket_eq_ok hroom]
      cases members with
      | nil => exact absurd hd hb
      | cons e ms =>
        exact foldlM_memberTokens_eq_error hm [] (Nat.lt_of_not_le hb) hd fun _ => rfl

/-- Of the items that are left one is refused. -/
theorem foldlM_itemTokens_eq_error (hm : m.bracketLimit? = some limit) (rev : List Json)
    {items : List Json} {stack : List Frame} (hs : stack.length + 1 < limit)
    (hd : limit ≤ stack.length + (nestingOfItems items + 1)) :
    (separated (itemTokens items) ++ [Token.endArray]).foldlM (step m)
      (.value (.items rev :: stack)) = .error .depth := by
  match items with
  | [] => exact absurd hs (Nat.not_lt.2 hd)
  | v :: vs =>
    rw [nestingOfItems] at hd
    by_cases hv : limit ≤ stack.length + 1 + v.nesting
    · have hs' : (Frame.items rev :: stack).length < limit := hs
      exact foldlM_separated_eq_error (foldlM_toTokens_eq_error hm hs' hv) _ _
    · have hroom : HasRoom m (.items rev :: stack) v.nesting :=
        (hasRoom_iff hm).2 (Nat.lt_of_not_le hv)
      cases vs with
      | nil =>
        rw [nestingOfItems] at hd
        omega
      | cons u us =>
        have hd' : limit ≤ stack.length + (nestingOfItems (u :: us) + 1) := by omega
        have herror := foldlM_itemTokens_eq_error hm (v :: rev) hs hd'
        rw [itemTokens, itemTokens, separated, List.append_assoc, List.foldlM_append,
          foldlM_toTokens hroom, ← herror]
        rfl

/-- Of the members that are left one is refused. -/
theorem foldlM_memberTokens_eq_error (hm : m.bracketLimit? = some limit)
    (rev : List (List Char × Json)) {members : List (List Char × Json)} {stack : List Frame}
    {r : Reader} (hs : stack.length + 1 < limit)
    (hd : limit ≤ stack.length + (nestingOfMembers members + 1))
    (hr : ∀ s, step m r (.string (.ok s)) = .ok (.colon rev s stack)) :
    (separated (memberTokens members) ++ [Token.endObject]).foldlM (step m) r =
      .error .depth := by
  match members with
  | [] => exact absurd hs (Nat.not_lt.2 hd)
  | (name, v) :: ms =>
    rw [nestingOfMembers] at hd
    have hname := foldlM_name hr name
    by_cases hv : limit ≤ stack.length + 1 + v.nesting
    · have hs' : (Frame.members rev name :: stack).length < limit := hs
      have herror := foldlM_toTokens_eq_error hm hs' hv
      exact foldlM_separated_eq_error ((hname _).trans herror) _ _
    · have hroom : HasRoom m (.members rev name :: stack) v.nesting :=
        (hasRoom_iff hm).2 (Nat.lt_of_not_le hv)
      cases ms with
      | nil =>
        rw [nestingOfMembers] at hd
        omega
      | cons e ms =>
        have hd' : limit ≤ stack.length + (nestingOfMembers (e :: ms) + 1) := by omega
        have herror := foldlM_memberTokens_eq_error hm ((name, v) :: rev)
          (r := .nextName _ stack) hs hd' fun _ => rfl
        rw [memberTokens, memberTokens, separated, List.cons_append, List.cons_append,
          List.cons_append, List.cons_append, hname, List.append_assoc, List.foldlM_append,
          foldlM_toTokens hroom, ← herror]
        rfl

end

end Reader

/-- The tokens of a document whose nesting exceeds the number of brackets that may be open are
refused. -/
theorem ofTokens_toTokens_eq_error {v : Json} (h : Parser.maxNesting < v.nesting) :
    ofTokens strict v.toTokens = .error .depth := by
  have hd : Parser.maxNesting + 1 ≤ ([] : List Frame).length + v.nesting := by
    rw [List.length_nil]
    omega
  rw [ofTokens, Reader.foldlM_toTokens_eq_error rfl (Nat.succ_pos Parser.maxNesting) hd]
  rfl

/-- The tokens of a document whose nesting does not exceed the number of brackets that may be open
are the tokens of that document. -/
theorem ofTokens_toTokens {v : Json} (h : v.nesting ≤ Parser.maxNesting) :
    ofTokens strict v.toTokens = .ok v := by
  have hr : Reader.HasRoom strict [] v.nesting := by
    intro limit hl
    cases hl
    rw [List.length_nil]
    omega
  rw [ofTokens, Reader.foldlM_toTokens hr]
  rfl

end ObjectModel.Json
