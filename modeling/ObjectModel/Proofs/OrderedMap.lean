import Mathlib.Data.List.Forall2
import ObjectModel.OrderedMap
/-!
# Ordered maps through their entries

A map is its list of entries, and the keys of that list are distinct. An entry is therefore in the
list just if looking its key up yields its value, which is how every operation is read through
`get?` here; where the place of an entry matters as well, the list itself is given.
-/

namespace ObjectModel

universe u v w

/-- What every visit preserves holds of the state at the end. -/
theorem mapAccum_induction {σ : Type u} {α : Type v} {β : Type w} {f : σ → α → σ × β}
    {P : σ → Prop} (hf : ∀ s a, P s → P (f s a).1) {s : σ} (hs : P s) (l : List α) :
    P (mapAccum f s l).1 := by
  induction l generalizing s with
  | nil => exact hs
  | cons a l ih => exact ih (hf s a hs)

theorem findSome?_congr {α : Type u} {β : Type v} {f g : α → Option β} {l : List α}
    (h : ∀ a ∈ l, f a = g a) : l.findSome? f = l.findSome? g := by
  induction l with
  | nil => rfl
  | cons a l ih =>
    rw [List.forall_mem_cons] at h
    rw [List.findSome?_cons, List.findSome?_cons, h.1, ih h.2]

theorem find?_congr {α : Type u} {p q : α → Bool} {l : List α} (h : ∀ a ∈ l, p a = q a) :
    l.find? p = l.find? q := by
  rw [List.find?_eq_findSome?_guard, List.find?_eq_findSome?_guard]
  refine findSome?_congr fun a ha => ?_
  rw [Option.guard, Option.guard, h a ha]

/-- The first result of a search comes from the first element that has one. -/
theorem findSome?_eq_find?_bind {α : Type u} {β : Type v} (f : α → Option β) (l : List α) :
    l.findSome? f = (l.find? fun a => (f a).isSome).bind f := by
  induction l with
  | nil => rfl
  | cons a l ih =>
    rw [List.findSome?_cons, List.find?_cons]
    cases ha : f a with
    | none => exact ih
    | some b => exact ha.symm

/-- Of the elements with one key, the first is what is left when repeated keys go. -/
theorem find?_eraseDupsBy {α : Type u} {κ : Type v} [DecidableEq κ] (f : α → κ) (k : κ)
    (l : List α) :
    (l.eraseDupsBy fun a b => f a == f b).find? (f · == k) = l.find? (f · == k) := by
  induction hn : l.length using Nat.strongRecOn generalizing l with
  | ind n ih =>
    cases l with
    | nil => rfl
    | cons a l =>
      rw [List.eraseDupsBy_cons, List.find?_cons, List.find?_cons]
      cases ha : f a == k with
      | true => rfl
      | false =>
        subst hn
        refine (ih _ (Nat.lt_succ_of_le (List.length_filter_le ..)) _ rfl).trans ?_
        -- what has the key is not removed along with the first element
        rw [List.find?_filter]
        refine congrArg (l.find? ·) (funext fun b => ?_)
        rw [Bool.eq_iff_iff, decide_eq_true_eq, decide_eq_true_eq, and_iff_right_iff_imp]
        intro hb
        rw [beq_iff_eq.1 hb, BEq.comm]
        exact ha

/-- A key is on a list just if it is left when repeated keys go. -/
theorem exists_mem_eraseDupsBy_iff {α : Type u} {κ : Type v} [DecidableEq κ] {f : α → κ} {k : κ}
    {l : List α} : (∃ a ∈ l.eraseDupsBy fun a b => f a == f b, f a = k) ↔ ∃ a ∈ l, f a = k := by
  have hsome (l : List α) : (∃ a ∈ l, f a = k) ↔ (l.find? (f · == k)).isSome := by
    simp only [List.find?_isSome, beq_iff_eq]
  rw [hsome, hsome, find?_eraseDupsBy]

/-- What is left when repeated keys go has distinct keys. -/
theorem pairwise_eraseDupsBy {α : Type u} {κ : Type v} [DecidableEq κ] (f : α → κ) (l : List α) :
    (l.eraseDupsBy fun a b => f a == f b).Pairwise fun a b => f a ≠ f b := by
  induction hn : l.length using Nat.strongRecOn generalizing l with
  | ind n ih =>
    cases l with
    | nil => exact List.Pairwise.nil
    | cons a l =>
      subst hn
      rw [List.eraseDupsBy_cons, List.pairwise_cons]
      refine ⟨fun b hb he => ?_, ih _ (Nat.lt_succ_of_le (List.length_filter_le ..)) _ rfl⟩
      obtain ⟨b', hb', he'⟩ := exists_mem_eraseDupsBy_iff.1 ⟨b, hb, rfl⟩
      have hne := (List.mem_filter.1 hb').2
      rw [he', ← he, beq_self_eq_true] at hne
      cases hne

namespace OrderedMap

variable {κ : Type u} {α : Type v} {β : Type w} [DecidableEq κ]

theorem lookup_eq_none_iff_notMem {k : κ} {l : List (κ × α)} :
    l.lookup k = none ↔ k ∉ l.map Prod.fst := by
  induction l with
  | nil => simp
  | cons e l ih =>
    rw [lookup_cons_ite]
    by_cases h : k = e.1
    · simp [h]
    · simp [h, ih]

theorem lookup_eq_some_iff_mem {k : κ} {a : α} {l : List (κ × α)}
    (hl : (l.map Prod.fst).Nodup) : l.lookup k = some a ↔ (k, a) ∈ l := by
  induction l with
  | nil => simp
  | cons e l ih =>
    obtain ⟨k', a'⟩ := e
    rw [List.map_cons, List.nodup_cons] at hl
    rw [lookup_cons_ite, List.mem_cons]
    by_cases h : k = k'
    · subst h
      have hk : (k, a) ∉ l := fun hm => hl.1 (List.mem_map.2 ⟨(k, a), hm, rfl⟩)
      simp [hk, eq_comm]
    · simp [h, ih hl.2]

theorem get?_eq_none_iff {m : OrderedMap κ α} {k : κ} : m.get? k = none ↔ k ∉ m.keys :=
  lookup_eq_none_iff_notMem

theorem isSome_get?_iff {m : OrderedMap κ α} {k : κ} : (m.get? k).isSome ↔ k ∈ m.keys := by
  rw [Option.isSome_iff_ne_none, ne_eq, get?_eq_none_iff, Decidable.not_not]

theorem contains_iff {m : OrderedMap κ α} {k : κ} : m.contains k ↔ k ∈ m.keys := isSome_get?_iff

theorem mem_entries_iff {m : OrderedMap κ α} {k : κ} {a : α} :
    (k, a) ∈ m.entries ↔ m.get? k = some a :=
  (lookup_eq_some_iff_mem m.nodup_keys).symm

/-- Maps in which every key has the same value have the same entries, whatever their order. -/
theorem perm_entries {m m' : OrderedMap κ α} (h : ∀ k, m.get? k = m'.get? k) :
    m.entries.Perm m'.entries := by
  have hn (m : OrderedMap κ α) : m.entries.Nodup :=
    List.Pairwise.of_map Prod.fst (fun _ _ hne he => hne (congrArg Prod.fst he)) m.nodup_keys
  refine (List.perm_ext_iff_of_nodup (hn m) (hn m')).2 fun (k, a) => ?_
  rw [mem_entries_iff, mem_entries_iff, h]

theorem mem_values_iff {m : OrderedMap κ α} {a : α} : a ∈ m.values ↔ ∃ k, m.get? k = some a := by
  simp only [values, List.mem_map, Prod.exists, exists_eq_right, mem_entries_iff]

theorem mem_keys_of_get? {m : OrderedMap κ α} {k : κ} {a : α} (h : m.get? k = some a) :
    k ∈ m.keys :=
  isSome_get?_iff.1 (by simp [h])

/-- Where the values say their keys, looking a value up by what it says is looking its key up. -/
theorem find?_values {f : α → κ} {m : OrderedMap κ α}
    (hm : ∀ k a, m.get? k = some a → f a = k) (k : κ) :
    m.values.find? (f · == k) = m.get? k := by
  have hf : ∀ e ∈ m.entries, f e.2 = e.1 := fun e he => hm e.1 e.2 (mem_entries_iff.1 he)
  rw [values, get?]
  generalize m.entries = l at hf
  induction l with
  | nil => rfl
  | cons e l ih =>
    rw [List.forall_mem_cons] at hf
    rw [List.map_cons, List.find?_cons, lookup_cons_ite, hf.1, ih hf.2, BEq.comm]
    by_cases hk : k = e.1
    · rw [if_pos hk, beq_iff_eq.2 hk]
    · rw [if_neg hk, beq_eq_false_iff_ne.2 hk]

/-- Looking a key up finds the value of the entry that has it. -/
theorem map_snd_find?_entries (m : OrderedMap κ α) (k : κ) :
    (m.entries.find? (·.1 == k)).map Prod.snd = m.get? k := by
  rw [get?]
  induction m.entries with
  | nil => rfl
  | cons e l ih =>
    rw [List.find?_cons, lookup_cons_ite, BEq.comm]
    by_cases hk : k = e.1
    · rw [if_pos hk, beq_iff_eq.2 hk, Option.map_some]
    · rw [if_neg hk, beq_eq_false_iff_ne.2 hk, ih]

theorem insertEntry_of_notMem {k : κ} (a : α) {l : List (κ × α)} (h : k ∉ l.map Prod.fst) :
    insertEntry k a l = l ++ [(k, a)] := by
  induction l with
  | nil => rfl
  | cons e l ih =>
    rw [List.map_cons, List.mem_cons, not_or] at h
    rw [insertEntry, if_neg (fun he => h.1 he.symm), ih h.2, List.cons_append]

theorem map_fst_insertEntry_of_mem {k : κ} (a : α) {l : List (κ × α)}
    (h : k ∈ l.map Prod.fst) : (insertEntry k a l).map Prod.fst = l.map Prod.fst := by
  induction l with
  | nil => simp at h
  | cons e l ih =>
    by_cases hk : e.1 = k
    · simp [insertEntry, hk]
    · rw [List.map_cons, List.mem_cons] at h
      have hm := h.resolve_left (fun he => hk he.symm)
      simp only [insertEntry, hk, if_false, List.map_cons, ih hm]

theorem entries_insert (m : OrderedMap κ α) (k : κ) (a : α) :
    (m.insert k a).entries = insertEntry k a m.entries := rfl

theorem entries_insert_of_notMem {m : OrderedMap κ α} {k : κ} (a : α) (h : k ∉ m.keys) :
    (m.insert k a).entries = m.entries ++ [(k, a)] :=
  insertEntry_of_notMem a h

theorem keys_insert_of_mem {m : OrderedMap κ α} {k : κ} (a : α) (h : k ∈ m.keys) :
    (m.insert k a).keys = m.keys :=
  map_fst_insertEntry_of_mem a h

/-- An entry is the written one or was there before. -/
theorem of_get?_insert {m : OrderedMap κ α} {k k' : κ} {a a' : α}
    (h : (m.insert k a).get? k' = some a') : k' = k ∧ a' = a ∨ m.get? k' = some a' := by
  rw [get?_insert] at h
  split at h
  next hk => exact .inl ⟨hk, (Option.some.inj h).symm⟩
  next => exact .inr h

theorem entries_insertMany {m : OrderedMap κ α} {l : List (κ × α)}
    (h : (m.keys ++ l.map Prod.fst).Nodup) : (m.insertMany l).entries = m.entries ++ l := by
  induction l generalizing m with
  | nil => simp [insertMany]
  | cons e l ih =>
    rw [List.map_cons] at h
    have hk : e.1 ∉ m.keys := by
      intro hm
      exact (List.nodup_append.1 h).2.2 e.1 hm e.1 List.mem_cons_self rfl
    have hi := entries_insert_of_notMem e.2 hk
    have hn : ((m.insert e.1 e.2).keys ++ l.map Prod.fst).Nodup := by
      simpa [keys, hi] using h
    change ((m.insert e.1 e.2).insertMany l).entries = _
    rw [ih hn, hi, List.append_assoc]
    rfl

/-- Writing distinct keys leaves those that are there in place and adds the others as they come. -/
theorem keys_insertMany {m : OrderedMap κ α} {l : List (κ × α)} (h : (l.map Prod.fst).Nodup) :
    (m.insertMany l).keys = m.keys ++ (l.map Prod.fst).filter (· ∉ m.keys) := by
  induction l generalizing m with
  | nil => simp [insertMany]
  | cons e l ih =>
    rw [List.map_cons, List.nodup_cons] at h
    change ((m.insert e.1 e.2).insertMany l).keys = _
    rw [ih h.2, List.map_cons]
    by_cases hk : e.1 ∈ m.keys
    · rw [keys_insert_of_mem _ hk, List.filter_cons_of_neg (by simpa using hk)]
    · have hkeys : (m.insert e.1 e.2).keys = m.keys ++ [e.1] := by
        rw [keys, entries_insert_of_notMem _ hk, List.map_append]
        rfl
      have hrest : (l.map Prod.fst).filter (· ∉ m.keys ++ [e.1]) =
          (l.map Prod.fst).filter (· ∉ m.keys) := by
        refine List.filter_congr fun k hm => ?_
        have hne : k ≠ e.1 := fun he => h.1 (he ▸ hm)
        simp [hne]
      rw [hkeys, hrest, List.filter_cons_of_pos (by simpa using hk), List.append_assoc,
        List.singleton_append]

/-- Writing distinct keys into the empty map lists them as they come. -/
theorem entries_ofList {l : List (κ × α)} (h : (l.map Prod.fst).Nodup) :
    (ofList l).entries = l :=
  entries_insertMany (m := empty) h

theorem get?_insertMany (m : OrderedMap κ α) (l : List (κ × α)) (k : κ) :
    (m.insertMany l).get? k = (l.reverse.lookup k).or (m.get? k) := by
  induction l generalizing m with
  | nil => rfl
  | cons e l ih =>
    change ((m.insert e.1 e.2).insertMany l).get? k = _
    rw [ih, get?_insert, List.reverse_cons, List.lookup_append, Option.or_assoc, lookup_cons_ite]
    by_cases hk : k = e.1 <;> simp [hk]

/-- Of the values that a list has for a key, the map written from the list holds the last. -/
theorem get?_ofList (l : List (κ × α)) (k : κ) : (ofList l).get? k = l.reverse.lookup k := by
  rw [ofList, get?_insertMany]
  exact Option.or_none

/-- What a map holds that was written from a list is in the list. -/
theorem mem_of_get?_ofList {l : List (κ × α)} {k : κ} {a : α}
    (h : (ofList l).get? k = some a) : (k, a) ∈ l := by
  rw [get?_ofList, List.lookup_eq_some_iff] at h
  obtain ⟨before, after, he, -⟩ := h
  rw [← List.mem_reverse, he]
  exact List.mem_append_right before List.mem_cons_self

/-- A key gathers the values of its entries, in order. -/
theorem getD_get?_group (l : List (κ × α)) (k : κ) :
    ((group l).get? k).getD [] = l.filterMap fun e => if e.1 = k then some e.2 else none := by
  have go (l : List (κ × α)) (m : OrderedMap κ (List α)) :
      ((l.foldl (fun m e => m.insert e.1 ((m.get? e.1).getD [] ++ [e.2])) m).get? k).getD [] =
        (m.get? k).getD [] ++ l.filterMap fun e => if e.1 = k then some e.2 else none := by
    induction l generalizing m with
    | nil => simp
    | cons e l ih =>
      rw [List.foldl_cons, ih, get?_insert, List.filterMap_cons]
      by_cases hk : k = e.1
      · simp [hk]
      · simp [hk, Ne.symm hk]
  exact go l empty

/-- Gathered values come from entries with their key. -/
theorem mem_of_mem_group {l : List (κ × α)} {k : κ} {as : List α} {a : α}
    (h : (group l).get? k = some as) (ha : a ∈ as) : (k, a) ∈ l := by
  have hm : a ∈ ((group l).get? k).getD [] := by rwa [h]
  rw [getD_get?_group, List.mem_filterMap] at hm
  obtain ⟨e, he, hea⟩ := hm
  split at hea
  next hk =>
    cases hea
    exact hk ▸ he
  next => cases hea

/-- Of a map one entry is left, or none, if only those with a given key are kept. -/
theorem filterMap_entries {f : κ × α → Option β} {k : κ} (hf : ∀ k' a, k' ≠ k → f (k', a) = none)
    (m : OrderedMap κ α) : m.entries.filterMap f = ((m.get? k).bind fun a => f (k, a)).toList := by
  have go (l : List (κ × α)) (hl : (l.map Prod.fst).Nodup) :
      l.filterMap f = ((l.lookup k).bind fun a => f (k, a)).toList := by
    induction l with
    | nil => rfl
    | cons e l ih =>
      obtain ⟨k', a⟩ := e
      rw [List.map_cons, List.nodup_cons] at hl
      rw [List.filterMap_cons, lookup_cons_ite, ih hl.2]
      by_cases hk : k = k'
      · subst hk
        rw [lookup_eq_none_iff_notMem.2 hl.1, if_pos rfl, Option.bind_some, Option.bind_none]
        cases f (k, a) <;> rfl
      · rw [hf k' a (Ne.symm hk), if_neg hk]
  exact go m.entries m.nodup_keys

@[simp] theorem get?_map (f : α → β) (m : OrderedMap κ α) (k : κ) :
    (m.map f).get? k = (m.get? k).map f := by
  change (m.entries.map fun e => (e.1, f e.2)).lookup k = (m.entries.lookup k).map f
  induction m.entries with
  | nil => rfl
  | cons e l ih =>
    rw [List.map_cons, lookup_cons_ite, lookup_cons_ite, ih]
    split <;> rfl

@[simp] theorem get?_modify (m : OrderedMap κ α) (k k' : κ) (f : α → α) :
    (m.modify k f).get? k' = if k' = k then (m.get? k').map f else m.get? k' := by
  change (m.entries.map fun e => if e.1 = k then (e.1, f e.2) else e).lookup k' =
    if k' = k then (m.entries.lookup k').map f else m.entries.lookup k'
  induction m.entries with
  | nil => simp
  | cons e l ih =>
    rw [List.map_cons, lookup_cons_ite, lookup_cons_ite, ih]
    by_cases he : e.1 = k <;> by_cases hk : k' = e.1 <;> grind

theorem get?_insertIfNew (m : OrderedMap κ α) (k k' : κ) (a : α) :
    (m.insertIfNew k a).get? k' = (m.get? k').or (if k' = k then some a else none) := by
  rw [insertIfNew]
  by_cases hc : m.contains k
  · rw [if_pos hc]
    by_cases hk : k' = k
    · subst hk
      obtain ⟨b, hb⟩ := Option.isSome_iff_exists.1 hc
      simp [hb]
    · simp [hk]
  · rw [if_neg hc, get?_insert]
    by_cases hk : k' = k
    · subst hk
      have hn : m.get? k' = none := by simpa [contains] using hc
      simp [hn]
    · simp [hk]

/-- Adding values as far as their keys are new leaves what is there, and takes the first of each
other key. -/
theorem get?_foldl_insertIfNew {γ : Type w} (f : γ → κ) (g : γ → α) (l : List γ)
    (m : OrderedMap κ α) (k : κ) :
    (l.foldl (fun m a => m.insertIfNew (f a) (g a)) m).get? k =
      (m.get? k).or ((l.find? (f · == k)).map g) := by
  induction l generalizing m with
  | nil => simp
  | cons a l ih =>
    rw [List.foldl_cons, ih, get?_insertIfNew, Option.or_assoc, List.find?_cons, BEq.comm]
    by_cases hk : k = f a
    · rw [if_pos hk, beq_iff_eq.2 hk]
      rfl
    · rw [if_neg hk, beq_eq_false_iff_ne.2 hk, Option.none_or]

theorem get?_filter (p : κ → α → Bool) (m : OrderedMap κ α) (k : κ) :
    (m.filter p).get? k = (m.get? k).filter (p k) := by
  ext a
  rw [← mem_entries_iff, Option.filter_eq_some_iff, ← mem_entries_iff, filter, List.mem_filter]

@[simp] theorem get?_erase (m : OrderedMap κ α) (k k' : κ) :
    (m.erase k).get? k' = if k' = k then none else m.get? k' := by
  refine (get?_filter (fun k' _ => decide (k' ≠ k)) m k').trans ?_
  cases m.get? k' with
  | none => simp
  | some a => by_cases hk : k' = k <;> simp [hk, Option.filter]

/-- What is left was there before. -/
theorem of_get?_erase {m : OrderedMap κ α} {k k' : κ} {a : α}
    (h : (m.erase k).get? k' = some a) : m.get? k' = some a := by
  rw [get?_erase] at h
  split at h
  · cases h
  · exact h

section Corresponds

variable {R : α → β → Prop} {m : OrderedMap κ α} {m' : OrderedMap κ β}

omit [DecidableEq κ] in
/-- Whether two maps have the same keys in the same order and related values. -/
def Corresponds (R : α → β → Prop) (m : OrderedMap κ α) (m' : OrderedMap κ β) : Prop :=
  List.Forall₂ (fun e e' => e.1 = e'.1 ∧ R e.2 e'.2) m.entries m'.entries

/-- Looking a key up in lists whose entries are related gives related results. -/
theorem rel_lookup {l : List (κ × α)} {l' : List (κ × β)}
    (h : List.Forall₂ (fun e e' => e.1 = e'.1 ∧ R e.2 e'.2) l l') (k : κ) :
    Option.Rel R (l.lookup k) (l'.lookup k) := by
  induction h with
  | nil => exact .none
  | cons he _ ih =>
    rw [lookup_cons_ite, lookup_cons_ite, ← he.1]
    split
    · exact .some he.2
    · exact ih

omit [DecidableEq κ] in
theorem Corresponds.mono {S : α → β → Prop} (hRS : ∀ a b, R a b → S a b)
    (h : m.Corresponds R m') : m.Corresponds S m' :=
  List.Forall₂.imp (fun _ _ he => ⟨he.1, hRS _ _ he.2⟩) h

theorem Corresponds.get? (h : m.Corresponds R m') (k : κ) :
    Option.Rel R (m.get? k) (m'.get? k) :=
  rel_lookup h k

theorem Corresponds.insert (h : m.Corresponds R m') (k : κ) {a : α} {b : β} (hab : R a b) :
    (m.insert k a).Corresponds R (m'.insert k b) := by
  rw [Corresponds] at h
  change List.Forall₂ _ (insertEntry k a m.entries) (insertEntry k b m'.entries)
  generalize m.entries = l, m'.entries = l' at h ⊢
  induction h with
  | nil => exact .cons ⟨rfl, hab⟩ .nil
  | cons he hl ih =>
    rw [insertEntry, insertEntry, ← he.1]
    split
    · exact .cons ⟨rfl, hab⟩ hl
    · exact .cons he ih

theorem Corresponds.erase (h : m.Corresponds R m') (k : κ) :
    (m.erase k).Corresponds R (m'.erase k) := by
  rw [Corresponds] at h
  change List.Forall₂ _ (m.entries.filter _) (m'.entries.filter _)
  generalize m.entries = l, m'.entries = l' at h ⊢
  induction h with
  | nil => exact .nil
  | cons he _ ih =>
    rw [List.filter_cons, List.filter_cons, ← he.1]
    split
    · exact .cons he ih
    · exact ih

end Corresponds

section MapAccum

variable {σ : Type w} {f : σ → α → σ × β}

omit [DecidableEq κ] in
theorem keys_mapAccum (s : σ) (m : OrderedMap κ α) : (m.mapAccum f s).2.keys = m.keys := by
  have go (l : List (κ × α)) (s : σ) :
      (ObjectModel.mapAccum (fun s e => ((f s e.2).1, e.1, (f s e.2).2)) s l).2.map Prod.fst =
        l.map Prod.fst := by
    induction l generalizing s with
    | nil => rfl
    | cons e l ih => rw [mapAccum_cons, List.map_cons, List.map_cons, ih]
  exact go m.entries s

/-- A value of the result is what the function makes of the value under the same key, at a state
that the visits before lead to and from which the visits after lead to the end. -/
theorem exists_between_of_get?_mapAccum {R : σ → σ → Prop} {s : σ} {m : OrderedMap κ α} {k : κ}
    {b : β} (h : (m.mapAccum f s).2.get? k = some b) (hrefl : ∀ s, R s s)
    (htrans : ∀ s₁ s₂ s₃, R s₁ s₂ → R s₂ s₃ → R s₁ s₃) (hf : ∀ s a, R s (f s a).1) :
    ∃ s' a, m.get? k = some a ∧ b = (f s' a).2 ∧ R s s' ∧ R (f s' a).1 (m.mapAccum f s).1 := by
  have go (l : List (κ × α)) (s : σ)
      (h : (ObjectModel.mapAccum (fun s e => ((f s e.2).1, e.1, (f s e.2).2)) s l).2.lookup k =
        some b) : ∃ s' a, l.lookup k = some a ∧ b = (f s' a).2 ∧ R s s' ∧
          R (f s' a).1
            (ObjectModel.mapAccum (fun s e => ((f s e.2).1, e.1, (f s e.2).2)) s l).1 := by
    induction l generalizing s with
    | nil => cases h
    | cons e l ih =>
      rw [mapAccum_cons, lookup_cons_ite] at h
      rw [lookup_cons_ite]
      split at h
      next hk =>
        cases h
        refine ⟨s, e.2, if_pos hk, rfl, hrefl s, ?_⟩
        exact ObjectModel.mapAccum_induction (P := R (f s e.2).1)
          (fun s' e' hs' => htrans _ _ _ hs' (hf s' e'.2)) (hrefl _) l
      next hk =>
        obtain ⟨s', a, ha, hb, hbefore, hafter⟩ := ih _ h
        rw [if_neg hk]
        exact ⟨s', a, ha, hb, htrans _ _ _ (hf s e.2) hbefore, hafter⟩
  exact go m.entries s h

theorem exists_of_get?_mapAccum {s : σ} {m : OrderedMap κ α} {k : κ} {b : β}
    (h : (m.mapAccum f s).2.get? k = some b) : ∃ s' a, m.get? k = some a ∧ b = (f s' a).2 := by
  obtain ⟨s', a, ha, hb, -, -⟩ := exists_between_of_get?_mapAccum (R := fun _ _ => True) h
    (fun _ => trivial) (fun _ _ _ _ _ => trivial) (fun _ _ => trivial)
  exact ⟨s', a, ha, hb⟩

omit [DecidableEq κ] in
theorem mapAccum_induction {P : σ → Prop} (hf : ∀ s a, P s → P (f s a).1) {s : σ} (hs : P s)
    (m : OrderedMap κ α) : P (m.mapAccum f s).1 :=
  ObjectModel.mapAccum_induction (fun s e hs => hf s e.2 hs) hs m.entries

end MapAccum

end OrderedMap

end ObjectModel
