/-!
# Maps in insertion order

An `OrderedMap` is a finite map seen through the list of its entries. A key keeps the place at
which it first came in: writing an old key replaces the value where it stands, writing a new one
adds an entry at the end. That no key occurs twice is a field of the structure, so every operation
proves it once and no statement about a map has to assume it.

Each operation is characterised through `get?` and `keys`.

`mapAccum` visits the elements of a list in order. Each visit sees the state the one before it left
and yields a new element. A map is visited in the same way.
-/

namespace ObjectModel

universe u v w

/-- Replaces every element of a list in order, threading a state. -/
def mapAccum {σ : Type u} {α : Type v} {β : Type w} (f : σ → α → σ × β) (s : σ) :
    List α → σ × List β
  | [] => (s, [])
  | a :: l =>
    let (s, b) := f s a
    let (s, l) := mapAccum f s l
    (s, b :: l)

section

variable {σ : Type u} {α : Type v} {β : Type w} {f : σ → α → σ × β}

@[simp] theorem mapAccum_nil (s : σ) : mapAccum f s [] = (s, []) := rfl

theorem mapAccum_cons (s : σ) (a : α) (l : List α) :
    mapAccum f s (a :: l) =
      ((mapAccum f (f s a).1 l).1, (f s a).2 :: (mapAccum f (f s a).1 l).2) := rfl

@[simp] theorem length_mapAccum (s : σ) (l : List α) : (mapAccum f s l).2.length = l.length := by
  induction l generalizing s with
  | nil => rfl
  | cons a l ih => simp [mapAccum_cons, ih]

end

/-- A finite map whose entries keep the order in which their keys came in. -/
structure OrderedMap (κ : Type u) (α : Type v) where
  /-- The entries, oldest key first. -/
  entries : List (κ × α)
  /-- No key occurs twice. -/
  nodup_keys : (entries.map Prod.fst).Nodup

namespace OrderedMap

variable {κ : Type u} {α : Type v} {β : Type w}

@[ext] theorem ext {m n : OrderedMap κ α} (h : m.entries = n.entries) : m = n := by
  cases m; cases n; cases h; rfl

def empty : OrderedMap κ α where
  entries := []
  nodup_keys := List.nodup_nil

instance : EmptyCollection (OrderedMap κ α) := ⟨empty⟩

instance : Inhabited (OrderedMap κ α) := ⟨∅⟩

def keys (m : OrderedMap κ α) : List κ := m.entries.map Prod.fst

def values (m : OrderedMap κ α) : List α := m.entries.map Prod.snd

def size (m : OrderedMap κ α) : Nat := m.entries.length

theorem nodup_keys' (m : OrderedMap κ α) : m.keys.Nodup := m.nodup_keys

def map (f : α → β) (m : OrderedMap κ α) : OrderedMap κ β where
  entries := m.entries.map fun e => (e.1, f e.2)
  nodup_keys := by simpa [List.map_map, Function.comp_def] using m.nodup_keys

/-- Replaces every value in order, threading a state. The keys stay. -/
def mapAccum {σ : Type w} (f : σ → α → σ × β) (s : σ) (m : OrderedMap κ α) :
    σ × OrderedMap κ β :=
  let visit (s : σ) (e : κ × α) : σ × κ × β := let (s, b) := f s e.2; (s, e.1, b)
  let r := ObjectModel.mapAccum visit s m.entries
  have keys_visit : ∀ l s, (ObjectModel.mapAccum visit s l).2.map Prod.fst = l.map Prod.fst := by
    intro l
    induction l with
    | nil => intro s; rfl
    | cons e l ih => intro s; simpa [mapAccum_cons, visit] using ih _
  (r.1, ⟨r.2, by rw [keys_visit]; exact m.nodup_keys⟩)

variable [DecidableEq κ]

def get? (m : OrderedMap κ α) (k : κ) : Option α := m.entries.lookup k

def contains (m : OrderedMap κ α) (k : κ) : Bool := (m.get? k).isSome

instance : Membership κ (OrderedMap κ α) := ⟨fun m k => k ∈ m.keys⟩

/-- Writes a value into a list of entries, in place or at the end. -/
def insertEntry (k : κ) (a : α) : List (κ × α) → List (κ × α)
  | [] => [(k, a)]
  | e :: l => if e.1 = k then (k, a) :: l else e :: insertEntry k a l

theorem mem_map_fst_insertEntry {k k' : κ} {a : α} {l : List (κ × α)} :
    k' ∈ (insertEntry k a l).map Prod.fst ↔ k' = k ∨ k' ∈ l.map Prod.fst := by
  induction l with
  | nil => simp [insertEntry]
  | cons e l ih =>
    by_cases h : e.1 = k
    · simp [insertEntry, h]
    · simp only [insertEntry, h, if_false, List.map_cons, List.mem_cons, ih]
      exact or_left_comm

theorem nodup_insertEntry {k : κ} {a : α} {l : List (κ × α)} (h : (l.map Prod.fst).Nodup) :
    ((insertEntry k a l).map Prod.fst).Nodup := by
  induction l with
  | nil => simp [insertEntry]
  | cons e l ih =>
    rw [List.map_cons, List.nodup_cons] at h
    by_cases hk : e.1 = k
    · simpa [insertEntry, hk] using ⟨by simpa [hk] using h.1, h.2⟩
    · simp only [insertEntry, hk, if_false, List.map_cons, List.nodup_cons]
      refine ⟨fun hm => ?_, ih h.2⟩
      exact (mem_map_fst_insertEntry.1 hm).elim hk h.1

/-- Writes `a` under `k`: where the key stands, or at the end if it is new. -/
def insert (m : OrderedMap κ α) (k : κ) (a : α) : OrderedMap κ α where
  entries := insertEntry k a m.entries
  nodup_keys := nodup_insertEntry m.nodup_keys

/-- Writes `a` under `k` unless the key has an entry. -/
def insertIfNew (m : OrderedMap κ α) (k : κ) (a : α) : OrderedMap κ α :=
  if m.contains k then m else m.insert k a

def modify (m : OrderedMap κ α) (k : κ) (f : α → α) : OrderedMap κ α where
  entries := m.entries.map fun e => if e.1 = k then (e.1, f e.2) else e
  nodup_keys := by
    have : (m.entries.map fun e => if e.1 = k then (e.1, f e.2) else e).map Prod.fst
        = m.entries.map Prod.fst := by
      rw [List.map_map]
      refine List.map_congr_left fun e _ => ?_
      by_cases h : e.1 = k <;> simp [h]
    rw [this]
    exact m.nodup_keys

def erase (m : OrderedMap κ α) (k : κ) : OrderedMap κ α where
  entries := m.entries.filter fun e => e.1 ≠ k
  nodup_keys := (List.filter_sublist.map Prod.fst).nodup m.nodup_keys

/-- Takes the first entry of `k` out of a list of entries, with its value. -/
def takeEntry (k : κ) : List (κ × α) → Option α × List (κ × α)
  | [] => (none, [])
  | e :: l =>
    if e.1 = k then (some e.2, l)
    else
      let (a?, l) := takeEntry k l
      (a?, e :: l)

theorem takeEntry_sublist (k : κ) (l : List (κ × α)) : (takeEntry k l).2.Sublist l := by
  induction l with
  | nil => exact List.Sublist.slnil
  | cons e l ih =>
    rw [takeEntry]
    split
    · exact List.sublist_cons_self e l
    · exact ih.cons_cons e

/-- Removes the entry of `k` and returns its value; the others keep their order. -/
def take (m : OrderedMap κ α) (k : κ) : Option α × OrderedMap κ α :=
  ((takeEntry k m.entries).1, {
    entries := (takeEntry k m.entries).2
    nodup_keys := ((takeEntry_sublist k m.entries).map Prod.fst).nodup m.nodup_keys })

def filter (p : κ → α → Bool) (m : OrderedMap κ α) : OrderedMap κ α where
  entries := m.entries.filter fun e => p e.1 e.2
  nodup_keys := (List.filter_sublist.map Prod.fst).nodup m.nodup_keys

def tail (m : OrderedMap κ α) : OrderedMap κ α where
  entries := m.entries.tail
  nodup_keys := ((List.tail_sublist _).map Prod.fst).nodup m.nodup_keys

def dropLast (m : OrderedMap κ α) : OrderedMap κ α where
  entries := m.entries.dropLast
  nodup_keys := ((List.dropLast_sublist _).map Prod.fst).nodup m.nodup_keys

def insertMany (m : OrderedMap κ α) (l : List (κ × α)) : OrderedMap κ α :=
  l.foldl (fun m e => m.insert e.1 e.2) m

def ofList (l : List (κ × α)) : OrderedMap κ α := empty.insertMany l

/-- Gathers the values of each key, in order. The keys stand in the order in which they first
come. -/
def group (l : List (κ × α)) : OrderedMap κ (List α) :=
  l.foldl (fun m e => m.insert e.1 ((m.get? e.1).getD [] ++ [e.2])) empty

theorem mem_keys_insert {m : OrderedMap κ α} {k k' : κ} {a : α} :
    k' ∈ (m.insert k a).keys ↔ k' = k ∨ k' ∈ m.keys :=
  mem_map_fst_insertEntry

@[simp] theorem get?_empty (k : κ) : (∅ : OrderedMap κ α).get? k = none := rfl

theorem lookup_cons_ite (k' : κ) (e : κ × α) (l : List (κ × α)) :
    (e :: l).lookup k' = if k' = e.1 then some e.2 else l.lookup k' := by
  obtain ⟨k, a⟩ := e
  rw [List.lookup_cons]
  by_cases h : k' = k
  · rw [if_pos h, h, beq_self_eq_true]
  · rw [if_neg h, beq_eq_false_iff_ne.2 h]

theorem lookup_insertEntry (k k' : κ) (a : α) (l : List (κ × α)) :
    (insertEntry k a l).lookup k' = if k' = k then some a else l.lookup k' := by
  induction l with
  | nil => simp [insertEntry, lookup_cons_ite]
  | cons e l ih =>
    by_cases h : e.1 = k
    · simp only [insertEntry, h, if_true, lookup_cons_ite]
      split <;> rfl
    · simp only [insertEntry, h, if_false, lookup_cons_ite, ih]
      by_cases h₁ : k' = e.1
      · simp [h₁, h]
      · simp [h₁]

@[simp] theorem get?_insert (m : OrderedMap κ α) (k k' : κ) (a : α) :
    (m.insert k a).get? k' = if k' = k then some a else m.get? k' :=
  lookup_insertEntry k k' a m.entries

theorem contains_insert (m : OrderedMap κ α) (k k' : κ) (a : α) :
    (m.insert k a).contains k' = (decide (k' = k) || m.contains k') := by
  by_cases h : k' = k <;> simp [contains, h]

end OrderedMap

end ObjectModel
