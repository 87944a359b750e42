import Mathlib.Data.List.Dedup
import ObjectModel.Interner
import ObjectModel.Proofs.OrderedMap
/-!
# Interning is canonical

Between two clearings every content that is interned has one string, which each interning of the
content returns. The invariant is about buckets: a kept string lies in the bucket of its hash, and
no bucket has a content twice. Contents with one hash share a bucket, and nothing here asks what the
hash is.

A content and a string are looked up in different ways, by bytes and by `HashedText.same`. They meet
in `Interns`, which says what interning does to an interner however it is done; for strings this
rests on buffers, each of which holds one content.
-/

namespace ObjectModel

namespace Interner

variable {i i' : Interner} {h : Heap} {s s' : Bytes} {t u : Text} {k : UInt64}

structure IsSound (i : Interner) : Prop where
  hash_eq : ∀ k, ∀ t ∈ i.bucket k, t.hash = k ∧ i.hash t.bytes = k
  nodup : ∀ k, ((i.bucket k).map (·.bytes)).Nodup

/-- Whether no kept string but a given one is in the buffer of the latter. -/
def SharesNoBuffer (i : Interner) (t : Text) : Prop :=
  ∀ k, ∀ u ∈ i.bucket k, u.buffer = t.buffer → u.toText = t

theorem bucket_keep (i : Interner) (t : HashedText) (k : UInt64) :
    (i.keep t).bucket k = if k = t.hash then i.bucket k ++ [t] else i.bucket k := by
  rw [bucket, keep, OrderedMap.get?_insert]
  split
  next hk => rw [hk, Option.getD_some]
  next => rfl

theorem find?_eq_none_iff : i.find? s = none ↔ ∀ u ∈ i.bucket (i.hash s), u.bytes ≠ s := by
  simp [find?]

theorem exists_of_find? (hf : i.find? s = some t) :
    t.bytes = s ∧ ∃ u ∈ i.bucket (i.hash s), u.toText = t := by
  obtain ⟨u, hu, rfl⟩ := Option.map_eq_some_iff.1 hf
  exact ⟨eq_of_beq (List.find?_some hu :), u, List.mem_of_find?_eq_some hu, rfl⟩

/-- A kept string is the one that is found for its content. -/
theorem IsSound.find?_of_mem (hi : i.IsSound) {u : HashedText} (hu : u ∈ i.bucket k) :
    i.find? u.bytes = some u.toText := by
  rw [← (hi.hash_eq k u hu).2] at hu
  cases hf : (i.bucket (i.hash u.bytes)).find? (·.bytes == u.bytes) with
  | none => simpa using List.find?_eq_none.1 hf u hu
  | some v =>
    have hv : v.bytes = u.bytes := eq_of_beq (List.find?_some hf :)
    have hmem := List.mem_of_find?_eq_some hf
    rw [find?, hf, Option.map_some,
      List.inj_on_of_nodup_map (hi.nodup (i.hash u.bytes)) hmem hu hv]

/-- A string is in the interner if it is found for its content, and not if only its content is. -/
theorem IsSound.contains_iff (hi : i.IsSound) (ht : i.SharesNoBuffer t) :
    i.contains t = true ↔ i.find? t.bytes = some t := by
  constructor
  · intro hc
    obtain ⟨u, hu, hbuffer⟩ := List.any_eq_true.1 hc
    obtain rfl := ht _ u hu (eq_of_beq hbuffer)
    exact hi.find?_of_mem hu
  · intro hf
    obtain ⟨-, u, hu, rfl⟩ := exists_of_find? hf
    exact List.any_eq_true.2 ⟨u, hu, beq_self_eq_true u.buffer⟩

/-- What interning does to an interner, and the string that it returns: the one of the content, or
else the given one, which is then kept. -/
inductive Interns (i : Interner) (new : Text) : Interner → Text → Prop
  | found {t : Text} : i.find? new.bytes = some t → Interns i new i t
  | kept : i.find? new.bytes = none → Interns i new (i.keep ⟨new, i.hash new.bytes⟩) new

/-- A content is interned as a string in a new buffer would be. -/
theorem interns_intern (i : Interner) (h : Heap) (s : Bytes) :
    i.Interns (h.allocText s).2 (i.intern h s).1 (i.intern h s).2.2 := by
  rw [intern]
  split
  next hf => exact .found hf
  next hf => exact .kept hf

/-- In the bucket of its hash a string is compared by its bytes. -/
theorem IsSound.same_eq (hi : i.IsSound) (ht : i.SharesNoBuffer t) {u : HashedText}
    (hu : u ∈ i.bucket (i.hash t.bytes)) :
    u.same ⟨t, i.hash t.bytes⟩ = (u.bytes == t.bytes) := by
  rw [HashedText.same, (hi.hash_eq _ u hu).1, Bool.eq_iff_iff]
  simp only [Bool.or_eq_true, Bool.and_eq_true, beq_iff_eq]
  constructor
  · rintro (hbuffer | ⟨-, hbytes⟩)
    · rw [← ht _ u hu hbuffer]
    · exact hbytes
  · exact fun hbytes => .inr ⟨⟨congrArg List.length hbytes, trivial⟩, hbytes⟩

theorem IsSound.interns_internText (hi : i.IsSound) (ht : i.SharesNoBuffer t) :
    i.Interns t (i.internText t).1 (i.internText t).2 := by
  have hfind : (i.bucket (i.hash t.bytes)).find? (·.same ⟨t, i.hash t.bytes⟩) =
      (i.bucket (i.hash t.bytes)).find? (·.bytes == t.bytes) :=
    find?_congr fun u hu => hi.same_eq ht hu
  simp only [internText, hfind]
  split
  next u hu =>
    refine .found ?_
    rw [find?, hu, Option.map_some]
  next hnone =>
    refine .kept ?_
    rw [find?, hnone, Option.map_none]

namespace Interns

variable {new : Text}

/-- What is returned was kept before, or it is the given string. -/
theorem find?_eq_some_or_eq (hs : i.Interns new i' t) : i.find? new.bytes = some t ∨ t = new := by
  cases hs with
  | found hf => exact .inl hf
  | kept => exact .inr rfl

theorem eq_of_find? (hs : i.Interns new i' t) (hf : i.find? new.bytes = some u) : t = u := by
  cases hs with
  | found hf' => exact Option.some.inj (hf'.symm.trans hf)
  | kept hf' => cases hf'.symm.trans hf

/-- Afterwards the content has the string that was returned, and other contents have what they
had. -/
theorem find?_eq (hs : i.Interns new i' t) (s : Bytes) :
    i'.find? s = if s = new.bytes then some t else i.find? s := by
  cases hs with
  | found hf =>
    split
    next heq => rw [heq, hf]
    next => rfl
  | kept hf =>
    rw [find?]
    change (((i.keep ⟨t, i.hash t.bytes⟩).bucket (i.hash s)).find? _).map _ = _
    rw [bucket_keep]
    by_cases hs : s = t.bytes
    · subst hs
      rw [find?, Option.map_eq_none_iff] at hf
      rw [if_pos rfl, if_pos rfl, List.find?_append, hf, Option.none_or, List.find?_singleton,
        if_pos (beq_self_eq_true t.bytes), Option.map_some]
    · rw [if_neg hs, find?]
      split
      next =>
        rw [List.find?_append, List.find?_singleton, if_neg (by simpa using Ne.symm hs),
          Option.or_none]
      next => rfl

theorem mem_bucket (hs : i.Interns new i' t) {u : HashedText} (hu : u ∈ i'.bucket k) :
    u ∈ i.bucket k ∨ u.toText = t := by
  cases hs with
  | found => exact .inl hu
  | kept =>
    rw [bucket_keep] at hu
    split at hu
    next =>
      obtain hu | hu := List.mem_append.1 hu
      · exact .inl hu
      · exact .inr (congrArg (·.toText) (List.mem_singleton.1 hu))
    next => exact .inl hu

theorem isSound (hs : i.Interns new i' t) (hi : i.IsSound) : i'.IsSound := by
  cases hs with
  | found => exact hi
  | kept hf =>
    constructor
    · intro k u hu
      rw [bucket_keep] at hu
      split at hu
      next hk =>
        obtain hu | hu := List.mem_append.1 hu
        · exact hi.hash_eq k u hu
        · obtain rfl := List.mem_singleton.1 hu
          exact ⟨hk.symm, hk.symm⟩
      next => exact hi.hash_eq k u hu
    · intro k
      rw [bucket_keep]
      split
      next hk =>
        subst hk
        rw [List.map_append, List.map_singleton]
        refine (hi.nodup _).append (List.nodup_singleton _) ?_
        rw [List.disjoint_singleton]
        intro hmem
        obtain ⟨u, hu, hbytes⟩ := List.mem_map.1 hmem
        exact find?_eq_none_iff.1 hf u hu hbytes
      next => exact hi.nodup k

theorem size_eq (hs : i.Interns new i' t) :
    i'.size = if (i.find? new.bytes).isSome then i.size else i.size + 1 := by
  cases hs with
  | found hf =>
    rw [hf]
    rfl
  | kept hf =>
    rw [hf]
    rfl

end Interns

end Interner

/-- The state of a program that interns strings: its interner and its heap, the strings that it has,
and the contents that were interned since the interner was last cleared, with the strings that were
returned for them. -/
structure Interning where
  interner : Interner
  heap : Heap
  strings : List Text := []
  returned : List (Bytes × Text) := []

namespace Interning

def create (p : Interning) (s : Bytes) : Interning :=
  let (heap, t) := p.heap.allocText s
  { p with heap, strings := t :: p.strings }

def intern (p : Interning) (s : Bytes) : Interning :=
  let (interner, heap, t) := p.interner.intern p.heap s
  { interner, heap, strings := t :: p.strings, returned := (s, t) :: p.returned }

def internText (p : Interning) (t : Text) : Interning :=
  let (interner, u) := p.interner.internText t
  { p with interner, returned := (t.bytes, u) :: p.returned }

def clear (p : Interning) : Interning := { p with interner := p.interner.clear, returned := [] }

/-- Whether a state comes about from one with a new interner, whatever its hash is. Only strings
that the program has can be interned. -/
inductive Reachable : Interning → Prop
  | start (hash : Bytes → UInt64) (heap : Heap) : Reachable { interner := { hash }, heap }
  | create {p : Interning} (s : Bytes) : Reachable p → Reachable (p.create s)
  | intern {p : Interning} (s : Bytes) : Reachable p → Reachable (p.intern s)
  | internText {p : Interning} {t : Text} : Reachable p → t ∈ p.strings →
      Reachable (p.internText t)
  | clear {p : Interning} : Reachable p → Reachable p.clear

/-- Whether every buffer that was given out holds one content. -/
structure OwnsBuffers (strings : List Text) (heap : Heap) : Prop where
  lt_nextBuffer : ∀ t ∈ strings, t.buffer < heap.nextBuffer
  eq_of_buffer_eq : ∀ t ∈ strings, ∀ u ∈ strings, t.buffer = u.buffer → t = u

/-- What holds in every state that can be reached. -/
structure IsCanonical (p : Interning) : Prop where
  isSound : p.interner.IsSound
  ownsBuffers : OwnsBuffers p.strings p.heap
  mem_strings : ∀ k, ∀ u ∈ p.interner.bucket k, u.toText ∈ p.strings
  isSome_iff : ∀ s, (p.interner.find? s).isSome ↔ s ∈ p.returned.map Prod.fst
  find?_eq : ∀ s t, (s, t) ∈ p.returned → p.interner.find? s = some t
  size_eq : p.interner.size = (p.returned.map Prod.fst).dedup.length

variable {p : Interning} {s : Bytes} {t : Text} {strings : List Text} {heap : Heap}

/-- A new buffer is no other string's. -/
theorem OwnsBuffers.allocText (h : OwnsBuffers strings heap) (s : Bytes) :
    OwnsBuffers ((heap.allocText s).2 :: strings) (heap.allocText s).1 := by
  have hne : ∀ t ∈ strings, t.buffer ≠ heap.nextBuffer := fun t ht =>
    Nat.ne_of_lt (h.lt_nextBuffer t ht)
  constructor
  · refine List.forall_mem_cons.2 ⟨Nat.lt_succ_self _, fun t ht => ?_⟩
    exact Nat.lt_succ_of_lt (h.lt_nextBuffer t ht)
  · intro t ht u hu hbuffer
    rw [List.mem_cons] at ht hu
    obtain rfl | ht := ht
    · obtain rfl | hu := hu
      · rfl
      · exact absurd hbuffer.symm (hne u hu)
    · obtain rfl | hu := hu
      · exact absurd hbuffer (hne t ht)
      · exact h.eq_of_buffer_eq t ht u hu hbuffer

theorem OwnsBuffers.cons_of_mem (h : OwnsBuffers strings heap) (ht : t ∈ strings) :
    OwnsBuffers (t :: strings) heap := by
  have hsub : t :: strings ⊆ strings := List.cons_subset.2 ⟨ht, List.Subset.refl _⟩
  exact ⟨fun u hu => h.lt_nextBuffer u (hsub hu),
    fun u hu v hv => h.eq_of_buffer_eq u (hsub hu) v (hsub hv)⟩

theorem isCanonical_start (hash : Bytes → UInt64) (heap : Heap) :
    IsCanonical { interner := { hash }, heap } where
  isSound := ⟨nofun, fun _ => List.nodup_nil⟩
  ownsBuffers := ⟨nofun, nofun⟩
  mem_strings := nofun
  isSome_iff _ := iff_of_false Bool.false_ne_true List.not_mem_nil
  find?_eq := nofun
  size_eq := rfl

namespace IsCanonical

theorem sharesNoBuffer (hp : p.IsCanonical) (ht : t ∈ p.strings) : p.interner.SharesNoBuffer t :=
  fun k u hu hbuffer =>
    hp.ownsBuffers.eq_of_buffer_eq u.toText (hp.mem_strings k u hu) t ht hbuffer

/-- Interning keeps the invariant, however it is done. -/
theorem interns {i' : Interner} {new : Text} (hp : p.IsCanonical)
    (hs : p.interner.Interns new i' t) (hstrings : OwnsBuffers strings heap)
    (hsub : p.strings ⊆ strings) (ht : t ∈ strings) :
    IsCanonical ⟨i', heap, strings, (new.bytes, t) :: p.returned⟩ := by
  refine ⟨hs.isSound hp.isSound, hstrings, fun k u hu => ?_, fun s => ?_, fun s u hmem => ?_, ?_⟩
  · obtain hu | rfl := hs.mem_bucket hu
    · exact hsub (hp.mem_strings k u hu)
    · exact ht
  · rw [hs.find?_eq, List.map_cons, List.mem_cons]
    split
    next heq => exact iff_of_true rfl (.inl heq)
    next hne => rw [hp.isSome_iff, or_iff_right hne]
  · rw [hs.find?_eq]
    obtain heq | hmem := List.mem_cons.1 hmem
    · cases heq
      exact if_pos rfl
    · have hold := hp.find?_eq s u hmem
      split
      next heq => rw [hs.eq_of_find? (heq ▸ hold)]
      next => exact hold
  · rw [hs.size_eq, hp.size_eq, List.map_cons]
    split
    next hold => rw [List.dedup_cons_of_mem ((hp.isSome_iff _).1 hold)]
    next hnew =>
      rw [List.dedup_cons_of_notMem fun hmem => hnew ((hp.isSome_iff _).2 hmem)]
      rfl

/-- What is found is a string of the program. -/
theorem of_find? (hp : p.IsCanonical) (hf : p.interner.find? s = some t) :
    t.bytes = s ∧ t ∈ p.strings := by
  obtain ⟨hbytes, u, hu, rfl⟩ := Interner.exists_of_find? hf
  exact ⟨hbytes, hp.mem_strings _ u hu⟩

/-- A content that is interned takes a new buffer only if it has none. -/
theorem ownsBuffers_intern (hp : p.IsCanonical) (s : Bytes) :
    OwnsBuffers ((p.interner.intern p.heap s).2.2 :: p.strings)
      (p.interner.intern p.heap s).2.1 := by
  rw [Interner.intern]
  split
  next hf => exact hp.ownsBuffers.cons_of_mem (hp.of_find? hf).2
  next => exact hp.ownsBuffers.allocText s

theorem intern (hp : p.IsCanonical) (s : Bytes) : (p.intern s).IsCanonical :=
  hp.interns (Interner.interns_intern p.interner p.heap s) (hp.ownsBuffers_intern s)
    (List.subset_cons_self _ _) List.mem_cons_self

theorem internText (hp : p.IsCanonical) (ht : t ∈ p.strings) : (p.internText t).IsCanonical := by
  have hs := hp.isSound.interns_internText (hp.sharesNoBuffer ht)
  refine hp.interns hs hp.ownsBuffers (List.Subset.refl _) ?_
  obtain hf | heq := hs.find?_eq_some_or_eq
  · exact (hp.of_find? hf).2
  · exact heq.symm ▸ ht

end IsCanonical

theorem Reachable.isCanonical (hp : p.Reachable) : p.IsCanonical := by
  induction hp with
  | start hash heap => exact isCanonical_start hash heap
  | create s _ ih =>
    exact ⟨ih.isSound, ih.ownsBuffers.allocText s,
      fun k u hu => List.mem_cons_of_mem _ (ih.mem_strings k u hu), ih.isSome_iff, ih.find?_eq,
      ih.size_eq⟩
  | intern s _ ih => exact ih.intern s
  | internText _ ht ih => exact ih.internText ht
  | @clear p _ ih =>
    have hnew := isCanonical_start p.interner.hash p.heap
    exact ⟨hnew.isSound, ih.ownsBuffers, nofun, hnew.isSome_iff, hnew.find?_eq, rfl⟩

/-- Interning is canonical. Whatever is interned and cleared, and whatever strings come into being
besides: a content has an interned string just if it was interned since the last clearing, and this
is what every interning of the content since then has returned. Of all strings of the program it
alone passes for interned. It has the content, so that the strings of different contents are in
different buffers, and there are as many contents as were interned. Contents may have one hash. -/
theorem Reachable.canonical (hp : p.Reachable) :
    (∀ s, (p.interner.find? s).isSome ↔ s ∈ p.returned.map Prod.fst) ∧
      (∀ s t, (s, t) ∈ p.returned → p.interner.find? s = some t) ∧
      (∀ t ∈ p.strings, p.interner.contains t = true ↔ p.interner.find? t.bytes = some t) ∧
      (∀ s t, p.interner.find? s = some t → t.bytes = s ∧ t ∈ p.strings) ∧
      (∀ s s' t t', p.interner.find? s = some t → p.interner.find? s' = some t' → s ≠ s' →
        t.buffer ≠ t'.buffer) ∧
      p.interner.size = (p.returned.map Prod.fst).dedup.length := by
  have hc := hp.isCanonical
  refine ⟨hc.isSome_iff, hc.find?_eq, fun t ht => ?_, fun s t hf => hc.of_find? hf, ?_, hc.size_eq⟩
  · exact hc.isSound.contains_iff (hc.sharesNoBuffer ht)
  · intro s s' t t' hf hf' hne hbuffer
    obtain ⟨hbytes, ht⟩ := hc.of_find? hf
    obtain ⟨hbytes', ht'⟩ := hc.of_find? hf'
    apply hne
    rw [← hbytes, ← hbytes', hc.ownsBuffers.eq_of_buffer_eq t ht t' ht' hbuffer]

/-- The contents `a` and `b` have one hash. A string that was interned before the clearing is
forgotten; another one of the same content that is interned afterwards takes its place. -/
theorem canonical_of_one_hash :
    let a : Bytes := [0x61]
    let b : Bytes := [0x62]
    let p : Interning := (((({ interner := { hash := fun _ => 0 }, heap := {} } : Interning).intern
      a).clear.create a).intern b).internText ⟨a, 1⟩ |>.intern a
    p.Reachable ∧ p.interner.hash a = p.interner.hash b ∧
      p.returned = [(a, ⟨a, 1⟩), (a, ⟨a, 1⟩), (b, ⟨b, 2⟩)] ∧
      (p.interner.find? a = some ⟨a, 1⟩ ∧ p.interner.find? b = some ⟨b, 2⟩) ∧
      (⟨a, 0⟩ ∈ p.strings ∧ p.interner.contains ⟨a, 0⟩ = false) ∧ p.interner.size = 2 := by
  intro a b p
  have hp : p.Reachable :=
    .intern a (.internText (.intern b (.create a (.clear (.intern a (.start _ _))))) (by decide))
  have hreturned : p.returned = [(a, ⟨a, 1⟩), (a, ⟨a, 1⟩), (b, ⟨b, 2⟩)] := by decide
  have hold : ⟨a, 0⟩ ∈ p.strings := by decide
  obtain ⟨-, hfind, hcontains, -, -, hsize⟩ := Reachable.canonical hp
  have ha : p.interner.find? a = some ⟨a, 1⟩ := hfind a ⟨a, 1⟩ (by rw [hreturned]; decide)
  have hb : p.interner.find? b = some ⟨b, 2⟩ := hfind b ⟨b, 2⟩ (by rw [hreturned]; decide)
  refine ⟨hp, rfl, hreturned, ⟨ha, hb⟩, ⟨hold, ?_⟩, ?_⟩
  · rw [Bool.eq_false_iff, ne_eq, hcontains _ hold, ha]
    decide
  · rw [hsize, hreturned]
    decide

end Interning

end ObjectModel
