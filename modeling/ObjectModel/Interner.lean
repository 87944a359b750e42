import ObjectModel.Heap.Basic
/-!
# Interned strings

An interner keeps one string for every content it has seen. Interning a string yields the kept
string of its content, so two interned strings are equal just if they share a buffer.

The kept strings lie in buckets by the hash of their content, and different contents may well have
one hash. Contents are told apart by their bytes; strings by `HashedText.same`, which looks at
buffers, lengths and hashes before it compares bytes.
-/

namespace ObjectModel

/-- The 64-bit FNV-1a hash of a content. -/
def Bytes.fnv1a (s : Bytes) : UInt64 :=
  s.foldl (fun k b => (k ^^^ b.toUInt64) * 0x100000001b3) 0xcbf29ce484222325

/-- A string whose hash is known. -/
structure HashedText extends Text where
  hash : UInt64
deriving DecidableEq, Repr, Inhabited

/-- Whether two strings with known hashes are equal: they are if they share a buffer, and are not if
their lengths or hashes differ. -/
def HashedText.same (s t : HashedText) : Bool :=
  s.buffer == t.buffer ||
    (s.bytes.length == t.bytes.length && s.hash == t.hash && s.bytes == t.bytes)

/-- The interned strings in buckets. -/
structure Interner where
  /-- The hash that tells the bucket of a content. -/
  hash : Bytes → UInt64 := Bytes.fnv1a
  /-- The strings whose contents have a hash, oldest first. -/
  buckets : OrderedMap UInt64 (List HashedText) := ∅
  /-- The number of contents. -/
  size : Nat := 0
deriving Inhabited

namespace Interner

def bucket (i : Interner) (k : UInt64) : List HashedText := (i.buckets.get? k).getD []

/-- Puts a string into the bucket of its hash. -/
def keep (i : Interner) (t : HashedText) : Interner :=
  { i with buckets := i.buckets.insert t.hash (i.bucket t.hash ++ [t]), size := i.size + 1 }

/-- The interned string of a content. -/
def find? (i : Interner) (s : Bytes) : Option Text :=
  ((i.bucket (i.hash s)).find? (·.bytes == s)).map (·.toText)

/-- Interns a content, in a new buffer if it is new. -/
def intern (i : Interner) (h : Heap) (s : Bytes) : Interner × Heap × Text :=
  match i.find? s with
  | some t => (i, h, t)
  | none =>
    let (h, t) := h.allocText s
    (i.keep ⟨t, i.hash s⟩, h, t)

def internText (i : Interner) (t : Text) : Interner × Text :=
  let t : HashedText := ⟨t, i.hash t.bytes⟩
  match (i.bucket t.hash).find? (·.same t) with
  | some u => (i, u.toText)
  | none => (i.keep t, t.toText)

def contains (i : Interner) (t : Text) : Bool :=
  (i.bucket (i.hash t.bytes)).any (·.buffer == t.buffer)

def clear (i : Interner) : Interner := { i with buckets := ∅, size := 0 }

end Interner

end ObjectModel
