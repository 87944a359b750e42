/-!
# Byte strings

Strings of the object model are sequences of bytes; nothing requires them to be text. This module
holds searching, trimming and case folding. Positions are counted in bytes from zero, and a search
from beyond the end finds nothing, so no operation here can fail.

Case folding and the comparison that ignores case touch the letters `A` to `Z` only.
-/

namespace ObjectModel

abbrev Bytes := List UInt8

namespace Bytes

/-- The UTF-8 bytes of a text. -/
def ofString (s : String) : Bytes := s.toList.flatMap String.utf8EncodeChar

def isDigit (b : UInt8) : Bool := 0x30 ≤ b && b ≤ 0x39

/-- Space, tab, line feed, carriage return, vertical tab or form feed. -/
def isBlank (b : UInt8) : Bool := b == 0x20 || (0x09 ≤ b && b ≤ 0x0D)

/-- Drops the longest suffix whose bytes all satisfy `p`. -/
def dropWhileEnd (p : UInt8 → Bool) (s : Bytes) : Bytes := (s.reverse.dropWhile p).reverse

/-- Drops the bytes in `chars` from the chosen ends. -/
def trimMatches (s chars : Bytes) (left right : Bool) : Bytes :=
  let s := if left then s.dropWhile (chars.contains ·) else s
  if right then dropWhileEnd (chars.contains ·) s else s

/-- The bytes trimmed when none are named: space, tab, line feed, carriage return, the zero byte
and vertical tab. -/
def trimmed : Bytes := [0x20, 0x09, 0x0A, 0x0D, 0x00, 0x0B]

/-- The position of the first occurrence of `needle`. -/
def indexOf? : (s needle : Bytes) → Option Nat
  | [], needle => if needle.isEmpty then some 0 else none
  | b :: s, needle =>
    if needle.isPrefixOf (b :: s) then some 0 else (indexOf? s needle).map (· + 1)

/-- The position of the last occurrence of `needle`. -/
def lastIndexOf? : (s needle : Bytes) → Option Nat
  | [], needle => if needle.isEmpty then some 0 else none
  | b :: s, needle =>
    match lastIndexOf? s needle with
    | some i => some (i + 1)
    | none => if needle.isPrefixOf (b :: s) then some 0 else none

/-- The position of the first occurrence of `needle` at or after `offset`. -/
def find? (s needle : Bytes) (offset : Nat) : Option Nat :=
  if s.length < offset then none else (indexOf? (s.drop offset) needle).map (· + offset)

def containsBytes (s needle : Bytes) : Bool := (s.indexOf? needle).isSome

theorem add_length_le_of_indexOf? {s needle : Bytes} {i : Nat} (h : indexOf? s needle = some i) :
    i + needle.length ≤ s.length := by
  induction s generalizing i with
  | nil =>
    simp only [indexOf?] at h
    split at h
    · cases h; simp_all
    · cases h
  | cons b s ih =>
    simp only [indexOf?] at h
    split at h
    next hp => cases h; simpa using (List.isPrefixOf_iff_prefix.1 hp).length_le
    next =>
      obtain ⟨j, hj, rfl⟩ := Option.map_eq_some_iff.1 h
      have := ih hj
      simp only [List.length_cons]
      omega

/-- The parts between the leftmost occurrences of the delimiter `d :: ds`, which do not overlap. -/
def splitOn (d : UInt8) (ds s : Bytes) : List Bytes :=
  match _h : indexOf? s (d :: ds) with
  | none => [s]
  | some i => s.take i :: splitOn d ds (s.drop (i + (d :: ds).length))
termination_by s.length
decreasing_by
  have := add_length_le_of_indexOf? _h
  simp only [List.length_drop, List.length_cons] at *
  omega

/-- The small form of a capital letter; other bytes are unchanged. -/
def lowerByte (b : UInt8) : UInt8 := if 0x41 ≤ b && b ≤ 0x5A then b + 32 else b

/-- The capital form of a small letter; other bytes are unchanged. -/
def upperByte (b : UInt8) : UInt8 := if 0x61 ≤ b && b ≤ 0x7A then b - 32 else b

def toLower (s : Bytes) : Bytes := s.map lowerByte

def toUpper (s : Bytes) : Bytes := s.map upperByte

/-- Equality up to the case of letters. -/
def eqIgnoreCase (s t : Bytes) : Bool := s.toLower == t.toLower

end Bytes

end ObjectModel
