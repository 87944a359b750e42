import ObjectModel.Error
import ObjectModel.Numeral
/-!
# Parts of a byte string

A byte string is split at a delimiter, or a part of it is cut out, given by a start and a length. A
negative start is counted from the end of the string, a negative length counts the bytes left out at
the end, and what lies beyond either end is clamped to the string. All positions are machine
integers. A sum that is out of their range is a failure, and so is a position that is out of the
string.
-/

namespace ObjectModel.Bytes

/-- The parts of a string between the occurrences of a delimiter, which must not be empty. -/
def split (s : Bytes) : (delimiter : Bytes) → Except Error (List Bytes)
  | [] => .error .emptySeparator
  | d :: ds => .ok (splitOn d ds s)

/-- The position at which a part starts, in a string of `size` bytes. -/
def partStart? (size start : Int64) : Option Int64 :=
  if start < 0 then (int64? (size.toInt + start.toInt)).map (max · 0) else some start

/-- The number of bytes of a part that starts at `first`, in a string of `size` bytes. -/
def partLength? (size first : Int64) : (length? : Option Int64) → Option Int64
  | none => int64? (size.toInt - first.toInt)
  | some l =>
    if l < 0 then do
      let stop ← int64? (size.toInt + l.toInt)
      if stop < first then some 0 else int64? (stop.toInt - first.toInt)
    else (int64? (size.toInt - first.toInt)).map (min l)

/-- The `count` bytes from a position on, if the string has them. -/
def extract? (s : Bytes) (first count : Int64) : Option Bytes :=
  if 0 ≤ first ∧ 0 ≤ count ∧ first.toInt + count.toInt ≤ s.length then
    some ((s.drop first.toInt.toNat).take count.toInt.toNat)
  else none

/-- The part that starts at `start`. Without a length it runs to the end. -/
def substr? (s : Bytes) (start : Int64) (length? : Option Int64) : Option Bytes := do
  let size := Int64.ofNat s.length
  if size < start then return []
  let first ← partStart? size start
  let count ← partLength? size first length?
  if count ≤ 0 then return []
  s.extract? first count

end ObjectModel.Bytes
