import ObjectModel.Bytes.Basic
/-!
# UTF-8

A byte string is read by a machine that takes one byte at a time. It yields `some c` for every
character and `none` for every maximal malformed part: the longest prefix of a character that the
next byte, or the end, breaks off, or a single byte that begins no character. Strict decoding
accepts a string without malformed parts; lenient decoding puts U+FFFD in their place.
-/

namespace ObjectModel.Bytes.Utf8

/-- Where the reader stands between bytes. -/
inductive State where
  /-- Between two characters. -/
  | start
  /-- Inside a character: the next byte must lie between `low` and `high`, and `more` continuation
  bytes follow it. The payload read so far is `code`. -/
  | expect (more code : Nat) (low high : UInt8)
deriving DecidableEq, Repr

/-- Reads a byte that should begin a character. -/
def begin (b : UInt8) : List (Option Char) × State :=
  if b < 0x80 then ([some (Char.ofNat b.toNat)], .start)
  else if b < 0xC2 then ([none], .start)
  else if b < 0xE0 then ([], .expect 0 (b.toNat - 0xC0) 0x80 0xBF)
  else if b = 0xE0 then ([], .expect 1 0 0xA0 0xBF)
  else if b = 0xED then ([], .expect 1 0xD 0x80 0x9F)
  else if b < 0xF0 then ([], .expect 1 (b.toNat - 0xE0) 0x80 0xBF)
  else if b = 0xF0 then ([], .expect 2 0 0x90 0xBF)
  else if b < 0xF4 then ([], .expect 2 (b.toNat - 0xF0) 0x80 0xBF)
  else if b = 0xF4 then ([], .expect 2 4 0x80 0x8F)
  else ([none], .start)

def step : State → UInt8 → List (Option Char) × State
  | .start, b => begin b
  | .expect more code low high, b =>
    if low ≤ b && b ≤ high then
      let code := code * 64 + (b.toNat - 0x80)
      match more with
      | 0 => ([some (Char.ofNat code)], .start)
      | more + 1 => ([], .expect more code 0x80 0xBF)
    else
      let (out, state) := begin b
      (none :: out, state)

/-- The characters and malformed parts from a state on. -/
def scan : State → Bytes → List (Option Char)
  | .start, [] => []
  | .expect .., [] => [none]
  | state, b :: s => (step state b).1 ++ scan (step state b).2 s

/-- The characters of a well-formed string. -/
def decode? (s : Bytes) : Option (List Char) := (scan .start s).mapM id

/-- The characters of any string, with U+FFFD in place of each malformed part. -/
def decodeLossy (s : Bytes) : List Char := (scan .start s).map (·.getD '\uFFFD')

def encode (cs : List Char) : Bytes := cs.flatMap String.utf8EncodeChar

theorem encode_append (cs ds : List Char) : encode (cs ++ ds) = encode cs ++ encode ds :=
  List.flatMap_append

example : decode? [0x68, 0xC3, 0xA9] = some ['h', 'é'] := by decide

example : decodeLossy [0xE2, 0x82, 0x41, 0xFF] = ['\uFFFD', 'A', '\uFFFD'] := by decide

end Utf8

def toStringLossy (s : Bytes) : String := String.ofList (Utf8.decodeLossy s)

/-- The text of a byte string that is well-formed UTF-8. -/
def toString? (s : Bytes) : Option String := (Utf8.decode? s).map String.ofList

end ObjectModel.Bytes
