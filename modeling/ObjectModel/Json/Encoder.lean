import ObjectModel.Bytes.Utf8
import ObjectModel.Double.Layout
import ObjectModel.Json.Error
import ObjectModel.Object.Access
import ObjectModel.Settings
/-!
# Writing values as JSON

Arrays with the keys `0, 1, 2, …` are written as arrays, all others and objects as objects with the
keys or the names of the public properties. A container that lies inside itself has no text, and the
nesting is limited. Flags choose how characters are escaped and whether the text is laid out in
lines.
-/

namespace ObjectModel

/-- The choices of a JSON writer. -/
structure JsonStyle where
  /-- Angle brackets are escaped. -/
  hexTag : Bool := false
  /-- Ampersands are escaped. -/
  hexAmp : Bool := false
  /-- Single quotes are escaped. -/
  hexApos : Bool := false
  /-- Double quotes are written as a hexadecimal escape. -/
  hexQuot : Bool := false
  /-- Arrays are written as objects. -/
  forceObject : Bool := false
  /-- Slashes are not escaped. -/
  unescapedSlashes : Bool := false
  /-- Every member has its own line. -/
  prettyPrint : Bool := false
  /-- Characters beyond ASCII are not escaped. -/
  unescapedUnicode : Bool := false
  /-- Whole doubles keep a fraction of zero. -/
  preserveZeroFraction : Bool := false
  /-- Line separators are not escaped either where other characters are not. -/
  unescapedLineTerminators : Bool := false
deriving DecidableEq, Repr

/-- The style that a word of flags asks for. Unknown flags are ignored. -/
def JsonStyle.ofFlags (flags : Int64) : JsonStyle :=
  let has (flag : Int64) : Bool := flags &&& flag != 0
  { hexTag := has 1
    hexAmp := has 2
    hexApos := has 4
    hexQuot := has 8
    forceObject := has 16
    unescapedSlashes := has 64
    prettyPrint := has 128
    unescapedUnicode := has 256
    preserveZeroFraction := has 1024
    unescapedLineTerminators := has 2048 }

namespace Json

def hexEscape (n : Nat) : List Char :=
  let digits := Nat.toDigits 16 n
  '\\' :: 'u' :: List.replicate (4 - digits.length) '0' ++ digits

/-- The escapes of a character beyond ASCII: one, or one for each half of a surrogate pair. -/
def unicodeEscape (c : Char) : List Char :=
  let n := c.toNat
  if n < 0x10000 then hexEscape n
  else hexEscape (0xD800 + (n - 0x10000) / 0x400) ++ hexEscape (0xDC00 + (n - 0x10000) % 0x400)

/-- The written form of a character inside a string. -/
def escape (style : JsonStyle) (c : Char) : List Char :=
  if c == '"' then if style.hexQuot then "\\u0022".toList else ['\\', '"']
  else if c == '\\' then ['\\', '\\']
  else if c == '/' && !style.unescapedSlashes then ['\\', '/']
  else if c == '\x08' then ['\\', 'b']
  else if c == '\x0C' then ['\\', 'f']
  else if c == '\n' then ['\\', 'n']
  else if c == '\r' then ['\\', 'r']
  else if c == '\t' then ['\\', 't']
  else if c == '<' && style.hexTag then "\\u003C".toList
  else if c == '>' && style.hexTag then "\\u003E".toList
  else if c == '&' && style.hexAmp then "\\u0026".toList
  else if c == '\'' && style.hexApos then "\\u0027".toList
  else if c < ' ' then hexEscape c.toNat
  else if c.toNat < 0x80 then [c]
  else if !style.unescapedUnicode then unicodeEscape c
  else if (c == '\u2028' || c == '\u2029') && !style.unescapedLineTerminators then unicodeEscape c
  else [c]

def quote (style : JsonStyle) (cs : List Char) : List Char :=
  '"' :: cs.flatMap (escape style) ++ ['"']

/-- The written form of a byte string, which must be UTF-8. -/
def encodeText (style : JsonStyle) (s : Bytes) : Except JsonError (List Char) :=
  match Bytes.Utf8.decode? s with
  | some cs => .ok (quote style cs)
  | none => .error .utf8

/-- The written form of a double: the shortest one if the precision is negative, and otherwise at
most that many digits. -/
def encodeDouble (style : JsonStyle) (precision : Int) (d : Double) :
    Except JsonError (List Char) :=
  if !d.isFinite then .error .infOrNan
  else
    let text :=
      if precision < 0 then d.formatShortest 'e'
      else if precision = 0 then d.format 1
      else (d.format precision.toNat).map fun c => if c == 'E' then 'e' else c
    let plain := !text.any fun c => c == '.' || c == 'e'
    .ok (if style.preserveZeroFraction && plain then text ++ ".0".toList else text)

/-- The break before a member or a closing bracket that lies `depth` containers deep. -/
def lineBreak (style : JsonStyle) (depth : Nat) : List Char :=
  if style.prettyPrint then '\n' :: List.replicate (4 * depth) ' ' else []

def joinMembers (style : JsonStyle) (depth : Nat) : List (List Char) → List Char
  | [] => []
  | [m] => lineBreak style depth ++ m
  | m :: ms => lineBreak style depth ++ (m ++ ',' :: joinMembers style depth ms)

def bracket (style : JsonStyle) (depth : Nat) (left right : Char) (ms : List (List Char)) :
    List Char :=
  let close := if ms.isEmpty then [] else lineBreak style (depth - 1)
  left :: joinMembers style depth ms ++ (close ++ [right])

/-- What separates a name from its value. -/
def nameSeparator (style : JsonStyle) : List Char := if style.prettyPrint then [':', ' '] else [':']

/-- What a writer goes by. -/
structure Writer where
  heap : Heap
  style : JsonStyle
  /-- The number of digits of a double, or a negative number for the shortest form. -/
  precision : Int
  /-- How deep containers may be nested. -/
  maxDepth : Nat

namespace Writer

/-- Enters a container, given those that it lies in. -/
def enter (w : Writer) (outer : List Val) (v : Val) : Except JsonError (List Val) :=
  if outer.contains v then .error .recursion
  else if w.maxDepth < outer.length + 1 then .error .depth
  else .ok (v :: outer)

def writeMembers (w : Writer) (write : Val → Except JsonError (List Char)) (depth : Nat)
    (members : List (Bytes × Val)) : Except JsonError (List Char) := do
  let texts ← members.mapM fun (name, v) => do
    return (← encodeText w.style name) ++ nameSeparator w.style ++ (← write v)
  return bracket w.style depth '\x7b' '\x7d' texts

def writeItems (w : Writer) (write : Val → Except JsonError (List Char)) (depth : Nat)
    (items : List Val) : Except JsonError (List Char) := do
  return bracket w.style depth '[' ']' (← items.mapM write)

/-- Writes a value that lies in the containers `outer` and contains fewer than `n` more inside one
another. -/
def write (w : Writer) : (n : Nat) → (outer : List Val) → Val → Except JsonError (List Char)
  | n, outer, v =>
    match w.heap.deref v, n with
    | .undefined, _ | .null, _ => .ok "null".toList
    | .bool true, _ => .ok "true".toList
    | .bool false, _ => .ok "false".toList
    | .int i, _ => .ok (decimalText i.toInt)
    | .float d, _ => encodeDouble w.style w.precision d
    | .str s, _ => encodeText w.style s.bytes
    | .array r, n + 1 => do
      let inner ← w.enter outer (.array r)
      let a := w.heap.array r
      if w.style.forceObject || !a.isList then
        w.writeMembers (write w n inner) inner.length (a.entries.map fun (k, v) => (k.text, v))
      else w.writeItems (write w n inner) inner.length a.values
    | .object r, n + 1 => do
      let inner ← w.enter outer (.object r)
      let ps := w.heap.publicProperties (w.heap.object r)
      w.writeMembers (write w n inner) inner.length
        (ps.map fun (name, v) => (Bytes.ofString name, v))
    | .array _, 0 | .object _, 0 => .error .recursion
    | .resource _, _ | .reference _, _ => .error .unsupportedType

end Writer

/-- The JSON text of a value. -/
def encode (h : Heap) (settings : Settings) (style : JsonStyle) (maxDepth : Nat) (v : Val) :
    Except JsonError (List Char) :=
  -- containers that lie in one another are distinct, so there are never more of them than exist
  Writer.write ⟨h, style, settings.serializePrecision, maxDepth⟩
    (h.arrays.size + h.objects.size + 1) [] v

end Json

end ObjectModel
