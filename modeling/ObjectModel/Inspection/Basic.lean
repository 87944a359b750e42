import ObjectModel.Inspection.Hidden
import ObjectModel.Session
/-!
# Inspecting values

The text under which a value is shown to a developer. It names the kind of every value and shows the
form and next index of arrays; of objects and references it tells only what they are.
-/

namespace ObjectModel

/-- A character between quotes, escaped if it could be misread. -/
def inspectChar (c : Char) : List Char :=
  match c with
  | '"' => ['\\', '"']
  | '\\' => ['\\', '\\']
  | '\n' => ['\\', 'n']
  | '\r' => ['\\', 'r']
  | '\t' => ['\\', 't']
  | '\x00' => ['\\', '0']
  | c =>
    if isHidden c then
      ['\\', 'u', '\x7b'] ++ Nat.toDigits 16 c.toNat ++ ['\x7d']
    else [c]

/-- The text of a byte string between quotes. -/
def inspectBytes (s : Bytes) : String :=
  String.ofList ('"' :: (Bytes.Utf8.decodeLossy s).flatMap inspectChar ++ ['"'])

def Key.inspect : Key → String
  | int i => "Int(" ++ String.ofList (decimalText i.toInt) ++ ")"
  | str s => "Str(" ++ inspectBytes s ++ ")"

/-- The text of an array whose elements have the given texts. -/
def OrderedArray.inspect (a : OrderedArray String) : String :=
  let storage := match a with
    | packed vs => "Packed([" ++ ", ".intercalate vs ++ "])"
    | hash m _ =>
      let entries := m.entries.map fun (k, v) => k.inspect ++ ": " ++ v
      "Hash(\x7b" ++ ", ".intercalate entries ++ "\x7d)"
  "ArrayData \x7b storage: " ++ storage ++ ", next_free: " ++
    String.ofList (decimalText a.next.toInt) ++ " \x7d"

namespace Session

/-- The text of a value in which at most `n` arrays lie in one another. -/
def inspectWithin (s : Session) : (n : Nat) → Val → String
  | n + 1, .array r =>
    "Array(" ++ ((s.heap.array r).map (inspectWithin s n)).inspect ++ ")"
  | 0, .array _ => "Array"
  | _, .undefined => "Undefined"
  | _, .null => "Null"
  | _, .bool b => s!"Bool({b})"
  | _, .int i => "Int(" ++ String.ofList (decimalText i.toInt) ++ ")"
  | _, .float d => "Float(" ++ String.ofList d.formatPositional ++ ")"
  | _, .str t => "String(" ++ inspectBytes t.bytes ++ ")"
  | _, .object r => s!"Object({(s.heap.object r).cls.name}#{r.index})"
  | _, .resource r => s!"Resource({s.resources.kind r}#{r.number})"
  | _, .reference c => s!"Reference({(s.heap.cell c).kindName})"

/-- The text of a value for a developer. -/
def inspect (s : Session) (v : Val) : String := s.inspectWithin (s.heap.arrays.size + 1) v

end Session

end ObjectModel
