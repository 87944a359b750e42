import ObjectModel.Double.Layout
import ObjectModel.Error
import ObjectModel.Heap.Basic
/-!
# Conversions between scalar types

Every value has a truth value, an integer, a double and a number; every value but an object has a
text. References are transparent: a conversion looks at the value at the end of the chain. Arrays
count as one if they have elements and as zero if not, objects count as one, and a resource counts
as its number.
-/

namespace ObjectModel

/-- The number of significant digits with which doubles are written if nothing else is asked for. -/
def defaultPrecision : Nat := 14

/-- The double of a truth value or of a count that is zero or one. -/
private def unitDouble (b : Bool) : Double := .ofInt (if b then 1 else 0)

/-- The text of a value, with at most `precision` significant digits of a double. Objects have a
text only through their class, and none here. -/
def Val.plainText (precision : Nat) : Val → Bytes
  | undefined | null | bool false | object _ | reference _ => []
  | bool true => Bytes.ofString "1"
  | int i => Bytes.ofString (String.ofList (decimalText i.toInt))
  | float d => Bytes.ofString (String.ofList (d.format precision))
  | str s => s.bytes
  | array _ => Bytes.ofString "Array"
  | resource r => Bytes.ofString s!"Resource id #{r.number}"

/-- The array key that a text stands for. -/
def Key.ofText (s : Text) : Key :=
  match Numeral.canonicalInt? s.bytes with
  | some i => .int i
  | none => .str s.bytes

namespace Heap

def isNumeric (h : Heap) (v : Val) : Bool :=
  match h.deref v with
  | .int _ | .float _ => true
  | .str s => Numeral.isNumeric s.bytes
  | _ => false

/-- The truth value. The empty string and the string `0` are false. -/
def toBool (h : Heap) (v : Val) : Bool :=
  match h.deref v with
  | .undefined | .null | .reference _ => false
  | .bool b => b
  | .int i => i != 0
  | .float d => d.isTruthy
  | .str s => !(s.bytes.isEmpty || s.bytes == [0x30])
  | .array r => !(h.array r).isEmpty
  | .object _ | .resource _ => true

def toInt (h : Heap) (v : Val) : Int64 :=
  match h.deref v with
  | .undefined | .null | .reference _ => 0
  | .bool b => if b then 1 else 0
  | .int i => i
  | .float d => d.toInt64
  | .str s => Numeral.intPrefix s.bytes
  | .array r => if (h.array r).isEmpty then 0 else 1
  | .object _ => 1
  | .resource r => .ofNat r.number

def toDouble (h : Heap) (v : Val) : Double :=
  match h.deref v with
  | .undefined | .null | .reference _ => .zero false
  | .bool b => unitDouble b
  | .int i => .ofInt i.toInt
  | .float d => d
  | .str s => Numeral.doublePrefix s.bytes
  | .array r => unitDouble !(h.array r).isEmpty
  | .object _ => unitDouble true
  | .resource r => .ofInt r.number

/-- The number that a value is compared as. A string is read as far as it is a numeral, and is zero
if it starts with none. -/
def toNumeric (h : Heap) (v : Val) : Numeric :=
  match h.deref v with
  | .int i => .int i
  | .float d => .float d
  | .str s => ((Numeral.scan? s.bytes).map (·.value)).getD (.int 0)
  | v => .int (h.toInt v)

/-- The array key that a value stands for. Null is the empty string, truth values and doubles become
integers, and arrays and objects are no keys. -/
def toKey (h : Heap) (v : Val) : Except Error Key :=
  match h.deref v with
  | .undefined | .null | .reference _ => .ok (.str [])
  | .bool b => .ok (.int (if b then 1 else 0))
  | .int i => .ok (.int i)
  | .float d => .ok (.int d.toInt64)
  | .str s => .ok (.ofText s)
  | .resource r => .ok (.int (.ofNat r.number))
  | .array _ => .error (.illegalOffset "array")
  | .object _ => .error (.illegalOffset "object")

def allocKey (h : Heap) : Key → Heap × Val
  | .int i => (h, .int i)
  | .str s => let (h, s) := h.allocText s; (h, .str s)

def keysAsArray (h : Heap) (a : OrderedArray Val) : Heap × OrderedArray Val :=
  let (h, vs) := mapAccum allocKey h a.keys
  (h, .ofList vs)

end Heap

end ObjectModel
