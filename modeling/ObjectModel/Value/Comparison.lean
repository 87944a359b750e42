import ObjectModel.Value.Conversion
/-!
# Comparing values

Three comparisons, all blind to references. Identity asks for the same type and the same value, and
for arrays, objects and resources for the same one. Loose equality also holds between scalars of
different types if they are the same number, or the same text where neither is a number. The order
is partial: distinct objects are unordered, and so is a NaN.
-/

namespace ObjectModel

def Val.identical : Val → Val → Bool
  | float a, float b => a.numEq b
  | str a, str b => a.bytes == b.bytes
  | a, b => a == b

/-- Whether a value is a number, as opposed to a string that denotes one. -/
def Val.isNumber (v : Val) : Bool := v.isInt || v.isFloat

/-- Whether a value is compared by its truth value: a truth value or nothing. -/
def Val.isTruthLike (v : Val) : Bool := v.isBool || v.isNull || v.isUndefined

/-- The order of two strings: numeric if both are numerals from end to end, bytewise otherwise. -/
def Bytes.compareNumerals? (s t : Bytes) : Option Ordering :=
  match Numeral.scanWhole? s, Numeral.scanWhole? t with
  | some a, some b => a.toDouble.compare? b.toDouble
  | _, _ => some (compare s t)

namespace Heap

def identical (h : Heap) (a b : Val) : Bool := (h.deref a).identical (h.deref b)

def equalAcrossKinds (h : Heap) (a b : Val) : Bool :=
  if a.isComposite || b.isComposite then false
  else if a.isNumber || b.isNumber then (h.toNumeric a).numEq (h.toNumeric b)
  else a.plainText defaultPrecision == b.plainText defaultPrecision

def looselyEqual (h : Heap) (a b : Val) : Bool :=
  match h.deref a, h.deref b with
  | .undefined, .undefined | .undefined, .null | .null, .undefined | .null, .null => true
  | .bool a, .bool b => a == b
  | .int i, .int j => i == j
  | .float d, .float e => d.numEq e
  | .str s, .str t => s.bytes == t.bytes
  | .array r, .array s => r == s
  | .object o, .object p => o == p
  | .resource r, .resource s => r == s
  | a, b => h.equalAcrossKinds a b

/-- The key of the first element that is loosely equal to a value. -/
def search? (h : Heap) (a : OrderedArray Val) (v : Val) : Option Key :=
  a.findKey? (h.looselyEqual · v)

/-- Whether two arrays have the same keys in the same order with identical elements. -/
def sameElements (h : Heap) (a b : OrderedArray Val) : Bool := a.agrees h.identical b

/-- The order of two values, if they are ordered. Arrays are ordered by their sizes. -/
def compare? (h : Heap) (a b : Val) : Option Ordering :=
  match h.deref a, h.deref b with
  | .str s, .str t => s.bytes.compareNumerals? t.bytes
  | .array r, .array s => some (compare (h.array r).size (h.array s).size)
  | .object o, .object p => if o = p then some .eq else none
  | a, b =>
    if a.isTruthLike || b.isTruthLike then some (compare (h.toBool a) (h.toBool b))
    else (h.toNumeric a).compare? (h.toNumeric b)

end Heap

end ObjectModel
