import ObjectModel.Bytes.Basic
import ObjectModel.Double.Basic
/-!
# Values

A value is a scalar or a handle. Arrays, objects and reference cells live in a heap and are shared
by everyone who holds the handle; strings are immutable, and a buffer number tells whether two equal
strings are one and the same copy. Resources are known by their number.
-/

namespace ObjectModel

/-- A byte string together with the buffer that holds it. Copies of a value share the buffer. -/
structure Text where
  /-- The content. -/
  bytes : Bytes
  /-- The number of the buffer. -/
  buffer : Nat
deriving DecidableEq, Repr, Inhabited

structure ArrayRef where
  index : Nat
deriving DecidableEq, Repr, Inhabited

/-- A handle to an object. Objects are numbered in the order of their creation. -/
structure ObjectRef where
  index : Nat
deriving DecidableEq, Repr, Inhabited

/-- A handle to a reference cell, through which several variables share one value. -/
structure CellRef where
  index : Nat
deriving DecidableEq, Repr, Inhabited

structure ResourceId where
  number : Nat
deriving DecidableEq, Repr, Inhabited

inductive Val where
  /-- No value yet: a typed property before its first assignment. -/
  | undefined
  | null
  | bool (b : Bool)
  | int (i : Int64)
  | float (d : Double)
  | str (s : Text)
  | array (a : ArrayRef)
  | object (o : ObjectRef)
  | resource (r : ResourceId)
  | reference (c : CellRef)
deriving DecidableEq, Repr, Inhabited

namespace Val

/-- The name of the kind of a value. A reference is a kind of its own. -/
def kindName : Val → String
  | undefined => "Undefined"
  | null => "Null"
  | bool _ => "Bool"
  | int _ => "Int"
  | float _ => "Float"
  | str _ => "String"
  | array _ => "Array"
  | object _ => "Object"
  | resource _ => "Resource"
  | reference _ => "Reference"

def typeName : Val → String
  | undefined | null => "null"
  | bool _ => "bool"
  | int _ => "int"
  | float _ => "float"
  | str _ => "string"
  | array _ => "array"
  | object _ => "object"
  | resource _ => "resource"
  | reference _ => "reference"

def isUndefined : Val → Bool
  | undefined => true
  | _ => false

def isNull : Val → Bool
  | null => true
  | _ => false

def isBool : Val → Bool
  | bool _ => true
  | _ => false

def isInt : Val → Bool
  | int _ => true
  | _ => false

def isFloat : Val → Bool
  | float _ => true
  | _ => false

def isStr : Val → Bool
  | str _ => true
  | _ => false

def isArray : Val → Bool
  | array _ => true
  | _ => false

def isObject : Val → Bool
  | object _ => true
  | _ => false

def isResource : Val → Bool
  | resource _ => true
  | _ => false

def isReference : Val → Bool
  | reference _ => true
  | _ => false

/-- Whether the value is compared by identity: an array, an object or a resource. -/
def isComposite (v : Val) : Bool := v.isArray || v.isObject || v.isResource

end Val

end ObjectModel
