import ObjectModel.Class.Lookup
import ObjectModel.Error
import ObjectModel.Heap.Basic
/-!
# Values of declared types

`Heap.conforms` says which values a declared type takes; an integer passes for a double. A value on
its way into a typed property is converted in one case only: an integer becomes a double where the
type is `float` or `?float`.
-/

namespace ObjectModel.Heap

/-- Whether a value is an instance of a class or interface. -/
def isInstance (h : Heap) (v : Val) (name : String) : Bool :=
  match v with
  | .object r => (h.object r).cls.instanceOf name
  | _ => false

mutual

/-- Whether a value that is no reference conforms to a type. -/
def conforms (h : Heap) (v : Val) : TypeHint → Bool
  | .int => v.isInt
  | .float => v.isFloat || v.isInt
  | .string => v.isStr
  | .bool => v.isBool
  | .array => v.isArray
  | .object => v.isObject
  | .iterable => v.isArray || h.isInstance v "Traversable"
  | .mixed => !v.isUndefined
  | .null => v.isNull
  | .cls name => h.isInstance v name
  | .nullable inner => v.isNull || h.conforms v inner
  | .union members => h.conformsToAny v members

def conformsToAny (h : Heap) (v : Val) : List TypeHint → Bool
  | [] => false
  | t :: ts => h.conforms v t || h.conformsToAny v ts

end

def accepts (h : Heap) (t : TypeHint) (v : Val) : Bool := h.conforms (h.deref v) t

/-- The value that is stored when `v` is assigned to a property of type `t` of a class. -/
def coerce (h : Heap) (t : TypeHint) (v : Val) (cls property : String) : Except Error Val :=
  if h.accepts t v then
    match h.deref v with
    | .int i => .ok (if t.widens then .float (.ofInt i.toInt) else v)
    | _ => .ok v
  else .error (.propertyType (h.deref v).typeName cls property t.text)

/-- The value that is stored when `v` is assigned to a property that may have a type. -/
def coerceIfTyped (h : Heap) (t? : Option TypeHint) (v : Val) (cls property : String) :
    Except Error Val :=
  match t? with
  | some t => h.coerce t v cls property
  | none => .ok v

end ObjectModel.Heap
