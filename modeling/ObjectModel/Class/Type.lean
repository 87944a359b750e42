/-!
# Declared types

The types that a property may be declared with. A type is written as it is declared; a union of
unions is written like the union of all members.
-/

namespace ObjectModel

/-- The declared type of a property. -/
inductive TypeHint where
  | int
  | float
  | string
  | bool
  | array
  | object
  | iterable
  /-- Every value. -/
  | mixed
  | null
  /-- The instances of a class or interface. -/
  | cls (name : String)
  | nullable (inner : TypeHint)
  | union (members : List TypeHint)
deriving Repr, Inhabited

namespace TypeHint

mutual

def text : TypeHint → String
  | int => "int"
  | float => "float"
  | string => "string"
  | bool => "bool"
  | array => "array"
  | object => "object"
  | iterable => "iterable"
  | mixed => "mixed"
  | null => "null"
  | cls name => name
  | nullable inner => "?" ++ inner.text
  | union members => "|".intercalate (texts members)

def texts : List TypeHint → List String
  | [] => []
  | t :: ts => t.text :: texts ts

end

mutual

def same : TypeHint → TypeHint → Bool
  | int, int | float, float | string, string | bool, bool | array, array | object, object
  | iterable, iterable | mixed, mixed | null, null => true
  | cls a, cls b => a == b
  | nullable a, nullable b => same a b
  | union as, union bs => sameAll as bs
  | _, _ => false

def sameAll : List TypeHint → List TypeHint → Bool
  | [], [] => true
  | a :: as, b :: bs => same a b && sameAll as bs
  | _, _ => false

end

instance : BEq TypeHint := ⟨same⟩

/-- Whether an integer assigned to a property of this type becomes a double. -/
def widens : TypeHint → Bool
  | float | nullable float => true
  | _ => false

example : (union [int, nullable float, cls "Money"]).text = "int|?float|Money" := by decide

end TypeHint

end ObjectModel
