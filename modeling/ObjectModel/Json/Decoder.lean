import ObjectModel.Class.Table
import ObjectModel.Interner
import ObjectModel.Json.Parser
import ObjectModel.Numeral
import ObjectModel.Object.Access
/-!
# JSON documents as values

Arrays become arrays. Objects become arrays as well, with interned keys, or objects of a given class
with a property for each member. A document that has no value may still have created objects and
interned names before that was found out, so the heap and the interner survive a failure.
-/

namespace ObjectModel.Json

/-- What decoding changes. -/
structure Workspace where
  heap : Heap
  interner : Interner

/-- A computation that may fail and changes the workspace all the same. -/
abbrev Decoding := EStateM JsonError Workspace

/-- The choices of a decoder. -/
structure Decoder where
  /-- The class that objects become instances of, if there is one. -/
  objectClass? : Option ClassDef
  /-- Objects become arrays. -/
  objectsAsArrays : Bool
  /-- Integers beyond the machine word become strings. -/
  bigIntsAsStrings : Bool

/-- A string value in a buffer of its own. -/
def newString (s : Bytes) : Decoding Val := do
  let (heap, t) := (← get).heap.allocText s
  modify ({ · with heap })
  return .str t

def newArray (a : OrderedArray Val) : Decoding Val := do
  let (heap, r) := (← get).heap.allocArray a
  modify ({ · with heap })
  return .array r

/-- The array key of the name of a member. Names that are no integers are interned. -/
def memberKey (name : List Char) : Decoding Key := do
  let s := Bytes.Utf8.encode name
  match Numeral.canonicalInt? s with
  | some i => return .int i
  | none =>
    let (interner, heap, _) := (← get).interner.intern (← get).heap s
    set ({ heap, interner } : Workspace)
    return .str s

/-- A new object of the class for decoded objects. -/
def newObject (d : Decoder) : Decoding ObjectRef := do
  let some c := d.objectClass? | throw .unsupportedType
  match (← get).heap.instantiate c with
  | .error _ => throw .unsupportedType
  | .ok (heap, r) =>
    modify ({ · with heap })
    return r

/-- Writes a member to a property. -/
def setMember (r : ObjectRef) (name : List Char) (v : Val) : Decoding Unit := do
  match (← get).heap.setProperty r (String.ofList name) v none with
  | .error _ => throw .invalidPropertyName
  | .ok heap => modify ({ · with heap })

namespace Decoder

mutual

/-- The value of a document. -/
def value (d : Decoder) : Json → Decoding Val
  | .null => return .null
  | .bool b => return .bool b
  | .int i =>
    match int64? i with
    | some i => return .int i
    | none =>
      if d.bigIntsAsStrings then newString (Bytes.Utf8.encode (decimalText i))
      else return .float (.ofInt i)
  | .float x => return .float x
  | .string s => newString (Bytes.Utf8.encode s)
  | .array items => do newArray (.ofList (← d.items items))
  | .object members => do
    if d.objectsAsArrays then newArray (← d.entries ∅ members)
    else
      let r ← newObject d
      d.properties r members
      return .object r

def items (d : Decoder) : List Json → Decoding (List Val)
  | [] => return []
  | v :: vs => do
    let v ← d.value v
    let vs ← d.items vs
    return v :: vs

def entries (d : Decoder) (a : OrderedArray Val) :
    List (List Char × Json) → Decoding (OrderedArray Val)
  | [] => return a
  | (name, v) :: ms => do
    let k ← memberKey name
    let v ← d.value v
    d.entries (a.insert k v) ms

/-- Adds members to an object. A name that starts with a zero character is refused. -/
def properties (d : Decoder) (r : ObjectRef) : List (List Char × Json) → Decoding Unit
  | [] => return ()
  | (name, v) :: ms => do
    if name.head? = some '\x00' then throw .invalidPropertyName
    let v ← d.value v
    setMember r name v
    d.properties r ms

end

end Decoder

end ObjectModel.Json
