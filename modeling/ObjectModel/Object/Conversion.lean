import ObjectModel.Bytes.Utf8
import ObjectModel.Object.Access
import ObjectModel.Value.Conversion
/-!
# Objects as strings and arrays

An object is converted to a string as its class says. Converted to an array it yields its slots that
have a value; keys of slots that are not public carry the class that sees them between zero bytes.
Slots can meet in one key only if some name has a zero byte of its own.
-/

namespace ObjectModel

/-- The array key of a slot: a public name as it is, a protected one marked with `*`, a private one
with its class. -/
def Slot.arrayKey (s : Slot) (name : String) : Key :=
  let marked (owner : String) : Key :=
    .str (0 :: Bytes.ofString owner ++ 0 :: Bytes.ofString name)
  match s.visibility with
  | .isPublic => .ofBytes (Bytes.ofString name)
  | .isProtected => marked "*"
  | .isPrivate => marked s.declaringClass

def Object.toArray (o : Object) : OrderedArray Val :=
  o.slots.entries.foldl
    (fun a (name, s) => if s.isInitialized then a.insert (s.arrayKey name) s.value else a) ∅

namespace Heap

/-- The text of a value, where at most `n` objects are converted one inside another. -/
def toTextWithin (h : Heap) : (n : Nat) → (precision : Nat) → Val → Except Error Bytes
  | n, precision, v =>
    match h.deref v with
    | .object r =>
      let c := (h.object r).cls
      match c.stringCast?, n with
      | some (.constant s), _ => .ok s
      | some (.failure message), _ => .error (.castFailure message)
      | some (.property name), n + 1 => do
        toTextWithin h n defaultPrecision (← h.getProperty r name (some c))
      | some (.property _), 0 | none, _ => .error (.stringConversion c.name)
    | v => .ok (v.plainText precision)

def toText (h : Heap) (precision : Nat) (v : Val) : Except Error Bytes :=
  h.toTextWithin (h.objects.size + 1) precision v

/-- The text of a value for display: objects without a text are named by their class. -/
def display (h : Heap) (v : Val) : String :=
  match h.toText defaultPrecision v with
  | .ok s => s.toStringLossy
  | .error _ =>
    match h.deref v with
    | .object r => s!"Object({(h.object r).cls.name})"
    | _ => ""

/-- A value as an array: itself, the slots of an object, nothing, or a single element. -/
def toArray (h : Heap) (v : Val) : Heap × ArrayRef :=
  match h.deref v with
  | .array r => (h, r)
  | .undefined | .null | .reference _ => h.allocArray ∅
  | .object r => h.allocArray (h.object r).toArray
  | scalar => h.allocArray (.ofList [scalar])

end Heap

end ObjectModel
