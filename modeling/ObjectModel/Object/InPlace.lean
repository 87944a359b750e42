import ObjectModel.Class.Static
import ObjectModel.Object.Access
/-!
# Writing in place

The properties of objects and the static properties of classes are written where they stand. A write
is a program on the heap: it checks what it is asked to do and then changes the heap piece by piece,
and when it fails the heap is left as far as the work went.

`Heap.setProperty`, `Heap.unsetProperty` and `Heap.setStatic` say what comes of a write when all
goes well.
-/

namespace ObjectModel

namespace Heap

/-- A program on the heap, which may fail. -/
abbrev Program (α : Type) : Type := EStateM Error Heap α

/-- Runs a program. The heap is returned as the program leaves it, also when it fails. -/
def attempt {α : Type} (h : Heap) (p : Program α) : Heap × Except Error α :=
  match p.run h with
  | .ok a h => (h, .ok a)
  | .error e h => (h, .error e)

/-- Goes on with the result of a check, or fails with it. -/
def checked {α : Type} : Except Error α → Program α
  | .ok a => pure a
  | .error e => throw e

/-- Stores other slots in an object. -/
def putSlots (r : ObjectRef) (f : OrderedMap String Slot → OrderedMap String Slot) :
    Program Unit :=
  modify fun h => h.setObject r { h.object r with slots := f (h.object r).slots }

/-- Assigns to the slot of a property, if there is one, through a reference if it holds one. -/
def assignSlot (r : ObjectRef) (name : String) (v : Val) : Program Unit := do
  match ((← get).object r).slots.get? name with
  | none => return
  | some s =>
    let v ← modifyGet fun h => ((h.assign s.value v).2, (h.assign s.value v).1)
    putSlots r (·.insert name { s with value := v })

def createPropertyInPlace (r : ObjectRef) (name : String) (v : Val) : Program Unit := do
  let h ← get
  let o := h.object r
  if o.allowsDynamic then putSlots r (·.insert name (.dynamic o.cls.name (h.deref v)))
  else throw (.dynamicProperty o.cls.name name)

def setPropertyInPlace (r : ObjectRef) (name : String) (v : Val) (scope? : Option ClassDef) :
    Program Unit := do
  match ← checked (((← get).object r).visibleSlot? name scope?) with
  | none => createPropertyInPlace r name v
  | some s =>
    checked (s.checkReadonly name scope?)
    assignSlot r name (← checked ((← get).coerceIfTyped s.type? v s.declaringClass name))

def unsetPropertyInPlace (r : ObjectRef) (name : String) (scope? : Option ClassDef) :
    Program Unit := do
  match ← checked (((← get).object r).visibleSlot? name scope?) with
  | none => return
  | some s =>
    if s.isReadonly then throw (.readonlyUnset s.declaringClass name)
    else if s.isDynamic then putSlots r (·.erase name)
    else putSlots r (·.insert name { s with value := .undefined })

def putStatic (c : ClassDef) (name : String) (v : Val) : Program Unit :=
  modify fun h => h.setStatics c ((h.statics c).insert name v)

/-- Writes a static property of a class, through a reference if it holds one. -/
def setStaticInPlace (c : ClassDef) (name : String) (v : Val) (scope? : Option ClassDef) :
    Program Unit := do
  let (owner, p) ← checked (c.staticDef (← get) name scope?)
  let v ← checked ((← get).coerceIfTyped p.type? v owner.name name)
  match ((← get).statics owner).get? name with
  | none => putStatic owner name v
  | some old =>
    let v ← modifyGet fun h => ((h.assign old v).2, (h.assign old v).1)
    putStatic owner name v

end Heap

end ObjectModel
