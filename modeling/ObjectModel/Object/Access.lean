import ObjectModel.Class.Access
import ObjectModel.Class.Typing
/-!
# Creating objects and accessing their properties

A new object has a slot for every instance property of its class, in slot order, with a deep copy of
the default in it.

Every access is made from a scope. A declared slot must be visible from it; a readonly slot takes
one value, and only from the class that declared it. Writing a name without a slot adds a dynamic
property if the class allows that. An access that fails leaves the object as it was.

Writing to a slot that holds a reference writes through it.
-/

namespace ObjectModel

namespace Slot

def isVisibleFrom (s : Slot) (scope? : Option ClassDef) : Bool :=
  ObjectModel.isVisibleFrom s.declaringClass s.visibility scope?

/-- The complaint about a slot of an object of class `cls` that is not visible. A private slot is
reported under the class that declared it. -/
def hiddenError (s : Slot) (cls name : String) : Error :=
  .propertyAccess (if s.visibility = .isPrivate then s.declaringClass else cls) name s.visibility

/-- Whether a readonly slot may take its value now, from a scope. -/
def checkReadonly (s : Slot) (name : String) (scope? : Option ClassDef) : Except Error Unit :=
  if !s.isReadonly then .ok ()
  else if s.isInitialized then .error (.readonlyModification s.declaringClass name)
  else if scope?.any (·.isNamed s.declaringClass) then .ok ()
  else .error (.readonlyInitialization s.declaringClass name (scope?.map (·.name)))

end Slot

namespace Object

/-- The slot of a property that is seen from a scope, if the property exists. -/
def visibleSlot? (o : Object) (name : String) (scope? : Option ClassDef) :
    Except Error (Option Slot) :=
  match o.slots.get? name with
  | none => .ok none
  | some s =>
    if s.isVisibleFrom scope? then .ok (some s) else .error (s.hiddenError o.cls.name name)

def allowsDynamic (o : Object) : Bool :=
  o.cls.allowsDynamic && !o.cls.isReadonly && !o.cls.isEnum

/-- Whether a property is there, has a value and is seen from a scope. -/
def hasProperty (o : Object) (name : String) (scope? : Option ClassDef) : Bool :=
  (o.slots.get? name).any fun s => s.isInitialized && s.isVisibleFrom scope?

end Object

namespace Heap

/-- The slots of a new object of a class. Each default is copied on its own. -/
def initialSlots (h : Heap) (c : ClassDef) : Heap × OrderedMap String Slot :=
  c.instanceProperties.mapAccum
    (fun h p =>
      let (h, v) := h.deepCopy p.default
      (h, .ofProperty p v))
    h

def instantiate (h : Heap) (c : ClassDef) : Except Error (Heap × ObjectRef) :=
  if c.isInstantiable then
    let (h, slots) := h.initialSlots c
    .ok (h.allocObject ⟨c, slots⟩)
  else .error (.cannotInstantiate c.name c.kind)

def getProperty (h : Heap) (r : ObjectRef) (name : String) (scope? : Option ClassDef) :
    Except Error Val := do
  let o := h.object r
  match ← o.visibleSlot? name scope? with
  | none => .error (.undefinedProperty o.cls.name name)
  | some s =>
    if s.isInitialized then .ok (h.deref s.value)
    else if s.type?.isSome then .error (.uninitializedProperty s.declaringClass name)
    else .error (.undefinedProperty o.cls.name name)

def createProperty (h : Heap) (r : ObjectRef) (name : String) (v : Val) : Except Error Heap :=
  let o := h.object r
  if o.allowsDynamic then
    .ok (h.setObject r { o with slots := o.slots.insert name (.dynamic o.cls.name (h.deref v)) })
  else .error (.dynamicProperty o.cls.name name)

/-- Writes a property of an object. An object that is assigned to one of its own properties is
accepted here even if the type names a class. A program that keeps the object to itself while it
writes cannot look up its class then, and panics. -/
def setProperty (h : Heap) (r : ObjectRef) (name : String) (v : Val) (scope? : Option ClassDef) :
    Except Error Heap := do
  let o := h.object r
  match ← o.visibleSlot? name scope? with
  | none => h.createProperty r name v
  | some s =>
    s.checkReadonly name scope?
    let v ← h.coerceIfTyped s.type? v s.declaringClass name
    let (h, v) := h.assign s.value v
    return h.setObject r { o with slots := o.slots.insert name { s with value := v } }

/-- Takes the value of a property away. A dynamic property disappears, a declared one is left
without a value, and one that does not exist needs nothing done. -/
def unsetProperty (h : Heap) (r : ObjectRef) (name : String) (scope? : Option ClassDef) :
    Except Error Heap := do
  let o := h.object r
  match ← o.visibleSlot? name scope? with
  | none => return h
  | some s =>
    if s.isReadonly then .error (.readonlyUnset s.declaringClass name)
    else
      let slots := if s.isDynamic then o.slots.erase name
        else o.slots.insert name { s with value := .undefined }
      return h.setObject r { o with slots }

def publicProperties (h : Heap) (o : Object) : List (String × Val) :=
  o.slots.entries.filterMap fun (name, s) =>
    if s.visibility = .isPublic && s.isInitialized then some (name, h.deref s.value) else none

end Heap

end ObjectModel
