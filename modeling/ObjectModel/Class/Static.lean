import ObjectModel.Class.Access
import ObjectModel.Class.Typing
/-!
# Static properties

A static property is stored once for the class that declares it, and subclasses that do not
redeclare it share the storage. Reading and writing go to the nearest class on the chain of parents
that has the name in its storage.
-/

namespace ObjectModel

namespace ClassDef

/-- The class that stores a static property. -/
def staticOwner? (h : Heap) (c : ClassDef) (name : String) : Option ClassDef :=
  c.ancestors.find? fun a => (h.statics a).contains name

/-- The class that stores a static property and the definition there, if it is seen from a scope. -/
def staticDef (h : Heap) (c : ClassDef) (name : String) (scope? : Option ClassDef) :
    Except Error (ClassDef × PropertyDef) :=
  let found? : Option (ClassDef × PropertyDef) := do
    let owner ← c.staticOwner? h name
    let p ← (owner.properties.get? name).filter (·.isStatic)
    return (owner, p)
  match found? with
  | none => .error (.undeclaredStatic c.name name)
  | some (owner, p) =>
    if p.isVisibleFrom scope? then .ok (owner, p)
    else .error (.propertyAccess owner.name name p.visibility)

def getStatic (h : Heap) (c : ClassDef) (name : String) (scope? : Option ClassDef) :
    Except Error Val := do
  let (owner, _) ← c.staticDef h name scope?
  let v := ((h.statics owner).get? name).getD .undefined
  if v.isUndefined then .error (.uninitializedStatic owner.name name) else .ok v

end ClassDef

namespace Heap

/-- Replaces the stored static properties of a class. -/
def setStatics (h : Heap) (c : ClassDef) (values : OrderedMap String Val) : Heap :=
  match c.storage? with
  | some id => { h with storages := h.storages.insert id values }
  | none => h

def setStatic (h : Heap) (c : ClassDef) (name : String) (v : Val) (scope? : Option ClassDef) :
    Except Error Heap := do
  let (owner, p) ← c.staticDef h name scope?
  let v ← h.coerceIfTyped p.type? v owner.name name
  let old := ((h.statics owner).get? name).getD .undefined
  let (h, v) := h.assign old v
  return h.setStatics owner ((h.statics owner).insert name v)

/-- Puts copies of the defaults of the static properties that a class declares or composed itself
into its storage. -/
def initializeStatics (h : Heap) (c : ClassDef) : Heap :=
  let own := c.properties.filter fun _ p => p.isStatic && p.declaringClass == c.name
  let (h, values) := own.mapAccum (fun h p => h.deepCopy p.default) h
  h.setStatics c values

end Heap

end ObjectModel
