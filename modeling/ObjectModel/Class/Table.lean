import ObjectModel.Class.Composition
import ObjectModel.Class.Enum
import ObjectModel.Class.Static
/-!
# The class table

Classes enter the table one by one. Declaring a class links it to classes that are there already: to
its parent, then to its traits, then to its interfaces, and then come the checks that need all
members. A class that fails any step is not entered. Names are looked up without regard to case or
leading backslashes.
-/

namespace ObjectModel

structure ClassTable where
  /-- The classes by key. -/
  classes : OrderedMap String ClassDef := ∅
  /-- Tells the table from others that give out storage. -/
  generation : Nat := 0
  /-- Whether objects may gain properties whose class does not say so. -/
  allowsDynamic : Bool := true
deriving Inhabited

namespace ClassTable

def get? (t : ClassTable) (name : String) : Option ClassDef := t.classes.get? (Name.classKey name)

def contains (t : ClassTable) (name : String) : Bool := (t.get? name).isSome

def size (t : ClassTable) : Nat := t.classes.size

/-- The names of the classes in alphabetical order. -/
def names (t : ClassTable) : List String := (t.classes.values.map (·.name)).mergeSort

def lookup (t : ClassTable) (complaint : String → Error) (name : String) : Except Error ClassDef :=
  match t.get? name with
  | some c => .ok c
  | none => .error (complaint name)

/-- The class that a name stands for in code. Reserved names need a class around the code. -/
def resolve (t : ClassTable) (name : String) (lexical? called? : Option ClassDef) :
    Except Error ClassDef :=
  match ClassReference.ofName? name, lexical? with
  | some r, some lexical => r.resolve lexical (called?.getD lexical)
  | some r, none => .error (.noClassScope r.keyword)
  | none, _ => t.lookup (fun name => .undefinedClass (Name.unqualified name)) name

/-- Checks that a readonly property of a class is typed and neither static nor preset. -/
def checkReadonly (c : ClassDef) (p : PropertyDef) : Except Error Unit :=
  if p.declaringClass ≠ c.name then .ok ()
  else if c.isReadonly && p.isStatic then .error (.readonlyClassStatic c.name)
  else if !(c.isReadonly || p.isReadonly) then .ok ()
  else if p.isStatic then .error (.readonlyStatic c.name p.name)
  else if p.type?.isNone then .error (.readonlyUntyped c.name p.name)
  else if !p.default.isUndefined then .error (.readonlyDefault c.name p.name)
  else .ok ()

/-- Makes the properties that a readonly class declares readonly. -/
def markReadonly (c : ClassDef) : ClassDef :=
  { c with
    properties := c.properties.map fun p =>
      { p with isReadonly := p.isReadonly || (c.isReadonly && p.declaringClass == c.name) } }

/-- Links a class to its parent, if it names one. -/
def linkParent (t : ClassTable) (c : ClassDef) : Except Error ClassDef :=
  match c.parentName? with
  | some name => do c.inherit (← t.lookup .undefinedClass name)
  | none => .ok c

def linkTraits (t : ClassTable) (h : Heap) (c : ClassDef) : Except Error ClassDef :=
  if c.traitNames.isEmpty then .ok c
  else do c.useTraits h (← c.traitNames.mapM (t.lookup .undefinedTrait))

/-- The interfaces of every enumeration, and of those that are backed. -/
def enumInterfaces (t : ClassTable) (c : ClassDef) : List ClassDef :=
  if !c.isEnum then []
  else (t.get? "UnitEnum").toList ++
    (if c.backing = .none then [] else (t.get? "BackedEnum").toList)

def linkInterfaces (t : ClassTable) (c : ClassDef) : Except Error ClassDef := do
  let named ← c.interfaceNames.mapM (t.lookup .undefinedInterface)
  (named ++ t.enumInterfaces c).foldlM ClassDef.implement c

def checkLinked (h : Heap) (c : ClassDef) : Except Error Unit := do
  if c.isInstantiable || c.isEnum then c.interfaces.forM c.checkInterface
  if c.isEnum then c.checkEnum h
  c.checkAbstract

/-- Links a class to the classes of the table. -/
def link (t : ClassTable) (h : Heap) (c : ClassDef) : Except Error ClassDef := do
  if t.contains c.name then throw (.nameInUse c.kind c.name)
  c.properties.values.forM (checkReadonly c)
  let c ← t.linkParent (markReadonly c)
  let c ← t.linkTraits h c
  let c ← t.linkInterfaces c
  checkLinked h c
  return c

def register (t : ClassTable) (h : Heap) (c : ClassDef) : ClassTable × Heap × ClassDef :=
  let key := Name.classKey c.name
  let c := { c with
    allowsDynamic := c.allowsDynamic || (t.allowsDynamic && !c.isReadonly && !c.isEnum)
    storage? := some { generation := t.generation, key } }
  ({ t with classes := t.classes.insert key c }, h.initializeStatics c, c)

def declare (t : ClassTable) (h : Heap) (c : ClassDef) :
    Except Error (ClassTable × Heap × ClassDef) := do
  return t.register h (← t.link h c)

/-- The classes that every table starts with. -/
def builtins : List ClassDef :=
  [{ name := "stdClass", allowsDynamic := true },
   { name := "Traversable", kind := .interface },
   { name := "Stringable", kind := .interface },
   { name := "UnitEnum", kind := .interface },
   { name := "BackedEnum", kind := .interface, interfaceNames := ["UnitEnum"] }]

/-- A table with the built-in classes only. -/
def initial (generation : Nat) (allowsDynamic : Bool) (h : Heap) : ClassTable × Heap :=
  builtins.foldl
    (fun (t, h) c =>
      match t.declare h c with
      | .ok (t, h, _) => (t, h)
      | .error _ => (t, h))
    ({ generation, allowsDynamic }, h)

end ClassTable

end ObjectModel
