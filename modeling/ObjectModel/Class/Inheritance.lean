import ObjectModel.Class.Lookup
import ObjectModel.Error
/-!
# Parents and interfaces

Linking a class to its parent copies down every member that the class does not declare itself,
except private ones and the methods that run when objects come and go. A member that the class does
declare is checked against the one it overrides: it must be as static, as readonly and at least as
visible, and the parent's must not be final. All checks come before the first copy, so a class that
cannot be linked stays as it was.

An interface hands down its constants when it is implemented; its methods are obligations, which
`ClassDef.checkInterface` compares with the methods that the class offers.
-/

namespace ObjectModel

universe u

/-- Checks a method of class `cls` against the inherited one that it overrides. -/
def MethodDef.checkOverride (cls : String) (child parent : MethodDef) : Except Error Unit :=
  if parent.visibility = .isPrivate then .ok ()
  else if parent.isFinal then .error (.finalMethod cls parent.declaringClass parent.name)
  else if child.isStatic ≠ parent.isStatic then
    .error (.methodStaticness cls parent.declaringClass parent.name child.isStatic)
  else if !child.visibility.atLeast parent.visibility then
    .error (.methodVisibility cls parent.declaringClass child.name parent.visibility)
  else .ok ()

def PropertyDef.checkOverride (cls : String) (child parent : PropertyDef) : Except Error Unit :=
  if parent.visibility = .isPrivate then .ok ()
  else if child.isStatic ≠ parent.isStatic then
    .error (.propertyStaticness cls parent.declaringClass parent.name parent.isStatic)
  else if child.isReadonly ≠ parent.isReadonly then
    .error (.propertyReadonlyness cls parent.declaringClass parent.name parent.isReadonly)
  else if !child.visibility.atLeast parent.visibility then
    .error (.propertyVisibility cls parent.declaringClass child.name parent.visibility)
  else .ok ()

/-- Checks a constant of class `cls` against the inherited one that it redefines. -/
def ConstantDef.checkRedefinition (cls : String) (child parent : ConstantDef) :
    Except Error Unit :=
  if parent.isFinal then .error (.finalConstant cls parent.declaringClass parent.name)
  else if !child.visibility.atLeast parent.visibility then
    .error (.constantVisibility cls parent.declaringClass child.name parent.visibility)
  else .ok ()

/-- Checks a constant of class `cls` against one of the parent, where private ones do not count. -/
def ConstantDef.checkOverride (cls : String) (child parent : ConstantDef) : Except Error Unit :=
  if parent.visibility = .isPrivate then .ok () else child.checkRedefinition cls parent

/-- Compares the members that two tables have in common, in the order of the inherited ones. -/
def checkOverrides {α : Type u} (check : α → α → Except Error Unit)
    (own inherited : OrderedMap String α) : Except Error Unit :=
  inherited.entries.forM fun (name, parent) =>
    match own.get? name with
    | some child => check child parent
    | none => .ok ()

/-- Adds the inheritable members that are not there yet. -/
def inheritMembers {α : Type u} (inheritable : α → Bool) (own inherited : OrderedMap String α) :
    OrderedMap String α :=
  inherited.entries.foldl
    (fun m (name, a) => if inheritable a then m.insertIfNew name a else m) own

/-- Whether subclasses get a copy of the method. -/
def MethodDef.isInheritable (m : MethodDef) : Bool :=
  m.visibility ≠ .isPrivate && !m.isLifecycle

def PropertyDef.isInheritable (p : PropertyDef) : Bool := p.visibility ≠ .isPrivate

def ConstantDef.isInheritable (k : ConstantDef) : Bool := k.visibility ≠ .isPrivate

namespace ClassDef

/-- What forbids one class to extend another, whatever their members. -/
def extendFault? (c parent : ClassDef) : Option ExtendFault :=
  if c.isEnum then some .enumChild
  else match parent.kind with
    | .interface => some .interfaceParent
    | .trait => some .traitParent
    | .enumeration => some .enumParent
    | .plain => if parent.isFinal then some .finalParent else none

def addInterface (is : List ClassDef) (i : ClassDef) : List ClassDef :=
  if is.any (·.isNamed i.name) then is else is ++ [i]

/-- The class with everything that its parent hands down. -/
def withParent (c parent : ClassDef) : ClassDef :=
  { c with
    methods := inheritMembers MethodDef.isInheritable c.methods parent.methods
    properties := inheritMembers PropertyDef.isInheritable c.properties parent.properties
    constants := inheritMembers ConstantDef.isInheritable c.constants parent.constants
    interfaces := parent.interfaces.foldl addInterface c.interfaces
    stringCast? := c.stringCast? <|> parent.stringCast?
    allowsDynamic := c.allowsDynamic || parent.allowsDynamic
    parentName? := some parent.name
    parent? := some parent }

def checkParent (c parent : ClassDef) : Except Error Unit := do
  if let some fault := c.extendFault? parent then
    throw (.cannotExtend c.name parent.name fault)
  if c.isReadonly ≠ parent.isReadonly then
    throw (.readonlyMismatch c.name parent.name c.isReadonly)
  checkOverrides (MethodDef.checkOverride c.name) c.methods parent.methods
  checkOverrides (PropertyDef.checkOverride c.name) c.properties parent.properties
  checkOverrides (ConstantDef.checkOverride c.name) c.constants parent.constants

def inherit (c parent : ClassDef) : Except Error ClassDef := do
  c.checkParent parent
  return c.withParent parent

def checkInterfaceConstants (c : ClassDef) (ks : List ConstantDef) : Except Error Unit :=
  ks.forM fun k =>
    match c.constants.get? k.name with
    | some own =>
      if own.declaringClass = k.declaringClass then .ok () else own.checkRedefinition c.name k
    | none => .ok ()

/-- Links a class to an interface, whose methods are not looked at here. -/
def implement (c i : ClassDef) : Except Error ClassDef := do
  if i.kind ≠ .interface then throw (.notAnInterface c.name i.name)
  c.checkInterfaceConstants i.inheritedConstants
  return { c with
    constants := i.inheritedConstants.foldl (fun m k => m.insertIfNew k.name k) c.constants
    interfaces := addInterface c.interfaces i }

/-- Whether the class offers a method that an interface asks for: a public one with the same number
of parameters. -/
def satisfies (c : ClassDef) (m : MethodDef) : Bool :=
  (c.findMethod? m.name).any fun own => own.visibility = .isPublic && own.params == m.params

def checkInterface (c i : ClassDef) : Except Error Unit :=
  i.requiredMethods.forM fun (owner, m) =>
    if c.satisfies m then .ok () else .error (.missingInterfaceMethod c.name owner.name m.name)

/-- Whether every method of the class needs a body. -/
def isConcrete (c : ClassDef) : Bool :=
  match c.kind with
  | .plain => !c.isAbstract
  | .enumeration => true
  | .interface | .trait => false

/-- Checks that a class whose methods need bodies has no abstract one. -/
def checkAbstract (c : ClassDef) : Except Error Unit :=
  match c.methods.values.find? (·.isAbstract) with
  | some m =>
    if c.isConcrete then .error (.abstractMethod c.name m.declaringClass m.name) else .ok ()
  | none => .ok ()

end ClassDef

end ObjectModel
