import ObjectModel.Class.Composition
/-!
# Linking in place

A class is linked as it stands: what its parent or an interface hands down is written into it piece
by piece. So linking is a sequence of steps, as a composition is. The checks come first, each member
on its own; then every piece is written. If a step fails, the class is left as far as the work went.

`ClassDef.inherit` and `ClassDef.implement` say what comes of it when all goes well.
-/

namespace ObjectModel

universe u

/-- Compares an inherited member with the one that a table has under its name. -/
def checkEntry {α : Type u} (check : α → α → Except Error Unit) (own : OrderedMap String α)
    (inherited : String × α) : Except Error Unit :=
  match own.get? inherited.1 with
  | some child => check child inherited.2
  | none => .ok ()

/-- Adds a member to a table if it is inheritable and its name is new. -/
def inheritEntry {α : Type u} (inheritable : α → Bool) (own : OrderedMap String α)
    (inherited : String × α) : OrderedMap String α :=
  if inheritable inherited.2 then own.insertIfNew inherited.1 inherited.2 else own

namespace ClassDef

/-- The step that checks the class and changes nothing. -/
def checking (check : ClassDef → Except Error Unit) : Step := fun c => do
  check c
  return c

/-- The step that changes the class and cannot fail. -/
def writing (write : ClassDef → ClassDef) : Step := fun c => .ok (write c)

/-- Checks whether a class may extend another, whatever their members. -/
def checkExtends (parent c : ClassDef) : Except Error Unit :=
  match c.extendFault? parent with
  | some fault => .error (.cannotExtend c.name parent.name fault)
  | none => .ok ()

/-- Checks whether a class and its parent are both readonly or neither is. -/
def checkReadonlyLike (parent c : ClassDef) : Except Error Unit :=
  if c.isReadonly ≠ parent.isReadonly then
    .error (.readonlyMismatch c.name parent.name c.isReadonly)
  else .ok ()

/-- The steps that check a class against its parent. -/
def parentChecks (parent : ClassDef) : List Step :=
  [checking (checkExtends parent), checking (checkReadonlyLike parent)] ++
  parent.methods.entries.map (fun e =>
    checking fun c => checkEntry (MethodDef.checkOverride c.name) c.methods e) ++
  parent.properties.entries.map (fun e =>
    checking fun c => checkEntry (PropertyDef.checkOverride c.name) c.properties e) ++
  parent.constants.entries.map (fun e =>
    checking fun c => checkEntry (ConstantDef.checkOverride c.name) c.constants e)

/-- The steps that write what a parent hands down. -/
def parentWrites (parent : ClassDef) : List Step :=
  parent.methods.entries.map (fun e => writing fun c =>
    { c with methods := inheritEntry MethodDef.isInheritable c.methods e }) ++
  parent.properties.entries.map (fun e => writing fun c =>
    { c with properties := inheritEntry PropertyDef.isInheritable c.properties e }) ++
  parent.constants.entries.map (fun e => writing fun c =>
    { c with constants := inheritEntry ConstantDef.isInheritable c.constants e }) ++
  parent.interfaces.map (fun i => writing fun c =>
    { c with interfaces := addInterface c.interfaces i }) ++
  [writing fun c => { c with stringCast? := c.stringCast? <|> parent.stringCast? },
   writing fun c => { c with allowsDynamic := c.allowsDynamic || parent.allowsDynamic },
   writing fun c => { c with parentName? := some parent.name },
   writing fun c => { c with parent? := some parent }]

/-- Links a class to its parent. The class is returned as far as the work went. -/
def inheritInPlace (c parent : ClassDef) : ClassDef × Except Error Unit :=
  c.takeSteps (parentChecks parent ++ parentWrites parent)

/-- Checks whether a class may implement another, whatever their constants. -/
def checkIsInterface (i c : ClassDef) : Except Error Unit :=
  if i.kind ≠ .interface then .error (.notAnInterface c.name i.name) else .ok ()

/-- Compares a constant of an interface with the one that the class has under its name, unless both
say that they are declared in the same class. -/
def checkInterfaceConstant (k : ConstantDef) (c : ClassDef) : Except Error Unit :=
  match c.constants.get? k.name with
  | some own =>
    if own.declaringClass = k.declaringClass then .ok () else own.checkRedefinition c.name k
  | none => .ok ()

def implementInPlace (c i : ClassDef) : ClassDef × Except Error Unit :=
  c.takeSteps <|
    [checking (checkIsInterface i)] ++
    i.inheritedConstants.map (fun k => checking (checkInterfaceConstant k)) ++
    i.inheritedConstants.map (fun k => writing fun c =>
      { c with constants := c.constants.insertIfNew k.name k }) ++
    [writing fun c => { c with interfaces := addInterface c.interfaces i }]

end ClassDef

end ObjectModel
