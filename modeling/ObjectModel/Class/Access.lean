import ObjectModel.Class.Lookup
import ObjectModel.Error
/-!
# Access to members

Every access has a scope: the class whose code makes it, or none for code outside any class. A
protected member is seen from its class and the classes below, a private one from its class alone.
The reserved names `self`, `static` and `parent` stand for classes that depend on the scope.
-/

namespace ObjectModel

/-- Whether a member of a class is seen from a scope. -/
def isVisibleFrom (declaringClass : String) (visibility : Visibility) (scope? : Option ClassDef) :
    Bool :=
  match visibility, scope? with
  | .isPublic, _ => true
  | .isProtected, some scope => scope.isSubclassOf declaringClass
  | .isPrivate, some scope => scope.isNamed declaringClass
  | _, none => false

def PropertyDef.isVisibleFrom (p : PropertyDef) (scope? : Option ClassDef) : Bool :=
  ObjectModel.isVisibleFrom p.declaringClass p.visibility scope?

def MethodDef.isVisibleFrom (m : MethodDef) (scope? : Option ClassDef) : Bool :=
  ObjectModel.isVisibleFrom m.declaringClass m.visibility scope?

def ConstantDef.isVisibleFrom (k : ConstantDef) (scope? : Option ClassDef) : Bool :=
  ObjectModel.isVisibleFrom k.declaringClass k.visibility scope?

/-- A reserved name for a class. -/
inductive ClassReference where
  /-- The class whose body contains the code. -/
  | lexical
  /-- The class that the running call was made on. -/
  | called
  /-- The parent of the class whose body contains the code. -/
  | parent
deriving DecidableEq, Repr

namespace ClassReference

def keyword : ClassReference → String
  | lexical => "self"
  | called => "static"
  | parent => "parent"

def ofName? (name : String) : Option ClassReference :=
  [lexical, called, parent].find? fun r => Name.same name r.keyword

/-- The class that a reserved name stands for. -/
def resolve (lexical called : ClassDef) : ClassReference → Except Error ClassDef
  | .lexical => .ok lexical
  | .called => .ok called
  | .parent =>
    match lexical.parent? with
    | some p => .ok p
    | none => .error .noParentScope

end ClassReference

namespace ClassDef

/-- The method that a call of `name` from a scope reaches. -/
def checkMethod (c : ClassDef) (name : String) (scope? : Option ClassDef) :
    Except Error MethodDef :=
  match c.findMethod? name with
  | none => .error (.undefinedMethod c.name name)
  | some m =>
    if m.isVisibleFrom scope? then .ok m
    else .error (.methodAccess c.name m.name m.visibility (scope?.map (·.name)))

/-- The value of a constant, read from a scope. -/
def getConstant (c : ClassDef) (name : String) (scope? : Option ClassDef) : Except Error Val :=
  match c.findConstant? name with
  | none => .error (.undefinedConstant c.name name)
  | some k =>
    if k.isVisibleFrom scope? then .ok k.value
    else .error (.constantAccess c.name name k.visibility)

end ClassDef

end ObjectModel
