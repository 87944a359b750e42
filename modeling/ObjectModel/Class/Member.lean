import ObjectModel.Class.Type
import ObjectModel.Class.Kind
import ObjectModel.Value.Basic
import ObjectModel.Visibility
/-!
# Members of a class

Properties, methods and constants as a class holds them. Every member records the class that
declared it, which is how a class tells its own members from those it took over. The code of a
method or hook is opaque here: a body is known by its number, and two bodies are the same only if
their numbers are.
-/

namespace ObjectModel

/-- The code of a method or hook, which is run elsewhere. -/
structure Body where
  /-- What tells this body from every other. -/
  id : Nat
  /-- What the body is called in reports. -/
  label : String
deriving DecidableEq, Repr, Inhabited

/-- Code that is run in place of reading or writing a property. -/
structure PropertyHooks where
  get? : Option Body
  set? : Option Body
deriving DecidableEq, Repr, Inhabited

structure PropertyDef where
  name : String
  /-- The initial value; undefined if a typed property starts without one. -/
  default : Val
  visibility : Visibility := .isPublic
  isStatic : Bool := false
  isReadonly : Bool := false
  type? : Option TypeHint := none
  hooks? : Option PropertyHooks := none
  /-- The class that declared the property. -/
  declaringClass : String := ""
deriving Repr, Inhabited

structure MethodDef where
  /-- The name as written; methods are found by its folded form. -/
  name : String
  visibility : Visibility := .isPublic
  isStatic : Bool := false
  isFinal : Bool := false
  isAbstract : Bool := false
  /-- The number of parameters. -/
  params : Nat := 0
  body? : Option Body := none
  /-- The class that declared the method. -/
  declaringClass : String := ""
deriving DecidableEq, Repr, Inhabited

namespace MethodDef

def key (m : MethodDef) : String := Name.foldCase m.name

/-- Whether the method runs when an object comes or goes. Such methods are not copied to subclasses,
which still find them through their parent. -/
def isLifecycle (m : MethodDef) : Bool :=
  Name.same m.name "__construct" || Name.same m.name "__destruct"

/-- Whether two methods share a body. Methods without one share nothing. -/
def sharesBody (m n : MethodDef) : Bool :=
  match m.body?, n.body? with
  | some a, some b => a.id == b.id
  | _, _ => false

end MethodDef

structure ConstantDef where
  name : String
  value : Val
  visibility : Visibility := .isPublic
  isFinal : Bool := false
  /-- The class that declared the constant. -/
  declaringClass : String := ""
deriving DecidableEq, Repr, Inhabited

/-- A rule that adapts the methods of used traits. -/
inductive TraitRule where
  /-- Of several traits with a method, `trait` provides it, instead of those in `insteadOf`. -/
  | precedence (trait method : String) (insteadOf : List String)
  /-- A method is added under a new name, or its visibility changed, or both. -/
  | alias (trait? : Option String) (method : String) (alias? : Option String)
      (visibility? : Option Visibility)
deriving DecidableEq, Repr

/-- What an object becomes when a string is asked for. -/
inductive StringCast where
  /-- A fixed string. -/
  | constant (s : Bytes)
  /-- The string of one of its properties. -/
  | property (name : String)
  /-- Nothing: the conversion fails with a message. -/
  | failure (message : String)
deriving DecidableEq, Repr

end ObjectModel
