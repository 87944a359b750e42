import ObjectModel.Class.Kind
import ObjectModel.Class.Member
import ObjectModel.OrderedMap
/-!
# Classes

A declaration holds what is written about one class, interface, trait or enumeration, and the member
tables that linking fills up. A class is a declaration with its links: the parent and the interfaces
as classes in their own right. Links go from a class to classes declared before it, so a class is a
finite tree and functions on it recurse along the links.

The values of static properties are not part of a class: they live in storage, which the class
names.
-/

namespace ObjectModel

structure StorageId where
  /-- Which of the successive class tables registered the class. -/
  generation : Nat
  /-- The key under which the class is registered there. -/
  key : String
deriving DecidableEq, Repr, Inhabited

structure Declaration where
  name : String
  kind : ClassKind := .plain
  isFinal : Bool := false
  isAbstract : Bool := false
  isReadonly : Bool := false
  /-- The parent as written, or its own name once linked. -/
  parentName? : Option String := none
  /-- The interfaces as written. -/
  interfaceNames : List String := []
  traitNames : List String := []
  traitRules : List TraitRule := []
  properties : OrderedMap String PropertyDef := ∅
  /-- Methods by folded name. -/
  methods : OrderedMap String MethodDef := ∅
  constants : OrderedMap String ConstantDef := ∅
  backing : Backing := .none
  /-- The cases of an enumeration with their values. -/
  cases : OrderedMap String (Option Val) := ∅
  /-- Whether objects may gain properties that are not declared. -/
  allowsDynamic : Bool := false
  stringCast? : Option StringCast := none
  /-- Where the static properties are stored, once the class is declared. -/
  storage? : Option StorageId := none
deriving Inhabited

/-- A class with its links. -/
structure ClassDef extends Declaration where
  /-- The linked parent. -/
  parent? : Option ClassDef := none
  /-- The linked interfaces, those of the parent included. -/
  interfaces : List ClassDef := []

namespace ClassDef

instance : Inhabited ClassDef := ⟨{ name := "" }⟩

/-- An enumeration without cases. Enumerations are final. -/
def enumeration (name : String) (backing : Backing) : ClassDef :=
  { name, kind := .enumeration, isFinal := true, backing }

/-- Adds a property that the class itself declares; an earlier one of the name gives way. -/
def addProperty (c : ClassDef) (p : PropertyDef) : ClassDef :=
  { c with properties := c.properties.insert p.name { p with declaringClass := c.name } }

def addMethod (c : ClassDef) (m : MethodDef) : ClassDef :=
  { c with methods := c.methods.insert m.key { m with declaringClass := c.name } }

def addConstant (c : ClassDef) (k : ConstantDef) : ClassDef :=
  { c with constants := c.constants.insert k.name { k with declaringClass := c.name } }

def addCase (c : ClassDef) (name : String) (value? : Option Val) : ClassDef :=
  { c with cases := c.cases.insert name value? }

/-- The class, its parent, its parent's parent and so on. -/
def ancestors : ClassDef → List ClassDef
  | .mk d (some p) is => .mk d (some p) is :: p.ancestors
  | .mk d none is => [.mk d none is]

theorem ancestors_eq (c : ClassDef) :
    c.ancestors = c :: (match c.parent? with | some p => p.ancestors | none => []) := by
  obtain ⟨d, p?, is⟩ := c
  cases p? <;> simp [ancestors]

theorem self_mem_ancestors (c : ClassDef) : c ∈ c.ancestors := by
  rw [ancestors_eq]
  exact List.mem_cons_self

/-- A search along the ancestors asks the class before the others. -/
theorem findSome?_ancestors {β : Type} (c : ClassDef) (f : ClassDef → Option β) :
    c.ancestors.findSome? f = (f c).or (c.ancestors.tail.findSome? f) := by
  rw [ancestors_eq, List.findSome?_cons]
  cases f c <;> rfl

def isNamed (c : ClassDef) (name : String) : Bool := Name.same c.name name

/-- Whether `new` makes an object of the class. -/
def isInstantiable (c : ClassDef) : Bool := c.kind == .plain && !c.isAbstract

def isEnum (c : ClassDef) : Bool := c.kind == .enumeration

/-- A method that the class declared or composed itself, not one copied from its parent. -/
def ownMethod? (c : ClassDef) (name : String) : Option MethodDef :=
  (c.methods.get? (Name.foldCase name)).filter (·.declaringClass == c.name)

def ownProperty? (c : ClassDef) (name : String) : Option PropertyDef :=
  (c.properties.get? name).filter (·.declaringClass == c.name)

/-- The instance properties that a class declared or composed itself, in order. -/
def ownInstanceProperties (c : ClassDef) : List PropertyDef :=
  c.properties.values.filter fun p => !p.isStatic && p.declaringClass == c.name

/-- The instance properties of an object in slot order: those of the remotest ancestor come first,
and a property that is declared again keeps its place. -/
def instanceProperties (c : ClassDef) : OrderedMap String PropertyDef :=
  .ofList <| c.ancestors.reverse.flatMap fun a => a.ownInstanceProperties.map fun p => (p.name, p)

end ClassDef

end ObjectModel
