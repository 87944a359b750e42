import ObjectModel.Class.Basic
/-!
# Objects

An object is an instance of a class: the class itself and an ordered table of property slots. The
declared slots come first and never go away; only dynamic properties are added and removed.
-/

namespace ObjectModel

/-- A property of an object: its value and what the declaration says about it. -/
structure Slot where
  value : Val
  visibility : Visibility
  isReadonly : Bool
  type? : Option TypeHint
  /-- The class that declared the property. -/
  declaringClass : String
  /-- Whether the property was added to the object and is not declared. -/
  isDynamic : Bool
deriving Inhabited

namespace Slot

/-- The slot of a declared property with a given initial value. -/
def ofProperty (p : PropertyDef) (value : Val) : Slot where
  value := value
  visibility := p.visibility
  isReadonly := p.isReadonly
  type? := p.type?
  declaringClass := p.declaringClass
  isDynamic := false

/-- A public slot without a type that an object gains at run time. -/
def dynamic (cls : String) (value : Val) : Slot where
  value := value
  visibility := .isPublic
  isReadonly := false
  type? := none
  declaringClass := cls
  isDynamic := true

def isInitialized (s : Slot) : Bool := !s.value.isUndefined

end Slot

structure Object where
  cls : ClassDef
  /-- The properties by name. -/
  slots : OrderedMap String Slot

namespace Object

instance : Inhabited Object := ⟨⟨default, ∅⟩⟩

/-- The hooks declared for a property on the object's class or a class above it. -/
def hooks? (o : Object) (name : String) : Option PropertyHooks :=
  (o.cls.ancestors.findSome? (·.properties.get? name)).bind (·.hooks?)

end Object

end ObjectModel
