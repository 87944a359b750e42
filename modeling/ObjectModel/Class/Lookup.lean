import ObjectModel.Class.Basic
/-!
# Looking up members and supertypes

Members are looked up on the class, then on its parent and so on; constants also on the interfaces
of the class. The supertypes of a class are its ancestors and every interface that one of them
implements, directly or because an interface extends another.
-/

namespace ObjectModel.ClassDef

mutual

/-- An interface and all interfaces that it extends, each before those it extends. -/
def closure : ClassDef → List ClassDef
  | .mk d p? is => .mk d p? is :: closures is

def closures : List ClassDef → List ClassDef
  | [] => []
  | c :: cs => c.closure ++ closures cs

end

/-- Every interface of the class and its ancestors, with repetitions. -/
def reachableInterfaces (c : ClassDef) : List ClassDef :=
  c.ancestors.flatMap fun a => closures a.interfaces

/-- Whether the class or one of its ancestors has a name. -/
def isSubclassOf (c : ClassDef) (name : String) : Bool := c.ancestors.any (·.isNamed name)

def implementsInterface (c : ClassDef) (name : String) : Bool :=
  c.reachableInterfaces.any (·.isNamed name)

/-- Whether the objects of the class belong to a class or interface of a given name. -/
def instanceOf (c : ClassDef) (name : String) : Bool :=
  c.isSubclassOf name || c.implementsInterface name

/-- The names of all interfaces of the class, each once. -/
def interfaceNamesClosure (c : ClassDef) : List String :=
  (c.reachableInterfaces.map (·.name)).eraseDupsBy Name.same

/-- The names of the ancestors, the parent first. -/
def parentChain (c : ClassDef) : List String := c.ancestors.tail.map (·.name)

/-- The method that a call of `name` reaches. -/
def findMethod? (c : ClassDef) (name : String) : Option MethodDef :=
  c.ancestors.findSome? (·.methods.get? (Name.foldCase name))

/-- The definition behind a property name. -/
def findProperty? (c : ClassDef) (name : String) : Option PropertyDef :=
  c.ancestors.findSome? (·.properties.get? name)

mutual

/-- The definition behind a constant name: the chain of parents comes before the interfaces. -/
def findConstant? (name : String) : ClassDef → Option ConstantDef
  | .mk d p? is =>
    match (ClassDef.mk d p? is).ancestors.findSome? (·.constants.get? name) with
    | some k => some k
    | none => findConstantIn? name is

def findConstantIn? (name : String) : List ClassDef → Option ConstantDef
  | [] => none
  | i :: is =>
    match findConstant? name i with
    | some k => some k
    | none => findConstantIn? name is

end

/-- The methods that an interface asks for, each with the interface that declares it. Of methods
with one key the first counts. -/
def requiredMethods (i : ClassDef) : List (ClassDef × MethodDef) :=
  (i.closure.flatMap fun j => j.methods.values.map fun m => (j, m)).eraseDupsBy
    fun a b => a.2.key == b.2.key

/-- The constants that an interface hands down. Of constants with one name the first counts. -/
def inheritedConstants (i : ClassDef) : List ConstantDef :=
  (i.closure.flatMap fun j => j.constants.values).eraseDupsBy fun a b => a.name == b.name

end ObjectModel.ClassDef
