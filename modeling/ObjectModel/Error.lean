import ObjectModel.Visibility
import ObjectModel.Class.Kind
/-!
# Errors

One constructor per cause. The wording is in `Error.message` alone, and `Error.isLinkError` tells
the faults of a declaration, which stop a program before it runs, from those of a single access.
-/

namespace ObjectModel

/-- Why one class may not extend another. -/
inductive ExtendFault where
  | finalParent
  | interfaceParent
  | traitParent
  | enumParent
  | enumChild
deriving DecidableEq, Repr

/-- What is wrong with a rule that adapts used traits. -/
inductive RuleFault where
  /-- The rule names a trait that is not used. -/
  | traitNotUsed (trait cls : String)
  /-- A precedence rule names a method that its trait lacks. -/
  | precedenceWithoutMethod (trait method : String)
  /-- A precedence rule excludes the trait that it prefers. -/
  | excludesItself (trait method : String)
  /-- An alias does not say which of several traits it takes its method from. -/
  | ambiguousAlias (method : String)
  /-- An alias names a method that its trait, or every trait, lacks. -/
  | aliasWithoutMethod (trait? : Option String) (method : String)
deriving DecidableEq, Repr

/-- What is wrong with the declaration of an enumeration. -/
inductive EnumFault where
  | notAnEnum
  | hasProperty (property : String)
  | valueWithoutBacking (case : String)
  | missingValue (case : String)
  | wrongValueType (given backing : String)
  | duplicateValue (first second : String)
deriving DecidableEq, Repr

/-- The failures of declarations, member accesses and conversions. -/
inductive Error where
  -- extending a class
  | cannotExtend (cls parent : String) (why : ExtendFault)
  | readonlyMismatch (cls parent : String) (childReadonly : Bool)
  | finalMethod (cls parent method : String)
  | methodStaticness (cls parent method : String) (childStatic : Bool)
  | methodVisibility (cls parent method : String) (required : Visibility)
  | propertyStaticness (cls parent property : String) (parentStatic : Bool)
  | propertyReadonlyness (cls parent property : String) (parentReadonly : Bool)
  | propertyVisibility (cls parent property : String) (required : Visibility)
  | finalConstant (cls parent constant : String)
  | constantVisibility (cls parent constant : String) (required : Visibility)
  -- interfaces, traits and enumerations
  | notAnInterface (cls name : String)
  | missingInterfaceMethod (cls interface method : String)
  | notATrait (cls name : String)
  | traitMethodConflict (cls method first second : String)
  | traitPropertyConflict (cls property first second : String)
  | traitRule (cls : String) (fault : RuleFault)
  | invalidEnum (name : String) (fault : EnumFault)
  | backingType (given : String)
  | enumNoMatch (name value : String)
  | enumNotBacked (name method : String)
  -- other rules of declarations
  | abstractMethod (cls owner method : String)
  | nameInUse (kind : ClassKind) (name : String)
  | readonlyClassStatic (cls : String)
  | readonlyStatic (cls property : String)
  | readonlyUntyped (cls property : String)
  | readonlyDefault (cls property : String)
  -- names without a meaning
  | undefinedClass (name : String)
  | undefinedTrait (name : String)
  | undefinedInterface (name : String)
  | undefinedMethod (cls method : String)
  | undefinedProperty (cls property : String)
  | undefinedConstant (cls constant : String)
  | undeclaredStatic (cls property : String)
  | noClassScope (reference : String)
  | noParentScope
  -- access
  | propertyAccess (cls property : String) (visibility : Visibility)
  | methodAccess (cls method : String) (visibility : Visibility) (scope? : Option String)
  | constantAccess (cls constant : String) (visibility : Visibility)
  | uninitializedProperty (cls property : String)
  | uninitializedStatic (cls property : String)
  | readonlyModification (cls property : String)
  | readonlyInitialization (cls property : String) (scope? : Option String)
  | readonlyUnset (cls property : String)
  | dynamicProperty (cls property : String)
  | propertyType (given cls property type : String)
  | cannotInstantiate (cls : String) (kind : ClassKind)
  -- conversions
  | illegalOffset (given : String)
  | stringConversion (cls : String)
  | castFailure (message : String)
  | emptySeparator
deriving DecidableEq, Repr

def RuleFault.message : RuleFault → String
  | traitNotUsed trait cls => s!"Required Trait {trait} wasn't added to {cls}"
  | precedenceWithoutMethod trait method =>
    s!"A precedence rule was defined for {trait}::{method} but this method does not exist"
  | excludesItself trait method =>
    s!"Inconsistent insteadof definition. The method {method} is to be used from {trait}, " ++
      s!"but {trait} is also on the exclude list"
  | ambiguousAlias method =>
    s!"An alias was defined for method {method}(), which exists in both traits"
  | aliasWithoutMethod trait? method =>
    let trait := trait?.getD "<trait>"
    s!"An alias was defined for {trait}::{method} but this method does not exist"

def EnumFault.message : EnumFault → String
  | notAnEnum => "not an enum"
  | hasProperty property => s!"enums may not include properties (${property})"
  | valueWithoutBacking case => s!"case {case} of non-backed enum must not have a value"
  | missingValue case => s!"case {case} of backed enum must have a value"
  | wrongValueType given backing =>
    s!"enum case type {given} does not match enum backing type {backing}"
  | duplicateValue first second => s!"duplicate value in enum for cases {first} and {second}"

namespace Error

/-- The scope from which an access was tried. -/
private def scopeText : Option String → String
  | some scope => s!"scope {scope}"
  | none => "global scope"

def message : Error → String
  | cannotExtend cls parent .finalParent => s!"Class {cls} cannot extend final class {parent}"
  | cannotExtend cls parent .interfaceParent => s!"Class {cls} cannot extend interface {parent}"
  | cannotExtend cls parent .traitParent => s!"Class {cls} cannot extend trait {parent}"
  | cannotExtend cls parent .enumParent => s!"Class {cls} cannot extend enum {parent}"
  | cannotExtend cls parent .enumChild => s!"Enum {cls} cannot extend class {parent}"
  | readonlyMismatch cls parent true =>
    s!"Readonly class {cls} cannot extend non-readonly class {parent}"
  | readonlyMismatch cls parent false =>
    s!"Non-readonly class {cls} cannot extend readonly class {parent}"
  | finalMethod cls parent method =>
    s!"Cannot override final method {parent}::{method}() in class {cls}"
  | methodStaticness cls parent method true =>
    s!"Cannot make non static method {parent}::{method}() static in class {cls}"
  | methodStaticness cls parent method false =>
    s!"Cannot make static method {parent}::{method}() non static in class {cls}"
  | methodVisibility cls parent method required =>
    s!"Access level to {cls}::{method}() must be {required.keyword} " ++
      s!"(as in class {parent}){required.orWeaker}"
  | propertyStaticness cls parent property true =>
    s!"Cannot redeclare static {parent}::${property} as non static {cls}::${property}"
  | propertyStaticness cls parent property false =>
    s!"Cannot redeclare non static {parent}::${property} as static {cls}::${property}"
  | propertyReadonlyness cls parent property true =>
    s!"Cannot redeclare readonly property {parent}::${property} as non-readonly {cls}::${property}"
  | propertyReadonlyness cls parent property false =>
    s!"Cannot redeclare non-readonly property {parent}::${property} as readonly {cls}::${property}"
  | propertyVisibility cls parent property required =>
    s!"Access level to {cls}::${property} must be {required.keyword} " ++
      s!"(as in class {parent}){required.orWeaker}"
  | finalConstant cls parent constant =>
    s!"{cls}::{constant} cannot override final constant {parent}::{constant}"
  | constantVisibility cls parent constant required =>
    s!"Access level to {cls}::{constant} must be {required.keyword} " ++
      s!"(as in class {parent}){required.orWeaker}"
  | notAnInterface cls name => s!"{cls} cannot implement {name} - it is not an interface"
  | missingInterfaceMethod cls interface method =>
    s!"Class {cls} must implement interface method {interface}::{method}()"
  | notATrait cls name => s!"{cls} cannot use {name} - it is not a trait"
  | traitMethodConflict cls method first second =>
    s!"Trait method {second}::{method} has not been applied as {cls}::{method}, " ++
      s!"because of collision with {first}::{method}"
  | traitPropertyConflict cls property first second =>
    s!"{first} and {second} define the same property (${property}) in the composition of {cls}. " ++
      "However, the definition differs and is considered incompatible"
  | traitRule cls fault => s!"{fault.message} (in composition of {cls})"
  | invalidEnum name fault => s!"Enum {name}: {fault.message}"
  | backingType given => s!"Enum backing type must be int or string, {given} given"
  | enumNoMatch name value => s!"{value} is not a valid backing value for enum {name}"
  | enumNotBacked name method => s!"Call to undefined method {name}::{method}()"
  | abstractMethod cls owner method =>
    s!"Class {cls} contains abstract method ({owner}::{method}) " ++
      "and must therefore be declared abstract or implement the remaining methods"
  | nameInUse kind name =>
    s!"Cannot declare {kind.keyword} {name}, because the name is already in use"
  | readonlyClassStatic cls => s!"Readonly class {cls} cannot declare static properties"
  | readonlyStatic cls property => s!"Static property {cls}::${property} cannot be readonly"
  | readonlyUntyped cls property => s!"Readonly property {cls}::${property} must have type"
  | readonlyDefault cls property =>
    s!"Readonly property {cls}::${property} cannot have default value"
  | undefinedClass name => s!"Class \"{name}\" not found"
  | undefinedTrait name => s!"Trait \"{name}\" not found"
  | undefinedInterface name => s!"Interface \"{name}\" not found"
  | undefinedMethod cls method => s!"Call to undefined method {cls}::{method}()"
  | undefinedProperty cls property => s!"Undefined property: {cls}::${property}"
  | undefinedConstant cls constant => s!"Undefined constant {cls}::{constant}"
  | undeclaredStatic cls property => s!"Access to undeclared static property {cls}::${property}"
  | noClassScope reference => s!"Cannot use \"{reference}\" when no class scope is active"
  | noParentScope => "Cannot use \"parent\" when current class scope has no parent"
  | propertyAccess cls property visibility =>
    s!"Cannot access {visibility.keyword} property {cls}::${property}"
  | methodAccess cls method visibility scope? =>
    s!"Call to {visibility.keyword} method {cls}::{method}() from {scopeText scope?}"
  | constantAccess cls constant visibility =>
    s!"Cannot access {visibility.keyword} constant {cls}::{constant}"
  | uninitializedProperty cls property =>
    s!"Typed property {cls}::${property} must not be accessed before initialization"
  | uninitializedStatic cls property =>
    s!"Typed static property {cls}::${property} must not be accessed before initialization"
  | readonlyModification cls property => s!"Cannot modify readonly property {cls}::${property}"
  | readonlyInitialization cls property scope? =>
    s!"Cannot initialize readonly property {cls}::${property} from {scopeText scope?}"
  | readonlyUnset cls property => s!"Cannot unset readonly property {cls}::${property}"
  | dynamicProperty cls property => s!"Cannot create dynamic property {cls}::${property}"
  | propertyType given cls property type =>
    s!"Cannot assign {given} to property {cls}::${property} of type {type}"
  | cannotInstantiate cls .plain => s!"Cannot instantiate abstract class {cls}"
  | cannotInstantiate cls kind => s!"Cannot instantiate {kind.keyword} {cls}"
  | illegalOffset given => s!"Illegal offset type: {given}"
  | stringConversion cls => s!"Object of class {cls} could not be converted to string"
  | castFailure message => message
  | emptySeparator => "explode(): Argument #1 ($separator) cannot be empty"

def isLinkError : Error → Bool
  | cannotExtend .. | finalMethod .. | methodVisibility .. | propertyVisibility ..
  | finalConstant .. | methodStaticness .. | missingInterfaceMethod .. | traitMethodConflict ..
  | traitPropertyConflict .. | traitRule .. | invalidEnum .. | abstractMethod .. => true
  | _ => false

end Error

end ObjectModel
