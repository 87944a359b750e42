import ObjectModel.Class.Inheritance
import ObjectModel.Value.Comparison
/-!
# Composing traits

The members of used traits become members of the class itself. What the class declares wins over
what a trait provides. A method that several traits provide must be the same one, or all but one of
them must be excluded by a precedence rule; a property that several traits provide must be declared
alike. Aliases come last.

Composition is a sequence of steps. A step that fails changes nothing, and ends the work: what the
steps before it did stays done.
-/

namespace ObjectModel

namespace ClassDef

abbrev Step := ClassDef → Except Error ClassDef

/-- Takes steps in order until one fails. -/
def takeSteps (c : ClassDef) : List Step → ClassDef × Except Error Unit
  | [] => (c, .ok ())
  | step :: steps =>
    match step c with
    | .ok c => takeSteps c steps
    | .error e => (c, .error e)

theorem takeSteps_cons_ok {c d : ClassDef} {step : Step} {steps : List Step} (h : step c = .ok d) :
    c.takeSteps (step :: steps) = d.takeSteps steps := by
  simp [takeSteps, h]

theorem takeSteps_cons_error {c : ClassDef} {step : Step} {steps : List Step} {e : Error}
    (h : step c = .error e) : c.takeSteps (step :: steps) = (c, .error e) := by
  simp [takeSteps, h]

def usedTrait (c : ClassDef) (traits : List ClassDef) (name : String) : Except Error ClassDef :=
  match traits.find? (·.isNamed name) with
  | some t => .ok t
  | none => .error (.traitRule c.name (.traitNotUsed name c.name))

/-- The pairs of a trait and a method key that a rule excludes. -/
def excludedBy (c : ClassDef) (traits : List ClassDef) :
    TraitRule → Except Error (List (String × String))
  | .alias .. => .ok []
  | .precedence trait method insteadOf => do
    let winner ← c.usedTrait traits trait
    if !winner.methods.contains (Name.foldCase method) then
      throw (.traitRule c.name (.precedenceWithoutMethod winner.name method))
    insteadOf.mapM fun name => do
      let loser ← c.usedTrait traits name
      if loser.isNamed winner.name then
        throw (.traitRule c.name (.excludesItself winner.name method))
      return (Name.foldCase loser.name, Name.foldCase method)

def exclusions (c : ClassDef) (traits : List ClassDef) : Except Error (List (String × String)) :=
  return (← c.traitRules.mapM (c.excludedBy traits)).flatten

/-- The methods that traits provide, by key, without the excluded ones. -/
def methodProviders (traits : List ClassDef) (excluded : List (String × String)) :
    OrderedMap String (List (ClassDef × MethodDef)) :=
  .group <| traits.flatMap fun t =>
    (t.methods.entries.filter fun (key, _) => !excluded.contains (Name.foldCase t.name, key)).map
      fun (key, m) => (key, t, m)

def effectiveProviders (providers : List (ClassDef × MethodDef)) : List (ClassDef × MethodDef) :=
  let concrete := providers.filter fun (_, m) => !m.isAbstract
  if concrete.isEmpty then providers else concrete

/-- Takes over a method that traits provide under a key. -/
def composeMethod (key : String) (providers : List (ClassDef × MethodDef)) : Step := fun c =>
  if (c.ownMethod? key).isSome then .ok c
  else match effectiveProviders providers with
    | [] => .ok c
    | (first, chosen) :: others =>
      match others.find? fun (_, m) => !chosen.sharesBody m && !chosen.isAbstract with
      | some (second, _) =>
        .error (.traitMethodConflict c.name chosen.name first.name second.name)
      | none => do
        let m := { chosen with declaringClass := c.name }
        if let some inherited := c.parent?.bind (·.findMethod? key) then
          m.checkOverride c.name inherited
        return { c with methods := c.methods.insert key m }

def propertyProviders (traits : List ClassDef) :
    OrderedMap String (List (ClassDef × PropertyDef)) :=
  .group <| traits.flatMap fun t => t.properties.entries.map fun (name, p) => (name, t, p)

def compatibleProperties (h : Heap) (p q : PropertyDef) : Bool :=
  p.visibility = q.visibility && p.isStatic == q.isStatic && p.isReadonly == q.isReadonly &&
    p.type? == q.type? && h.identical p.default q.default

/-- Takes over a property that traits provide under a name. -/
def composeProperty (h : Heap) (name : String) (providers : List (ClassDef × PropertyDef)) :
    Step := fun c =>
  if (c.ownProperty? name).isSome then .ok c
  else match providers with
    | [] => .ok c
    | (first, chosen) :: others =>
      match others.find? fun (_, p) => !compatibleProperties h chosen p with
      | some (second, _) => .error (.traitPropertyConflict c.name name first.name second.name)
      | none =>
        let p := { chosen with declaringClass := c.name }
        .ok { c with properties := c.properties.insert name p }

/-- Takes over the constants of a trait that the class does not have. -/
def composeConstants (trait : ClassDef) : Step := fun c =>
  .ok { c with
    constants := trait.constants.entries.foldl
      (fun m (name, k) => m.insertIfNew name { k with declaringClass := c.name }) c.constants }

def aliasSource (c : ClassDef) (traits : List ClassDef) (trait? : Option String)
    (method : String) : Except Error MethodDef := do
  let candidates ← match trait? with
    | some name => pure [← c.usedTrait traits name]
    | none => pure traits
  match candidates.filterMap (·.methods.get? (Name.foldCase method)) with
  | [] => .error (.traitRule c.name (.aliasWithoutMethod trait? method))
  | [m] => .ok m
  | _ => .error (.traitRule c.name (.ambiguousAlias method))

/-- Adds `source` under another name, unless the class has a method of that name with a body of its
own. -/
def addAlias (source : MethodDef) (name : String) (visibility? : Option Visibility)
    (c : ClassDef) : ClassDef :=
  if (c.ownMethod? name).any fun own => own.body?.isSome && !own.sharesBody source then c
  else
    let m := { source with
      name
      declaringClass := c.name
      visibility := visibility?.getD source.visibility }
    { c with methods := c.methods.insert m.key m }

/-- Changes the visibility of a composed method, which has the body of its source or, like it,
none. -/
def changeVisibility (source : MethodDef) (method : String) (visibility : Visibility)
    (c : ClassDef) : ClassDef :=
  { c with
    methods := c.methods.modify (Name.foldCase method) fun m =>
      if m.sharesBody source || (m.body?.isNone && source.body?.isNone) then { m with visibility }
      else m }

def applyAlias (traits : List ClassDef) (rule : TraitRule) : Step := fun c =>
  match rule with
  | .precedence .. => .ok c
  | .alias trait? method alias? visibility? => do
    let source ← c.aliasSource traits trait? method
    match alias?, visibility? with
    | some name, _ => return c.addAlias source name visibility?
    | none, some visibility => return c.changeVisibility source method visibility
    | none, none => return c

/-- The steps of composing traits, of which some methods are excluded. -/
def compositionSteps (h : Heap) (c : ClassDef) (traits : List ClassDef)
    (excluded : List (String × String)) : List Step :=
  (methodProviders traits excluded).entries.map (fun (key, ps) => composeMethod key ps) ++
  (propertyProviders traits).entries.map (fun (name, ps) => composeProperty h name ps) ++
  traits.map composeConstants ++
  c.traitRules.map (applyAlias traits)

def checkTraits (c : ClassDef) (traits : List ClassDef) :
    Except Error (List (String × String)) :=
  match traits.find? (·.kind ≠ .trait) with
  | some t => .error (.notATrait c.name t.name)
  | none => c.exclusions traits

/-- Composes traits into a class. The class is returned as far as the work went. -/
def compose (h : Heap) (c : ClassDef) (traits : List ClassDef) : ClassDef × Except Error Unit :=
  match c.checkTraits traits with
  | .error e => (c, .error e)
  | .ok excluded => c.takeSteps (compositionSteps h c traits excluded)

/-- The class with all traits composed into it. -/
def useTraits (h : Heap) (c : ClassDef) (traits : List ClassDef) : Except Error ClassDef :=
  let (c, result) := compose h c traits
  result.map fun _ => c

end ClassDef

end ObjectModel
