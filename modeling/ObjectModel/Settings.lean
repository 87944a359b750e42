import ObjectModel.Json.Reader
/-!
# Settings

The settings of a session, read from a JSON document. An object sets what its members name and
leaves the rest; members of other names are passed over. An array lists the settings in their order
and may stop early.
-/

namespace ObjectModel

structure Settings where
  /-- The number of significant digits of a double in a string. -/
  precision : Nat := 14
  /-- The number of significant digits of a double in JSON; a negative number asks for the fewest
  that read back. -/
  serializePrecision : Int := -1
  /-- How deep JSON may be nested unless a call says otherwise. -/
  maxJsonDepth : Nat := 512
  /-- Whether objects may gain properties whose class does not say so. -/
  allowDynamicProperties : Bool := true
deriving DecidableEq, Repr, Inhabited

namespace Settings

def unsigned? : Json → Option Nat
  | .int i => if 0 ≤ i ∧ i < 0x10000000000000000 then some i.toNat else none
  | _ => none

def signed? : Json → Option Int
  | .int i => if -0x80000000 ≤ i ∧ i < 0x80000000 then some i else none
  | _ => none

def bool? : Json → Option Bool
  | .bool b => some b
  | _ => none

/-- The settings in the order in which an array lists them, each with its name and the way in which
it is set. -/
def fields : List (String × (Settings → Json → Option Settings)) :=
  [("precision", fun s v => return { s with precision := ← unsigned? v }),
   ("serialize_precision", fun s v => return { s with serializePrecision := ← signed? v }),
   ("max_json_depth", fun s v => return { s with maxJsonDepth := ← unsigned? v }),
   ("allow_dynamic_properties", fun s v => return { s with allowDynamicProperties := ← bool? v })]

def setMember (s : Settings) (m : List Char × Json) : Option Settings :=
  match fields.lookup (String.ofList m.1) with
  | some set => set s m.2
  | none => some s

/-- Whether no setting is named twice. -/
def namesOnce (members : List (List Char × Json)) : Bool :=
  fields.all fun (name, _) => members.countP (·.1 == name.toList) ≤ 1

def setInOrder (s : Settings) : List (String × (Settings → Json → Option Settings)) → List Json →
    Option Settings
  | _, [] => some s
  | [], _ :: _ => none
  | (_, set) :: fs, v :: vs => do setInOrder (← set s v) fs vs

def ofJson? : Json → Option Settings
  | .object members => if namesOnce members then members.foldlM setMember {} else none
  | .array items => setInOrder {} fields items
  | _ => none

def ofText? (text : List Char) : Option Settings :=
  match Json.ofTokens Json.tolerant (Json.tokens text) with
  | .ok v => ofJson? v
  | .error _ => none

end Settings

end ObjectModel
