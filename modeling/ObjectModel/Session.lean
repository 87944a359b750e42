import ObjectModel.Json.Decoder
import ObjectModel.Json.Encoder
import ObjectModel.Resources
/-!
# Sessions

A session is everything that one run owns: its settings, the declared classes, the interned strings,
the outcome of the last JSON call, the heap and the resources. Resetting a session forgets classes,
interned strings and the outcome; values that are still held keep what they refer to.
-/

namespace ObjectModel

structure Session where
  settings : Settings
  classes : ClassTable
  interner : Interner := {}
  /-- The error of the last JSON call, if it failed. -/
  jsonError? : Option JsonError := none
  heap : Heap := {}
  resources : Resources := {}
deriving Inhabited

namespace Session

def start (settings : Settings) : Session :=
  let (classes, heap) := ClassTable.initial 0 settings.allowDynamicProperties {}
  { settings, classes, heap }

/-- Forgets everything but the settings and what values refer to. -/
def reset (s : Session) : Session :=
  let (classes, heap) :=
    ClassTable.initial (s.classes.generation + 1) s.settings.allowDynamicProperties s.heap
  { s with classes, heap, interner := s.interner.clear, jsonError? := none }

def declare (s : Session) (c : ClassDef) : Except Error (Session × ClassDef) := do
  let (classes, heap, c) ← s.classes.declare s.heap c
  return ({ s with classes, heap }, c)

def instantiate (s : Session) (name : String) : Except Error (Session × ObjectRef) := do
  let c ← s.classes.lookup .undefinedClass name
  let (heap, r) ← s.heap.instantiate c
  return ({ s with heap }, r)

def toText (s : Session) (v : Val) : Except Error Bytes := s.heap.toText s.settings.precision v

def intern (s : Session) (content : Bytes) : Session × Text :=
  let (interner, heap, t) := s.interner.intern s.heap content
  ({ s with interner, heap }, t)

def internText (s : Session) (t : Text) : Session × Text :=
  let (interner, t) := s.interner.internText t
  ({ s with interner }, t)

/-- The session after a JSON call with a given outcome. -/
def withOutcome {α : Type} (s : Session) : Except JsonError α → Session
  | .ok _ => { s with jsonError? := none }
  | .error e => { s with jsonError? := some e }

def jsonDepth (s : Session) (depth? : Option Nat) : Nat := depth?.getD s.settings.maxJsonDepth

def jsonEncode (s : Session) (v : Val) (flags : Int64) (depth? : Option Nat) :
    Session × Except JsonError Bytes :=
  let result := Json.encode s.heap s.settings (.ofFlags flags) (s.jsonDepth depth?) v
  (s.withOutcome result, result.map Bytes.Utf8.encode)

def decoder (s : Session) (objectsAsArrays : Bool) (flags : Int64) : Json.Decoder where
  objectClass? := s.classes.get? "stdClass"
  objectsAsArrays := objectsAsArrays || flags &&& 1 != 0
  bigIntsAsStrings := flags &&& 2 != 0

def jsonDecode (s : Session) (p : Json.Parser) (text : Bytes) (objectsAsArrays : Bool)
    (depth? : Option Nat) (flags : Int64) : Session × Except JsonError Val :=
  match p.parse text (s.jsonDepth depth?) with
  | .error e => ({ s with jsonError? := some e }, .error e)
  | .ok document =>
    match (s.decoder objectsAsArrays flags).value document ⟨s.heap, s.interner⟩ with
    | .ok v w =>
      ({ s with heap := w.heap, interner := w.interner, jsonError? := none }, .ok v)
    | .error e w =>
      ({ s with heap := w.heap, interner := w.interner, jsonError? := some e }, .error e)

def jsonValidate (s : Session) (p : Json.Parser) (text : Bytes) (depth? : Option Nat) :
    Session × Bool :=
  let result := p.parse text (s.jsonDepth depth?)
  (s.withOutcome result, result.isOk)

end Session

end ObjectModel
