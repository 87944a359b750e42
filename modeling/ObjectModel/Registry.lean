import ObjectModel.OrderedMap
import ObjectModel.Resources
/-!
# The resource registry

The registry gives out numbers and finds resources by them. A resource itself is shared by all its
handles and by the registry, so a handle to it stays good when it has been taken out.

Closing marks a resource and takes its destructor out of it, then the destructor is run, and then
the payload is dropped. A destructor is anything that can be run, and while it runs the registry may
be used as at any other time: `Registry.close` is told what running one does. Those of the type
`Script` report a label and close another resource, as `Destructor` says.

`Registry.toResources` leaves out the counter and the table of numbers: the resource that was
registered first has the number one, and so on.
-/

namespace ObjectModel

/-- What the handles of a resource share. -/
structure SharedResource (δ : Type) where
  id : UInt64
  kind : String
  destructor? : Option δ
  payload? : Option Int64
  isClosed : Bool := false

/-- A handle of a resource: its place among all resources. -/
structure Handle where
  index : Nat
deriving DecidableEq

/-- The registry, and the resources that handles refer to. -/
structure Registry (δ : Type) where
  /-- The number of the next resource. -/
  nextId : UInt64 := 1
  entries : OrderedMap UInt64 Handle := ∅
  resources : Array (SharedResource δ) := #[]

/-- A destructor that reports a label and then closes the resource of a number. -/
structure Script where
  label : String
  closes? : Option UInt64 := none

namespace Registry

abbrev Program (δ α : Type) : Type := StateM (Registry δ) α

variable {δ : Type}

def resource? (rg : Registry δ) (h : Handle) : Option (SharedResource δ) := rg.resources[h.index]?

def find? (rg : Registry δ) (id : UInt64) : Option Handle := rg.entries.get? id

def update (h : Handle) (f : SharedResource δ → SharedResource δ) : Program δ Unit :=
  modify fun rg => { rg with resources := rg.resources.modify h.index f }

def register (kind : String) (destructor? : Option δ) (payload? : Option Int64) :
    Program δ Handle := do
  let id := (← get).nextId
  modify fun rg => { rg with nextId := id + 1 }
  let h : Handle := ⟨(← get).resources.size⟩
  modify fun rg => { rg with resources := rg.resources.push { id, kind, destructor?, payload? } }
  modify fun rg => { rg with entries := rg.entries.insert id h }
  return h

/-- Marks an open resource as closed and takes its destructor out of it. -/
def beginClose (h : Handle) : Program δ (Option (Option δ)) := do
  match (← get).resource? h with
  | none => return none
  | some r =>
    if r.isClosed then return none
    else
      update h fun r => { r with isClosed := true, destructor? := none }
      return some r.destructor?

def endClose (h : Handle) : Program δ Unit := update h fun r => { r with payload? := none }

/-- Closes a resource: what its destructor gave is returned, unless the resource was closed before.
Running a destructor is any program. -/
def close {α : Type} (run : δ → Program δ α) (h : Handle) : Program δ (Option (Option α)) := do
  match ← beginClose h with
  | none => return none
  | some none =>
    endClose h
    return some none
  | some (some d) =>
    let a ← run d
    endClose h
    return some (some a)

def withPayload {β : Type} (h : Handle) (f : Int64 → β × Int64) : Program δ (Option β) := do
  match ((← get).resource? h).bind (·.payload?) with
  | none => return none
  | some p =>
    let (b, p) := f p
    update h fun r => { r with payload? := some p }
    return some b

/-- Adds to the payload of a resource. The payload changes only if the sum is a machine integer. -/
def addToPayload (h : Handle) (n : Int64) : Program δ PayloadSum := do
  let add (p : Int64) : PayloadSum × Int64 :=
    match int64? (p.toInt + n.toInt) with
    | none => (.overflow, p)
    | some sum => (.sum sum, sum)
  return (← withPayload h add).getD .noPayload

def kind (rg : Registry δ) (h : Handle) : String :=
  match (rg.resource? h).filter (!·.isClosed) with
  | some r => r.kind
  | none => "Unknown"

/-- The numbers of the open resources of a kind, in order. -/
def idsOfKind (rg : Registry δ) (kind : String) : List UInt64 :=
  let ids := rg.entries.values.filterMap fun h => do
    let r ← rg.resource? h
    if !r.isClosed && r.kind == kind then some r.id else none
  ids.mergeSort

def purge : Program δ Nat := do
  let rg ← get
  let kept := rg.entries.filter fun _ h => !(rg.resource? h).any (·.isClosed)
  set { rg with entries := kept }
  return rg.entries.size - kept.size

/-- Closes a resource, following at most `n` destructors. The result tells whether it was open, and
which labels were reported. -/
def closeWithin : (n : Nat) → Handle → Program Script (Bool × List String)
  | 0, _ => return (false, [])
  | n + 1, h => do
    let run (d : Script) : Program Script (List String) := do
      match d.closes?.bind (← get).find? with
      | none => return [d.label]
      | some other =>
        let (_, labels) ← closeWithin n other
        return d.label :: labels
    match ← close run h with
    | none => return (false, [])
    | some labels? => return (true, labels?.getD [])

def closeAll (h : Handle) : Program Script (Bool × List String) := do
  closeWithin ((← get).resources.size + 1) h

def closeNumber (id : UInt64) : Program Script (Bool × List String) := do
  match (← get).find? id with
  | some h => closeAll h
  | none => return (false, [])

end Registry

def Script.toDestructor (d : Script) : Destructor :=
  ⟨d.label, d.closes?.map fun id => ⟨id.toNat⟩⟩

def Handle.toId (h : Handle) : ResourceId := ⟨h.index + 1⟩

namespace SharedResource

def toResource (r : SharedResource Script) (isRegistered : Bool) : Resource where
  kind := r.kind
  destructor? := r.destructor?.map Script.toDestructor
  payload? := r.payload?
  isClosed := r.isClosed
  isRegistered := isRegistered

end SharedResource

/-- All resources in the order of their numbers. -/
def Registry.toResources (rg : Registry Script) : Resources where
  all := rg.resources.map fun r => r.toResource (rg.entries.contains r.id)

end ObjectModel
