import ObjectModel.Numeral
import ObjectModel.Value.Basic
/-!
# Resources

A resource stands for something outside: it has a kind, perhaps a payload, and perhaps a destructor
that runs when it is closed. Resources are numbered from one and numbers are not used again. A
closed resource stays in the registry until the registry is purged, and a handle to it stays valid
after that; its kind is no longer told.

Payloads are machine integers; an addition that leaves their range fails and changes nothing.

Closing marks the resource first and runs the destructor then, so a destructor that closes the
resource again finds it closed, and a chain of destructors ends.

Sessions see their resources in this way, as a list; the registry that gives out the numbers has a
counter and a table instead.
-/

namespace ObjectModel

/-- What happens when a resource is closed: the label is reported, and then another resource may be
closed. -/
structure Destructor where
  label : String
  closes? : Option ResourceId := none
deriving DecidableEq, Repr

structure Resource where
  kind : String
  destructor? : Option Destructor := none
  payload? : Option Int64 := none
  isClosed : Bool := false
  /-- Whether the resource can be found by its number. -/
  isRegistered : Bool := true
deriving DecidableEq, Repr

/-- What adding to the payload of a resource comes to. -/
inductive PayloadSum where
  | noPayload
  /-- The sum is no machine integer. -/
  | overflow
  | sum (n : Int64)
deriving DecidableEq, Repr

/-- All resources ever created, oldest first. -/
structure Resources where
  all : Array Resource := #[]
deriving Inhabited

namespace Resources

def indexOf? (rs : Resources) (id : ResourceId) : Option (Fin rs.all.size) :=
  if h : 1 ≤ id.number ∧ id.number ≤ rs.all.size then some ⟨id.number - 1, by omega⟩ else none

def find? (rs : Resources) (id : ResourceId) : Option Resource := (rs.indexOf? id).map (rs.all[·])

def modify (rs : Resources) (id : ResourceId) (f : Resource → Resource) : Resources :=
  match rs.indexOf? id with
  | some i => ⟨rs.all.set i (f rs.all[i])⟩
  | none => rs

/-- The handle of a number that is registered. -/
def registered? (rs : Resources) (id : ResourceId) : Option ResourceId :=
  if (rs.find? id).any (·.isRegistered) then some id else none

def register (rs : Resources) (r : Resource) : Resources × ResourceId :=
  (⟨rs.all.push r⟩, ⟨rs.all.size + 1⟩)

def kind (rs : Resources) (id : ResourceId) : String :=
  match (rs.find? id).filter (!·.isClosed) with
  | some r => r.kind
  | none => "Unknown"

def isClosed (rs : Resources) (id : ResourceId) : Bool := (rs.find? id).any (·.isClosed)

/-- Closes a resource, following at most `n` destructors. The result tells whether it was open, and
which labels were reported. -/
def closeWithin : (n : Nat) → Resources → ResourceId → Resources × Bool × List String
  | 0, rs, _ => (rs, false, [])
  | n + 1, rs, id =>
    match (rs.find? id).filter (!·.isClosed) with
    | none => (rs, false, [])
    | some r =>
      let rs := rs.modify id fun r => { r with isClosed := true, destructor? := none }
      let (rs, labels) := match r.destructor? with
        | none => (rs, [])
        | some d =>
          match d.closes?.bind rs.registered? with
          | none => (rs, [d.label])
          | some other =>
            let (rs, _, labels) := closeWithin n rs other
            (rs, d.label :: labels)
      (rs.modify id fun r => { r with payload? := none }, true, labels)

/-- Closes a resource. Each destructor closes a resource that was open, so there are no more of them
than there are resources. -/
def close (rs : Resources) (id : ResourceId) : Resources × Bool × List String :=
  closeWithin (rs.all.size + 1) rs id

def closeRegistered (rs : Resources) (id : ResourceId) : Resources × Bool × List String :=
  match rs.registered? id with
  | some id => rs.close id
  | none => (rs, false, [])

def openOfKind (rs : Resources) (kind : String) : List Nat :=
  rs.all.toList.zipIdx.filterMap fun (r, i) =>
    if r.isRegistered && !r.isClosed && r.kind == kind then some (i + 1) else none

def purge (rs : Resources) : Resources × Nat :=
  (⟨rs.all.map fun r => { r with isRegistered := r.isRegistered && !r.isClosed }⟩,
    rs.all.countP fun r => r.isRegistered && r.isClosed)

/-- Adds to the payload of a resource. The payload changes only if the sum is a machine integer. -/
def addToPayload (rs : Resources) (id : ResourceId) (n : Int64) : Resources × PayloadSum :=
  match (rs.find? id).bind (·.payload?) with
  | none => (rs, .noPayload)
  | some p =>
    match int64? (p.toInt + n.toInt) with
    | none => (rs, .overflow)
    | some sum => (rs.modify id fun r => { r with payload? := some sum }, .sum sum)

end Resources

end ObjectModel
