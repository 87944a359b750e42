import ObjectModel.OrderedArray.Basic
/-!
# Arrays in place

An array as it is stored: its elements, packed or under explicit keys, and beside them the key of
the next appended element. That key is kept for both forms, and each operation that changes an array
also writes it. Such an operation is a program that changes the stored array step by step and hands
back what its caller gets; where it refuses, it has written nothing before.

An `OrderedArray` is what there is to see of a stored array. A packed one does not say which key
comes next, as that is its number of elements.
-/

namespace ObjectModel

universe u

/-- Where an array keeps its elements. -/
inductive Storage (α : Type u) where
  /-- Elements under the keys `0, 1, 2, …`. -/
  | packed (values : List α)
  /-- Elements under any keys. -/
  | hash (map : OrderedMap Key α)

/-- An array with the key of the next appended element. -/
structure StoredArray (α : Type u) where
  storage : Storage α
  nextFree : Int64

/-- An array as it is stored. -/
def OrderedArray.stored {α : Type u} : OrderedArray α → StoredArray α
  | packed vs => ⟨.packed vs, index vs.length⟩
  | hash m n => ⟨.hash m, n⟩

namespace StoredArray

open OrderedArray (index nextAfter released succ)

/-- What there is to see of a stored array. -/
def toArray {α : Type u} (a : StoredArray α) : OrderedArray α :=
  match a.storage with
  | .packed vs => .packed vs
  | .hash m => .hash m a.nextFree

variable {α : Type}

def putPacked (vs : List α) : StateM (StoredArray α) Unit :=
  set (StoredArray.mk (.packed vs) (index vs.length))

def putHash (m : OrderedMap Key α) : StateM (StoredArray α) Unit :=
  modify fun a => { a with storage := .hash m }

def putNext (i : Int64) : StateM (StoredArray α) Unit := modify fun a => { a with nextFree := i }

/-- Gives every element an explicit key, and returns them. -/
def convertToHash : StateM (StoredArray α) (OrderedMap Key α) := do
  match (← get).storage with
  | .packed vs =>
    putHash (.ofList (OrderedArray.enumerate vs))
    return .ofList (OrderedArray.enumerate vs)
  | .hash m => return m

def insertHash (k : Key) (x : α) : StateM (StoredArray α) Unit := do
  putNext (nextAfter (← get).nextFree k)
  putHash ((← convertToHash).insert k x)

/-- Writes an element under a key. A packed array stays packed only if the key is the number of its
elements. -/
def insert (k : Key) (x : α) : StateM (StoredArray α) Unit := do
  match (← get).storage, k with
  | .packed vs, .int i => if i.toInt = vs.length then putPacked (vs ++ [x]) else insertHash k x
  | _, _ => insertHash k x

def modifyAt (k : Key) (f : α → α) : StateM (StoredArray α) Unit := do
  match (← get).storage, k with
  | .packed vs, .int i =>
    modify fun a => { a with
      storage := .packed (if i < 0 then vs else vs.modify i.toInt.toNat f) }
  | .packed _, .str _ => return
  | .hash m, _ => putHash (m.modify k f)

/-- Adds an element at the end and returns its key, or nothing if the key is taken. No machine has
room for a packed array that is refused here. -/
def append (x : α) : StateM (StoredArray α) (Option Int64) := do
  let key := (← get).nextFree
  match (← get).storage with
  | .packed vs =>
    if vs.length < 0x8000000000000000 then
      putPacked (vs ++ [x])
      return some key
    else return none
  | .hash m =>
    if m.contains (.int key) then return none
    else
      putHash (m.insert (.int key) x)
      putNext (succ key)
      return some key

def push (x : α) : StateM (StoredArray α) (Option Nat) := do
  match ← append x with
  | some _ => return some (← get).toArray.size
  | none => return none

/-- Removes a key and returns what was under it. The array is a hash afterwards, whether or not the
key was there. -/
def unset (k : Key) : StateM (StoredArray α) (Option α) := do
  let (x?, m) := (← convertToHash).take k
  putHash m
  return x?

/-- Removes the last element and returns it. If its key is the last one handed out, it is free
again. -/
def pop : StateM (StoredArray α) (Option α) := do
  match (← get).storage with
  | .packed vs =>
    match vs.getLast? with
    | none => return none
    | some x =>
      putPacked vs.dropLast
      return some x
  | .hash m =>
    match m.entries.getLast? with
    | none => return none
    | some (k, x) =>
      putHash m.dropLast
      putNext (released (← get).nextFree k)
      return some x

/-- Removes the first element and returns it; the others keep their keys. -/
def shift : StateM (StoredArray α) (Option α) := do
  if (← get).toArray.isEmpty then return none
  else
    let m ← convertToHash
    putHash m.tail
    return m.entries.head?.map Prod.snd

/-- Takes over a list of entries. Integer keys are numbered anew from `next` on, and the number that
comes next is returned. -/
def renumberInto (m : OrderedMap Key α) (next : Int64) :
    List (Key × α) → OrderedMap Key α × Int64
  | [] => (m, next)
  | (.int _, x) :: l => renumberInto (m.insert (.int next) x) (succ next) l
  | (.str s, x) :: l => renumberInto (m.insert (.str s) x) next l

/-- Puts an element at the front, with the integer keys numbered anew, and returns the number of
elements. -/
def unshift (x : α) : StateM (StoredArray α) Nat := do
  match (← get).storage with
  | .packed vs => putPacked (x :: vs)
  | .hash m =>
    let (m, next) := renumberInto (.ofList [(.int 0, x)]) 1 m.entries
    putHash m
    putNext next
  return (← get).toArray.size

/-- Takes over an entry: a string key is written, an integer key gives way to the next index. An
element that is refused is lost. -/
def adopt (e : Key × α) : StateM (StoredArray α) Unit :=
  match e.1 with
  | .int _ => discard (append e.2)
  | .str _ => insert e.1 e.2

def merge (b : OrderedArray α) : StateM (StoredArray α) Unit := b.entries.forM adopt

end StoredArray

end ObjectModel
