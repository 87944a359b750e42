import ObjectModel.Numeral
import ObjectModel.OrderedMap
/-!
# Ordered arrays

An ordered array is a map from keys to elements in insertion order, together with the integer that
the next appended element takes as its key. It starts out packed: its keys are `0, 1, 2, …` and only
the elements are stored. The first operation that breaks this shape turns it into a hash, and a hash
never becomes packed again. `entries` and `next` are the view through which both forms are seen.

A key is a machine integer or a byte string. A string that is the decimal text of a machine integer
is not used as a string key: `Key.ofBytes` makes it the integer, so that every text names one key.

The next index of a packed array is its length. That of a hash only grows, except through `pop?` and
`unshift`, so keys of removed elements are not handed out again. It stops at the greatest machine
integer, and appending fails once that key is taken.
-/

namespace ObjectModel

universe u v

/-- A key of an ordered array. -/
inductive Key where
  | int (i : Int64)
  | str (s : Bytes)
deriving DecidableEq, Repr

namespace Key

/-- The key named by a string: the integer if the string is the text of one. -/
def ofBytes (s : Bytes) : Key :=
  match Numeral.canonicalInt? s with
  | some i => int i
  | none => str s

def text : Key → Bytes
  | int i => Bytes.ofString (String.ofList (decimalText i.toInt))
  | str s => s

def isInt : Key → Bool
  | int _ => true
  | str _ => false

end Key

/-- A sequence of keyed elements with a counter for appended keys. -/
inductive OrderedArray (α : Type u) where
  /-- Elements under the keys `0, 1, 2, …`. -/
  | packed (values : List α)
  /-- Elements under any keys, and the key of the next appended element. -/
  | hash (map : OrderedMap Key α) (next : Int64)

namespace OrderedArray

variable {α : Type u}

/-- The machine integer that counts `n` elements, clamped at the greatest one. -/
def index (n : Nat) : Int64 := .ofIntClamp n

/-- The successor of a machine integer, or the greatest one itself. -/
def succ (i : Int64) : Int64 := if i = .maxValue then i else i + 1

def empty : OrderedArray α := packed []

instance : EmptyCollection (OrderedArray α) := ⟨empty⟩

instance : Inhabited (OrderedArray α) := ⟨∅⟩

def ofList (l : List α) : OrderedArray α := packed l

/-- The elements of a list under the keys `0, 1, 2, …`. -/
def enumerate (l : List α) : List (Key × α) := l.zipIdx.map fun (a, i) => (.int (index i), a)

def entries : OrderedArray α → List (Key × α)
  | packed vs => enumerate vs
  | hash m _ => m.entries

/-- The key that the next appended element takes. -/
def next : OrderedArray α → Int64
  | packed vs => index vs.length
  | hash _ n => n

def size : OrderedArray α → Nat
  | packed vs => vs.length
  | hash m _ => m.size

def isEmpty (a : OrderedArray α) : Bool := a.size == 0

def isPacked : OrderedArray α → Bool
  | packed _ => true
  | hash .. => false

/-- Whether the keys are `0, 1, 2, …` in this order. -/
def isList : OrderedArray α → Bool
  | packed _ => true
  | hash m _ => m.entries.zipIdx.all fun (e, i) => e.1 = .int (index i)

def values (a : OrderedArray α) : List α := a.entries.map Prod.snd

def keys (a : OrderedArray α) : List Key := a.entries.map Prod.fst

def first? (a : OrderedArray α) : Option (Key × α) := a.entries.head?

def last? (a : OrderedArray α) : Option (Key × α) := a.entries.getLast?

def get? : OrderedArray α → Key → Option α
  | packed vs, .int i => if i < 0 then none else vs[i.toInt.toNat]?
  | packed _, .str _ => none
  | hash m _, k => m.get? k

def contains (a : OrderedArray α) (k : Key) : Bool := (a.get? k).isSome

/-- The key of the first element that satisfies `p`. -/
def findKey? (a : OrderedArray α) (p : α → Bool) : Option Key :=
  (a.entries.find? fun e => p e.2).map Prod.fst

/-- The entries up to the first element that satisfies `stop`, that one included, and whether there
is one. -/
def visitUntil (a : OrderedArray α) (stop : α → Bool) : List (Key × α) × Bool :=
  let (before, rest) := a.entries.span fun e => !stop e.2
  (before ++ rest.take 1, !rest.isEmpty)

/-- Whether two arrays have the same keys in the same order with elements related by `r`. The next
index plays no part. -/
def agrees (r : α → α → Bool) (a b : OrderedArray α) : Bool :=
  a.size == b.size && (a.entries.zip b.entries).all fun (x, y) => x.1 = y.1 && r x.2 y.2

/-- The elements under explicit keys. -/
def toMap : OrderedArray α → OrderedMap Key α
  | packed vs => .ofList (enumerate vs)
  | hash m _ => m

/-- The next index after a key has been written: past every integer key. -/
def nextAfter (next : Int64) : Key → Int64
  | .int i => if next ≤ i then succ i else next
  | .str _ => next

/-- Writes an element under a key of the explicit form. -/
def insertHash (a : OrderedArray α) (k : Key) (x : α) : OrderedArray α :=
  hash (a.toMap.insert k x) (nextAfter a.next k)

/-- Writes an element under a key. A packed array stays packed only if the key is the one that an
appended element would take. -/
def insert (a : OrderedArray α) (k : Key) (x : α) : OrderedArray α :=
  match a, k with
  | packed vs, .int i => if i.toInt = vs.length then packed (vs ++ [x]) else insertHash a k x
  | _, _ => insertHash a k x

def modify (a : OrderedArray α) (k : Key) (f : α → α) : OrderedArray α :=
  match a, k with
  | packed vs, .int i => packed (if i < 0 then vs else vs.modify i.toInt.toNat f)
  | packed _, .str _ => a
  | hash m n, _ => hash (m.modify k f) n

def append? (a : OrderedArray α) (x : α) : Option (Int64 × OrderedArray α) :=
  match a with
  | packed vs =>
    if vs.length < 0x8000000000000000 then some (index vs.length, packed (vs ++ [x])) else none
  | hash m n =>
    if m.contains (.int n) then none else some (n, hash (m.insert (.int n) x) (succ n))

def push? (a : OrderedArray α) (x : α) : Option (Nat × OrderedArray α) :=
  (a.append? x).map fun (_, b) => (b.size, b)

/-- Removes a key. The array is a hash afterwards, whether or not the key was there. -/
def erase (a : OrderedArray α) (k : Key) : OrderedArray α := hash (a.toMap.erase k) a.next

/-- The next index after the last key has been removed: that key, if it is the last one handed
out. -/
def released (next : Int64) : Key → Int64
  | .int i => if i ≠ .maxValue ∧ i + 1 = next then i else next
  | .str _ => next

/-- Removes the last element. If its key is the last one handed out, it is free again. -/
def pop? (a : OrderedArray α) : Option (α × OrderedArray α) :=
  match a with
  | packed vs => vs.getLast?.map fun x => (x, packed vs.dropLast)
  | hash m n => m.entries.getLast?.map fun (k, x) => (x, hash m.dropLast (released n k))

/-- Removes the first element; the others keep their keys, so the array is a hash afterwards. -/
def shift? (a : OrderedArray α) : Option (α × OrderedArray α) :=
  a.first?.map fun (_, x) => (x, hash a.toMap.tail a.next)

/-- Gives the integer keys of a list of entries the numbers from `n` on, in order. -/
def renumber (n : Nat) : List (Key × α) → List (Key × α)
  | [] => []
  | (.int _, x) :: l => (.int (index n), x) :: renumber (n + 1) l
  | (.str s, x) :: l => (.str s, x) :: renumber n l

/-- Puts an element at the front. Integer keys are numbered anew from zero. -/
def unshift (a : OrderedArray α) (x : α) : OrderedArray α :=
  match a with
  | packed vs => packed (x :: vs)
  | hash m _ =>
    hash (.ofList ((.int 0, x) :: renumber 1 m.entries))
      (index ((m.entries.filter fun e => e.1.isInt).length + 1))

/-- Takes over an entry of another array: a string key is written, an integer key gives way to the
next index. -/
def adopt (a : OrderedArray α) (e : Key × α) : OrderedArray α :=
  match e.1 with
  | .int _ => ((a.append? e.2).map Prod.snd).getD a
  | .str _ => a.insert e.1 e.2

/-- Takes over all entries of `b` in order. -/
def merge (a b : OrderedArray α) : OrderedArray α := b.entries.foldl adopt a

/-- The part that starts at `offset`, counted from the end when negative, with at most `length?`
elements; no length or a negative one runs to the end. Integer keys are numbered anew. -/
def slice (a : OrderedArray α) (offset : Int) (length? : Option Int) : OrderedArray α :=
  let size : Int := a.size
  let start := if offset < 0 then max (size + offset) 0 else min offset size
  let stop := match length? with
    | some l => if 0 ≤ l then min (start + l) size else size
    | none => size
  let part {β : Type u} (l : List β) := (l.drop start.toNat).take (stop - start).toNat
  match a with
  | packed vs => packed (part vs)
  | hash m _ => (part m.entries).foldl adopt ∅

/-- The sum of two machine integers, or `none` if it overflows. -/
def checkedAdd? (i j : Int64) : Option Int64 := int64? (i.toInt + j.toInt)

/-- The sum of two machine integers, clamped at the ends of their range. -/
def saturatingAdd (i j : Int64) : Int64 := .ofIntClamp (i.toInt + j.toInt)

def sliceStart? (size offset : Int64) : Option Int64 :=
  if offset < 0 then (checkedAdd? size offset).map (max · 0) else some (min offset size)

def sliceStop (size start : Int64) : Option Int64 → Int64
  | some l => if 0 ≤ l then min (saturatingAdd start l) size else size
  | none => size

/-- The elements of a list between two positions, or `none` if there are no such positions. -/
def between? {β : Type u} (l : List β) (start stop : Int64) : Option (List β) :=
  if 0 ≤ start ∧ start ≤ stop ∧ stop.toInt ≤ l.length then
    some ((l.take stop.toInt.toNat).drop start.toInt.toNat)
  else none

/-- A slice computed with machine integers, or `none` if a sum overflows or a position is out of
range. -/
def checkedSlice? (a : OrderedArray α) (offset : Int64) (length? : Option Int64) :
    Option (OrderedArray α) :=
  (sliceStart? (.ofNat a.size) offset).bind fun start =>
    let stop := sliceStop (.ofNat a.size) start length?
    if stop ≤ start then some ∅
    else match a with
      | packed vs => (between? vs start stop).map packed
      | hash m _ => (between? m.entries start stop).map (·.foldl adopt ∅)

/-- Replaces every element. Keys, form and next index stay. -/
def map {β : Type v} (f : α → β) : OrderedArray α → OrderedArray β
  | packed vs => packed (vs.map f)
  | hash m n => hash (m.map f) n

/-- Replaces every element in order, threading a state. Keys, form and next index stay. -/
def mapAccum {σ : Type u} (f : σ → α → σ × α) (s : σ) : OrderedArray α → σ × OrderedArray α
  | packed vs => let (s, vs) := ObjectModel.mapAccum f s vs; (s, packed vs)
  | hash m n => let (s, m) := m.mapAccum f s; (s, hash m n)

end OrderedArray

end ObjectModel
