import ObjectModel.Double.Basic
import ObjectModel.OrderedMap
/-!
# JSON documents

A document is a tree. Numbers are kept as exact integers or as doubles, strings as characters, and
the members of an object in the order of the text.
-/

namespace ObjectModel

inductive Json where
  | null
  | bool (b : Bool)
  /-- A number written as an integer of at most 64 bits. -/
  | int (i : Int)
  /-- Any other number. -/
  | float (d : Double)
  | string (s : List Char)
  | array (items : List Json)
  | object (members : List (List Char × Json))
deriving Inhabited

namespace Json

mutual

def nesting : Json → Nat
  | array items => nestingOfItems items + 1
  | object members => nestingOfMembers members + 1
  | _ => 0

def nestingOfItems : List Json → Nat
  | [] => 0
  | v :: vs => max v.nesting (nestingOfItems vs)

def nestingOfMembers : List (List Char × Json) → Nat
  | [] => 0
  | (_, v) :: ms => max v.nesting (nestingOfMembers ms)

end

/-- The members of an object with one member per name: the last one written, where the first one
stood. -/
def collapse (members : List (List Char × Json)) : List (List Char × Json) :=
  (OrderedMap.ofList members).entries

mutual

/-- The document with one member per name in every object. -/
def collapsed : Json → Json
  | array items => array (collapsedItems items)
  | object members => object (collapse (collapsedMembers members))
  | v => v

def collapsedItems : List Json → List Json
  | [] => []
  | v :: vs => v.collapsed :: collapsedItems vs

def collapsedMembers : List (List Char × Json) → List (List Char × Json)
  | [] => []
  | (name, v) :: ms => (name, v.collapsed) :: collapsedMembers ms

end

example : (array [object [(['a'], array [])], null]).nesting = 3 := by decide

end Json

end ObjectModel
