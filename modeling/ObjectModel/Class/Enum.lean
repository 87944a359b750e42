import ObjectModel.Class.Lookup
import ObjectModel.Object.Conversion
import ObjectModel.Value.Comparison
/-!
# Enumerations

An enumeration is a list of cases without instance properties or a parent. If it is backed, every
case has a value of the backing type, no two cases the same one, and a case can be looked up by a
value that is loosely equal to its own.
-/

namespace ObjectModel

namespace Backing

/-- Reads the name of a backing type in any case; the empty name stands for none. -/
def parse (name : String) : Except Error Backing :=
  match Name.foldCase name with
  | "" | "none" => .ok .none
  | "int" => .ok .int
  | "string" => .ok .string
  | other => .error (.backingType other)

def admits : Backing → Val → Bool
  | none, _ => false
  | int, v => v.isInt
  | string, v => v.isStr

end Backing

/-- How a value that matches no case is quoted. -/
def Heap.quoted (h : Heap) (v : Val) : String :=
  match h.deref v with
  | .str s => "\"" ++ s.bytes.toStringLossy ++ "\""
  | v =>
    match h.toText defaultPrecision v with
    | .ok s => s.toStringLossy
    | .error _ => ""

namespace ClassDef

/-- Checks that a case has a value just if the enumeration is backed, and one of the right type. The
result is the value. -/
def checkCaseValue (h : Heap) (c : ClassDef) (case : String) (value? : Option Val) :
    Except Error (Option Val) :=
  match c.backing, value? with
  | .none, none => .ok none
  | .none, some _ => .error (.invalidEnum c.name (.valueWithoutBacking case))
  | _, none => .error (.invalidEnum c.name (.missingValue case))
  | backing, some v =>
    if backing.admits v then .ok (some v)
    else .error (.invalidEnum c.name (.wrongValueType (h.deref v).typeName backing.keyword))

/-- Checks cases in order, given the values of the cases before them. -/
def checkCases (h : Heap) (c : ClassDef) (seen : List (String × Val)) :
    List (String × Option Val) → Except Error Unit
  | [] => .ok ()
  | (case, value?) :: cases => do
    match ← c.checkCaseValue h case value? with
    | none => checkCases h c seen cases
    | some v =>
      match seen.find? fun (_, w) => h.identical w v with
      | some (other, _) => .error (.invalidEnum c.name (.duplicateValue other case))
      | none => checkCases h c (seen ++ [(case, v)]) cases

def checkEnum (h : Heap) (c : ClassDef) : Except Error Unit := do
  if !c.isEnum then throw (.invalidEnum c.name .notAnEnum)
  if let some parent := c.parentName? then throw (.cannotExtend c.name parent .enumChild)
  if let some p := c.properties.values.find? (!·.isStatic) then
    throw (.invalidEnum c.name (.hasProperty p.name))
  checkCases h c [] c.cases.entries

def caseValue? (c : ClassDef) (case : String) : Option Val := (c.cases.get? case).join

/-- The first case whose value is loosely equal to `v`. The name of the lookup is for the complaint
about an enumeration that is not backed. -/
def findCase? (h : Heap) (c : ClassDef) (v : Val) (lookup : String) :
    Except Error (Option String) :=
  if !c.isEnum || c.backing = .none then .error (.enumNotBacked c.name lookup)
  else
    let matching := c.cases.entries.find? fun (_, value?) => value?.any (h.looselyEqual · v)
    .ok (matching.map Prod.fst)

/-- The case that a value belongs to, if there is one. -/
def enumTryFrom (h : Heap) (c : ClassDef) (v : Val) : Except Error (Option String) :=
  c.findCase? h v "tryFrom"

def enumFrom (h : Heap) (c : ClassDef) (v : Val) : Except Error String := do
  match ← c.findCase? h v "from" with
  | some case => .ok case
  | none => .error (.enumNoMatch c.name (h.quoted v))

end ClassDef

end ObjectModel
