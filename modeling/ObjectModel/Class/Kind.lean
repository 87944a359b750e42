/-!
# Kinds and names of declarations

A declaration is a class, an interface, a trait or an enumeration, and an enumeration may be backed
by integers or strings.

Names of classes and methods are compared without regard to the case of the letters `A` to `Z`.
`Name.foldCase` maps a name to the form under which it is stored; the name of a class may also be
written with leading backslashes, which `Name.classKey` drops.
-/

namespace ObjectModel

inductive ClassKind where
  /-- A class in the narrow sense. -/
  | plain
  /-- A list of obligations. -/
  | interface
  /-- Members to be composed into classes. -/
  | trait
  /-- A fixed list of cases. -/
  | enumeration
deriving DecidableEq, Repr, Inhabited

def ClassKind.keyword : ClassKind → String
  | plain => "class"
  | interface => "interface"
  | trait => "trait"
  | enumeration => "enum"

/-- The values behind the cases of an enumeration. -/
inductive Backing where
  /-- The cases have no values. -/
  | none
  /-- Every case has an integer. -/
  | int
  /-- Every case has a string. -/
  | string
deriving DecidableEq, Repr, Inhabited

def Backing.keyword : Backing → String
  | none => "none"
  | int => "int"
  | string => "string"

namespace Name

/-- A name with its capital letters made small. -/
def foldCase (name : String) : String := String.ofList (name.toList.map Char.toLower)

/-- Equality up to the case of letters. -/
def same (a b : String) : Bool := foldCase a == foldCase b

/-- A class name without leading backslashes. -/
def unqualified (name : String) : String := String.ofList (name.toList.dropWhile (· == '\\'))

def classKey (name : String) : String := foldCase (unqualified name)

theorem isUpper_iff {c : Char} : c.isUpper = true ↔ 65 ≤ c.toNat ∧ c.toNat ≤ 90 :=
  decide_eq_true_iff.trans (and_congr UInt32.le_iff_toNat_le UInt32.le_iff_toNat_le)

theorem toNat_toLower (c : Char) :
    c.toLower.toNat = if c.isUpper then c.toNat + 32 else c.toNat := by
  by_cases h : c.val ≥ 'A'.val ∧ c.val ≤ 'Z'.val
  · have hu : c.isUpper = true := decide_eq_true h
    have hv : c.toLower.val = c.val + 32 := congrArg Char.val (dif_pos h)
    have hle : c.val.toNat + 32 < 2 ^ 32 := Nat.lt_of_le_of_lt
      (Nat.add_le_add_right (isUpper_iff.1 hu).2 32) (by decide)
    rw [if_pos hu, Char.toNat, hv, UInt32.toNat_add]
    exact Nat.mod_eq_of_lt hle
  · have hu : c.isUpper = false := decide_eq_false h
    have hc : c.toLower = c := dif_neg h
    rw [hc, hu, if_neg Bool.false_ne_true]

@[simp] theorem foldCase_foldCase (name : String) : foldCase (foldCase name) = foldCase name := by
  have hc : Char.toLower ∘ Char.toLower = Char.toLower := by
    funext c
    rw [Function.comp_apply, ← Char.toNat_inj, toNat_toLower, toNat_toLower]
    refine if_neg ?_
    rw [isUpper_iff, toNat_toLower]
    simp only [isUpper_iff]
    split <;> omega
  rw [foldCase, foldCase, String.toList_ofList, List.map_map, hc]

@[simp] theorem same_refl (a : String) : same a a = true := by simp [same]

theorem same_comm (a b : String) : same a b = same b a := by simp [same, Bool.beq_comm]

theorem same_trans {a b c : String} (hab : same a b) (hbc : same b c) : same a c := by
  simp only [same, beq_iff_eq] at *
  exact hab.trans hbc

end Name

end ObjectModel
