/-!
# Visibility of class members

Three levels, from `public`, which everyone sees, to `private`, which only the declaring class
sees. A member that redeclares another must be at least as visible.
-/

namespace ObjectModel

/-- How far a member can be seen. -/
inductive Visibility where
  /-- From everywhere. -/
  | isPublic
  /-- From the declaring class and the classes below it. -/
  | isProtected
  /-- From the declaring class alone. -/
  | isPrivate
deriving DecidableEq, Repr, Inhabited

namespace Visibility

def keyword : Visibility → String
  | isPublic => "public"
  | isProtected => "protected"
  | isPrivate => "private"

/-- The distance from `public`. -/
def rank : Visibility → Nat
  | isPublic => 0
  | isProtected => 1
  | isPrivate => 2

/-- One level lies below another when it grants at least the same access. -/
def atLeast (a b : Visibility) : Bool := a.rank ≤ b.rank

@[simp] theorem atLeast_refl (a : Visibility) : a.atLeast a = true := by
  cases a <;> rfl

theorem atLeast_trans {a b c : Visibility} (hab : a.atLeast b) (hbc : b.atLeast c) :
    a.atLeast c := by
  simp only [atLeast, decide_eq_true_eq] at *
  exact Nat.le_trans hab hbc

/-- The tail of a complaint about too little access: a public member leaves no choice. -/
def orWeaker : Visibility → String
  | isPublic => ""
  | _ => " or weaker"

end Visibility

end ObjectModel
