import Mathlib.Data.List.Forall2
/-!
# Lists related element by element

Two lists of one length may be related position by position. The lemmas here pass between the lists
and their elements: every element has a partner, and what is known of the elements of one list
changes the relation.
-/

namespace ObjectModel

variable {α β : Type*} {R S : α → β → Prop} {l l' : List α} {m : List β}

theorem exists_of_mem_left {a : α} (h : List.Forall₂ R l m) (ha : a ∈ l) : ∃ b ∈ m, R a b := by
  induction h with
  | nil => cases ha
  | cons hr _ ih =>
    obtain rfl | ha := List.mem_cons.1 ha
    · exact ⟨_, List.mem_cons_self, hr⟩
    · obtain ⟨b, hb, hr⟩ := ih ha
      exact ⟨b, List.mem_cons_of_mem _ hb, hr⟩

theorem exists_of_mem_right {b : β} (h : List.Forall₂ R l m) (hb : b ∈ m) : ∃ a ∈ l, R a b :=
  exists_of_mem_left (R := flip R) h.flip hb

theorem forall₂_imp_of_mem (hRS : ∀ a ∈ l, ∀ b, R a b → S a b) (h : List.Forall₂ R l m) :
    List.Forall₂ S l m := by
  have hand := (List.forall₂_and_left (p := fun a => ∀ b, R a b → S a b) l m).2 ⟨hRS, h⟩
  exact hand.imp fun _ _ ⟨hp, hr⟩ => hp _ hr

/-- Lists are equal if they are related to one list, by relations that determine the elements. -/
theorem eq_of_forall₂_of_mem (hRS : ∀ a ∈ l, ∀ a' b, R a b → S a' b → a = a')
    (h : List.Forall₂ R l m) (h' : List.Forall₂ S l' m) : l = l' := by
  induction h generalizing l' with
  | nil => exact (List.forall₂_nil_right_iff.1 h').symm
  | cons hr _ ih =>
    cases h' with
    | cons hs h' =>
      obtain ⟨ha, hl⟩ := List.forall_mem_cons.1 hRS
      rw [ha _ _ hr hs, ih hl h']

end ObjectModel
