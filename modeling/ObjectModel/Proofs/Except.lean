/-!
# Computations that stop at an error

A computation that ends in a result went through all its steps, and one that ends in an error failed
in one of them. Loops over a list are taken apart in the same way: what is known of every step is
known of the whole loop, and the other way round.
-/

namespace ObjectModel

universe u

theorem exists_of_bind_eq_ok {ε : Type} {α β : Type u} {x : Except ε α} {f : α → Except ε β} {b : β}
    (h : x >>= f = .ok b) : ∃ a, x = .ok a ∧ f a = .ok b := by
  cases x with
  | error e => cases h
  | ok a => exact ⟨a, rfl, h⟩

theorem eq_ok_of_toOption_eq_some {ε α : Type} {x : Except ε α} {a : α}
    (h : x.toOption = some a) : x = .ok a := by
  cases x with
  | error e => cases h
  | ok b =>
    cases h
    rfl

/-- A computation that throws under a condition and succeeds all the same does not meet it. -/
theorem of_throwIf_eq_ok {ε : Type} {β : Type u} {p : Prop} [Decidable p] {e : ε} {x : Except ε β}
    {b : β} (h : (if p then throw e >>= fun _ : PUnit => x else x) = .ok b) :
    ¬ p ∧ x = .ok b := by
  split at h
  · cases h
  next hp => exact ⟨hp, h⟩

theorem eq_error_of_bind_eq_error {ε : Type} {α β : Type u} {x : Except ε α} {f : α → Except ε β}
    {e : ε} (h : x >>= f = .error e) : x = .error e ∨ ∃ a, x = .ok a ∧ f a = .error e := by
  cases x with
  | error e' =>
    cases h
    exact .inl rfl
  | ok a => exact .inr ⟨a, rfl, h⟩

/-- What comes after a computation needs to be the same for its results only. -/
theorem bind_congr_of_ok {ε α β : Type} {x : Except ε α} {f g : α → Except ε β}
    (h : ∀ a, x = .ok a → f a = g a) : x >>= f = x >>= g := by
  cases x with
  | error e => rfl
  | ok a => exact h a rfl

theorem forM_eq_ok_iff {ε : Type} {α : Type u} {l : List α} {f : α → Except ε Unit} :
    l.forM f = .ok () ↔ ∀ a ∈ l, f a = .ok () := by
  induction l with
  | nil => simp [pure, Except.pure]
  | cons a l ih =>
    change (f a >>= fun _ => l.forM f) = .ok () ↔ _
    rw [List.forall_mem_cons, ← ih]
    cases f a with
    | error e => simp [bind, Except.bind]
    | ok x => simp [bind, Except.bind]

theorem exists_of_mem_mapM {ε : Type} {α β : Type} {l : List α} {f : α → Except ε β}
    {ys : List β} (h : l.mapM f = .ok ys) {y : β} (hy : y ∈ ys) : ∃ a ∈ l, f a = .ok y := by
  induction l generalizing ys with
  | nil =>
    cases h
    cases hy
  | cons a l ih =>
    rw [List.mapM_cons] at h
    obtain ⟨b, hb, h⟩ := exists_of_bind_eq_ok h
    obtain ⟨bs, hbs, h⟩ := exists_of_bind_eq_ok h
    cases h
    obtain rfl | hy := List.mem_cons.1 hy
    · exact ⟨a, List.mem_cons_self, hb⟩
    · obtain ⟨a', ha', hf⟩ := ih hbs hy
      exact ⟨a', List.mem_cons_of_mem a ha', hf⟩

/-- What every step preserves holds at the end of a loop that no error stops. -/
theorem foldlM_induction {ε : Type} {α β : Type u} {f : β → α → Except ε β} {P : β → Prop}
    {l : List α} (hf : ∀ a ∈ l, ∀ b b', f b a = .ok b' → P b → P b') {b b' : β}
    (h : l.foldlM f b = .ok b') (hb : P b) : P b' := by
  induction l generalizing b with
  | nil =>
    cases h
    exact hb
  | cons a l ih =>
    rw [List.foldlM_cons] at h
    obtain ⟨b₁, h₁, h⟩ := exists_of_bind_eq_ok h
    exact ih (fun a ha => hf a (List.mem_cons_of_mem _ ha)) h
      (hf a List.mem_cons_self b b₁ h₁ hb)

theorem mapM_congr {ε α β : Type} {f g : α → Except ε β} {l : List α} (h : ∀ a ∈ l, f a = g a) :
    l.mapM f = l.mapM g := by
  induction l with
  | nil => rfl
  | cons a l ih =>
    rw [List.forall_mem_cons] at h
    rw [List.mapM_cons, List.mapM_cons, h.1, ih h.2]

/-- A loop stops at an error that one of its steps ends in. -/
theorem exists_of_mapM_eq_error {ε α β : Type} {f : α → Except ε β} {l : List α} {e : ε}
    (h : l.mapM f = .error e) : ∃ a ∈ l, f a = .error e := by
  induction l with
  | nil => cases h
  | cons a l ih =>
    rw [List.mapM_cons] at h
    obtain ha | ⟨b, -, h⟩ := eq_error_of_bind_eq_error h
    · exact ⟨a, List.mem_cons_self, ha⟩
    · obtain h | ⟨bs, -, h⟩ := eq_error_of_bind_eq_error h
      · obtain ⟨a', ha', he⟩ := ih h
        exact ⟨a', List.mem_cons_of_mem a ha', he⟩
      · cases h

/-- Every step of a loop that ends in results has one. -/
theorem exists_of_mapM_eq_ok {ε α β : Type} {f : α → Except ε β} {l : List α} {bs : List β}
    (h : l.mapM f = .ok bs) : ∀ a ∈ l, ∃ b, f a = .ok b := by
  induction l generalizing bs with
  | nil => exact nofun
  | cons a l ih =>
    rw [List.mapM_cons] at h
    obtain ⟨b, hb, h⟩ := exists_of_bind_eq_ok h
    obtain ⟨_, hbs, -⟩ := exists_of_bind_eq_ok h
    exact List.forall_mem_cons.2 ⟨⟨b, hb⟩, ih hbs⟩

/-- A loop whose steps can come to one result each comes to these. -/
theorem eq_map_of_mapM_eq_ok {ε α β : Type} {f : α → Except ε β} {g : α → β} {l : List α}
    {bs : List β} (hf : ∀ a ∈ l, ∀ b, f a = .ok b → b = g a) (h : l.mapM f = .ok bs) :
    bs = l.map g := by
  induction l generalizing bs with
  | nil =>
    cases h
    rfl
  | cons a l ih =>
    rw [List.forall_mem_cons] at hf
    rw [List.mapM_cons] at h
    obtain ⟨b, hb, h⟩ := exists_of_bind_eq_ok h
    obtain ⟨bs, hbs, h⟩ := exists_of_bind_eq_ok h
    cases h
    rw [hf.1 b hb, ih hf.2 hbs, List.map_cons]

end ObjectModel
