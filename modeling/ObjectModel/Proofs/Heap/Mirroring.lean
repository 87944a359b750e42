import ObjectModel.Proofs.Heap.Reachability
import ObjectModel.Proofs.OrderedArray.View
import ObjectModel.Proofs.OrderedMap
/-!
# Containers of one shape

Two arrays mirror each other if they have the same form, the same keys in the same order, the same
next index and corresponding elements; two objects, if they have the same class and slots that agree
in everything but their values, which correspond. What counts as corresponding is a parameter, and
for values it is given by the handles that stand for one another. A map that threads a state mirrors
the container it visits, so visiting a container comes down to visiting the list of its values.
-/

namespace ObjectModel

universe u v w u₁ u₂

section MapAccum

variable {σ : Type u} {α : Type v} {β : Type w} {γ : Type u₁} {δ : Type u₂}
variable (get : γ → α) {put : γ → β → δ}

/-- A map over one part of each element is a map over the list of these parts. -/
theorem mapAccum_through (f : σ → α → σ × β) (put : γ → β → δ) (s : σ) (l : List γ) :
    mapAccum (fun s c => ((f s (get c)).1, put c (f s (get c)).2)) s l =
      ((mapAccum f s (l.map get)).1, List.zipWith put l (mapAccum f s (l.map get)).2) := by
  induction l generalizing s with
  | nil => rfl
  | cons c l ih => simp only [mapAccum_cons, ih, List.map_cons, List.zipWith_cons_cons]

theorem forall₂_zipWith {R : γ → δ → Prop} {S : α → β → Prop}
    (hR : ∀ c b, S (get c) b → R c (put c b)) {l : List γ} {bs : List β}
    (h : List.Forall₂ S (l.map get) bs) : List.Forall₂ R l (List.zipWith put l bs) := by
  induction l generalizing bs with
  | nil => exact .nil
  | cons c l ih =>
    cases h with
    | cons hb hbs => exact .cons (hR c _ hb) (ih hbs)

theorem forall₂_zipWith_zipWith {R : δ → δ → Prop} {S : β → β → Prop}
    (hR : ∀ c b b', S b b' → R (put c b) (put c b')) (l : List γ) {bs bs' : List β}
    (h : List.Forall₂ S bs bs') :
    List.Forall₂ R (List.zipWith put l bs) (List.zipWith put l bs') := by
  induction l generalizing bs bs' with
  | nil => exact .nil
  | cons c l ih =>
    cases h with
    | nil => exact .nil
    | cons hb hbs => exact .cons (hR c _ _ hb) (ih hbs)

theorem map_zipWith_eq_right {part : δ → β} (hp : ∀ c b, part (put c b) = b) {l : List γ}
    {bs : List β} (hl : bs.length = l.length) : (List.zipWith put l bs).map part = bs := by
  induction l generalizing bs with
  | nil => rw [List.eq_nil_of_length_eq_zero hl]; rfl
  | cons c l ih =>
    cases bs with
    | nil => cases hl
    | cons b bs => rw [List.zipWith_cons_cons, List.map_cons, hp, ih (Nat.succ.inj hl)]

end MapAccum

inductive Val.Mirrors (arrays : List (ArrayRef × ArrayRef))
    (objects : List (ObjectRef × ObjectRef)) : Val → Val → Prop
  | array {r r' : ArrayRef} (hr : (r, r') ∈ arrays) : Mirrors arrays objects (.array r) (.array r')
  | object {r r' : ObjectRef} (hr : (r, r') ∈ objects) :
      Mirrors arrays objects (.object r) (.object r')
  | plain {v : Val} (ha : v.isArray = false) (ho : v.isObject = false) :
      Mirrors arrays objects v v

theorem Val.Mirrors.mono {as as' : List (ArrayRef × ArrayRef)}
    {os os' : List (ObjectRef × ObjectRef)} (ha : as ⊆ as') (ho : os ⊆ os') {v w : Val}
    (h : v.Mirrors as os w) : v.Mirrors as' os' w := by
  cases h with
  | array hr => exact .array (ha hr)
  | object hr => exact .object (ho hr)
  | plain hva hvo => exact .plain hva hvo

theorem OrderedMap.mapAccum_fst {κ : Type u} {α : Type v} {β σ : Type w}
    {f : σ → α → σ × β} (s : σ) (m : OrderedMap κ α) :
    (m.mapAccum f s).1 = (ObjectModel.mapAccum f s m.values).1 :=
  congrArg Prod.fst (mapAccum_through Prod.snd f (fun e b => (e.1, b)) s m.entries)

theorem OrderedMap.entries_mapAccum {κ : Type u} {α : Type v} {β σ : Type w}
    {f : σ → α → σ × β} (s : σ) (m : OrderedMap κ α) :
    (m.mapAccum f s).2.entries =
      List.zipWith (fun e b => (e.1, b)) m.entries (ObjectModel.mapAccum f s m.values).2 :=
  congrArg Prod.snd (mapAccum_through Prod.snd f (fun e b => (e.1, b)) s m.entries)

namespace OrderedArray

variable {α : Type u} {R S : α → α → Prop} {a b : OrderedArray α}

/-- Whether two arrays have one form, the same keys in the same order and the same next index, and
corresponding elements. -/
inductive Mirrors (R : α → α → Prop) : OrderedArray α → OrderedArray α → Prop
  | packed {vs ws : List α} (h : List.Forall₂ R vs ws) : Mirrors R (.packed vs) (.packed ws)
  | hash {m m' : OrderedMap Key α} {next : Int64}
      (h : List.Forall₂ (fun e e' => e'.1 = e.1 ∧ R e.2 e'.2) m.entries m'.entries) :
      Mirrors R (.hash m next) (.hash m' next)

theorem Mirrors.mono (hRS : ∀ x y, R x y → S x y) (h : a.Mirrors R b) : a.Mirrors S b := by
  cases h with
  | packed h => exact .packed (h.imp hRS)
  | hash h => exact .hash (h.imp fun _ _ he => ⟨he.1, hRS _ _ he.2⟩)

theorem Mirrors.values (h : a.Mirrors R b) : List.Forall₂ R a.values b.values := by
  cases h with
  | packed h => rwa [values_packed, values_packed]
  | hash h =>
    rw [OrderedArray.values, OrderedArray.values, List.forall₂_map_left_iff,
      List.forall₂_map_right_iff]
    exact h.imp fun _ _ he => he.2

variable {σ : Type u} {f : σ → α → σ × α}

/-- Visiting an array is visiting the list of its elements. -/
theorem mapAccum_fst (s : σ) (a : OrderedArray α) :
    (a.mapAccum f s).1 = (ObjectModel.mapAccum f s a.values).1 := by
  cases a with
  | packed vs => rw [values_packed]; rfl
  | hash m n => exact OrderedMap.mapAccum_fst s m

theorem values_mapAccum (s : σ) (a : OrderedArray α) :
    (a.mapAccum f s).2.values = (ObjectModel.mapAccum f s a.values).2 := by
  cases a with
  | packed vs =>
    rw [values_packed]
    exact values_packed _
  | hash m n =>
    change (m.mapAccum f s).2.entries.map Prod.snd = _
    rw [OrderedMap.entries_mapAccum, map_zipWith_eq_right (fun _ _ => rfl)]
    · rfl
    · rw [length_mapAccum, OrderedMap.values, List.length_map]

/-- The result is known once the list of the new elements is. -/
theorem mapAccum_congr {g : σ → α → σ × α} {s : σ} {a : OrderedArray α}
    (h : ObjectModel.mapAccum f s a.values = ObjectModel.mapAccum g s a.values) :
    a.mapAccum f s = a.mapAccum g s := by
  cases a with
  | packed vs =>
    rw [values_packed] at h
    rw [mapAccum, mapAccum, h]
  | hash m n =>
    have hm : m.mapAccum f s = m.mapAccum g s := by
      refine Prod.ext ?_ (OrderedMap.ext ?_)
      · exact (OrderedMap.mapAccum_fst s m).trans
          ((congrArg Prod.fst h).trans (OrderedMap.mapAccum_fst s m).symm)
      · rw [OrderedMap.entries_mapAccum, OrderedMap.entries_mapAccum]
        exact congrArg (List.zipWith _ m.entries ·.2) h
    rw [mapAccum, mapAccum, hm]

/-- An array whose elements are replaced by corresponding ones is mirrored by the result. -/
theorem mirrors_mapAccum {s : σ} {a : OrderedArray α}
    (h : List.Forall₂ R a.values (ObjectModel.mapAccum f s a.values).2) :
    a.Mirrors R (a.mapAccum f s).2 := by
  cases a with
  | packed vs =>
    rw [values_packed] at h
    exact .packed h
  | hash m n =>
    have hm : List.Forall₂ (fun e e' => e'.1 = e.1 ∧ R e.2 e'.2) m.entries
        (m.mapAccum f s).2.entries := by
      rw [OrderedMap.entries_mapAccum]
      exact forall₂_zipWith (S := R) Prod.snd (fun e b hb => ⟨rfl, hb⟩) h
    exact .hash hm

/-- Visits of one array mirror each other if they replace its elements by corresponding ones. -/
theorem mirrors_mapAccum_mapAccum {s s' : σ} {a : OrderedArray α}
    (h : List.Forall₂ R (ObjectModel.mapAccum f s a.values).2
      (ObjectModel.mapAccum f s' a.values).2) :
    (a.mapAccum f s).2.Mirrors R (a.mapAccum f s').2 := by
  cases a with
  | packed vs =>
    rw [values_packed] at h
    exact .packed h
  | hash m n =>
    have hm : List.Forall₂ (fun e e' => e'.1 = e.1 ∧ R e.2 e'.2) (m.mapAccum f s).2.entries
        (m.mapAccum f s').2.entries := by
      rw [OrderedMap.entries_mapAccum, OrderedMap.entries_mapAccum]
      exact forall₂_zipWith_zipWith (fun _ _ _ hb => ⟨rfl, hb⟩) m.entries h
    exact .hash hm

end OrderedArray

namespace Object

variable {R S : Val → Val → Prop} {o o' : Object}

/-- Whether two objects have one class and the same slots in the same order, but for the values of
the slots, which correspond. -/
structure Mirrors (R : Val → Val → Prop) (o o' : Object) : Prop where
  cls_eq : o'.cls = o.cls
  slots : List.Forall₂ (fun e e' => e'.1 = e.1 ∧ e'.2 = { e.2 with value := e'.2.value } ∧
    R e.2.value e'.2.value) o.slots.entries o'.slots.entries

theorem Mirrors.mono (hRS : ∀ x y, R x y → S x y) (h : o.Mirrors R o') : o.Mirrors S o' where
  cls_eq := h.cls_eq
  slots := h.slots.imp fun _ _ he => ⟨he.1, he.2.1, hRS _ _ he.2.2⟩

theorem Mirrors.values (h : o.Mirrors R o') : List.Forall₂ R o.values o'.values := by
  rw [Object.values, Object.values, List.forall₂_map_left_iff, List.forall₂_map_right_iff]
  exact h.slots.imp fun _ _ he => he.2.2

variable {σ : Type} {f : σ → Val → σ × Val}

def withValue (e : String × Slot) (v : Val) : String × Slot := (e.1, { e.2 with value := v })

def mapAccumValues (f : σ → Val → σ × Val) (s : σ) (o : Object) : σ × Object :=
  let (s, slots) := o.slots.mapAccum
    (fun s slot => let (s, v) := f s slot.value; (s, { slot with value := v })) s
  (s, { o with slots })

/-- Visiting an object is visiting the list of its values. -/
theorem mapAccumValues_fst (s : σ) (o : Object) :
    (o.mapAccumValues f s).1 = (mapAccum f s o.values).1 :=
  congrArg Prod.fst (mapAccum_through (fun e : String × Slot => e.2.value) f withValue s
    o.slots.entries)

theorem entries_mapAccumValues (s : σ) (o : Object) :
    (o.mapAccumValues f s).2.slots.entries =
      List.zipWith withValue o.slots.entries (mapAccum f s o.values).2 :=
  congrArg Prod.snd (mapAccum_through (fun e : String × Slot => e.2.value) f withValue s
    o.slots.entries)

theorem values_mapAccumValues (s : σ) (o : Object) :
    (o.mapAccumValues f s).2.values = (mapAccum f s o.values).2 := by
  rw [Object.values, entries_mapAccumValues, map_zipWith_eq_right (fun _ _ => rfl)]
  rw [length_mapAccum, Object.values, List.length_map]

/-- The result is known once the list of the new values is. -/
theorem mapAccumValues_congr {g : σ → Val → σ × Val} {s : σ} {o : Object}
    (h : mapAccum f s o.values = mapAccum g s o.values) :
    o.mapAccumValues f s = o.mapAccumValues g s := by
  have hs : (o.mapAccumValues f s).2.slots = (o.mapAccumValues g s).2.slots := by
    apply OrderedMap.ext
    rw [entries_mapAccumValues, entries_mapAccumValues, h]
  refine Prod.ext ?_ (congrArg (Object.mk o.cls) hs)
  rw [mapAccumValues_fst, mapAccumValues_fst, h]

/-- An object whose values are replaced by corresponding ones is mirrored by the result. -/
theorem mirrors_mapAccumValues {s : σ} {o : Object}
    (h : List.Forall₂ R o.values (mapAccum f s o.values).2) :
    o.Mirrors R (o.mapAccumValues f s).2 where
  cls_eq := rfl
  slots := by
    rw [entries_mapAccumValues]
    exact forall₂_zipWith (S := R) (fun e : String × Slot => e.2.value)
      (fun e v hv => ⟨rfl, rfl, hv⟩) h

/-- Visits of one object mirror each other if they replace its values by corresponding ones. -/
theorem mirrors_mapAccumValues_mapAccumValues {s s' : σ} {o : Object}
    (h : List.Forall₂ R (mapAccum f s o.values).2 (mapAccum f s' o.values).2) :
    (o.mapAccumValues f s).2.Mirrors R (o.mapAccumValues f s').2 where
  cls_eq := rfl
  slots := by
    rw [entries_mapAccumValues, entries_mapAccumValues]
    exact forall₂_zipWith_zipWith (fun _ _ _ hv => ⟨rfl, rfl, hv⟩) o.slots.entries h

end Object

end ObjectModel
