import ObjectModel.Json.Decoder
import ObjectModel.Proofs.Json.Document
/-!
# Why decoding refuses a document

Scalars and arrays always have a value, and so do objects that become arrays. An object of a class
is refused if the class has no instances, or if a member cannot become a property. Nothing else is
ever reported by a decoder; what is wrong with a text is found by the reader.
-/

namespace ObjectModel.Json

/-- Whether a computation, if it fails, does so with one of some errors. -/
def Decoding.FailsWith {α : Type} (P : JsonError → Prop) (x : Decoding α) : Prop :=
  ∀ w e w', x w = .error e w' → P e

variable {P : JsonError → Prop} {α β : Type} {x : Decoding α} {f : α → Decoding β} {d : Decoder}

open Decoding

theorem failsWith_pure (a : α) : FailsWith P (pure a : Decoding α) := nofun

/-- A computation of two parts fails where one of them does. -/
theorem Decoding.FailsWith.bind (hx : FailsWith P x) (hf : ∀ a, FailsWith P (f a)) :
    FailsWith P (x >>= f) := by
  intro w e w' h
  change EStateM.bind x f w = _ at h
  rw [EStateM.bind] at h
  cases hw : x w with
  | ok a w₁ =>
    rw [hw] at h
    exact hf a w₁ e w' h
  | error e₁ w₁ =>
    rw [hw] at h
    cases h
    exact hx w e w' hw

theorem failsWith_get : FailsWith P (get : Decoding Workspace) := nofun

theorem failsWith_newString (s : Bytes) : FailsWith P (newString s) := nofun

theorem failsWith_newArray (a : OrderedArray Val) : FailsWith P (newArray a) := nofun

theorem failsWith_throw {e : JsonError} (he : P e) : FailsWith P (throw e : Decoding α) := by
  intro w e' w' h
  cases h
  exact he

theorem failsWith_memberKey (name : List Char) : FailsWith P (memberKey name) := by
  rw [memberKey]
  dsimp only
  split <;> exact nofun

theorem failsWith_newObject (hu : P .unsupportedType) : FailsWith P (newObject d) := by
  rw [newObject.eq_def]
  split
  · refine failsWith_get.bind fun s => ?_
    split
    · exact failsWith_throw hu
    · exact nofun
  · exact failsWith_throw hu

theorem failsWith_setMember (hn : P .invalidPropertyName) (r : ObjectRef) (name : List Char)
    (v : Val) : FailsWith P (setMember r name v) := by
  refine failsWith_get.bind fun s => ?_
  split
  · exact failsWith_throw hn
  · exact nofun

theorem failsWith_items {items : List Json} (hi : ∀ v ∈ items, FailsWith P (d.value v)) :
    FailsWith P (d.items items) := by
  induction items with
  | nil => exact failsWith_pure _
  | cons v items ih =>
    obtain ⟨hv, hi⟩ := List.forall_mem_cons.1 hi
    rw [Decoder.items]
    exact hv.bind fun _ => (ih hi).bind fun _ => failsWith_pure _

theorem failsWith_entries {members : List (List Char × Json)}
    (hm : ∀ e ∈ members, FailsWith P (d.value e.2)) (a : OrderedArray Val) :
    FailsWith P (d.entries a members) := by
  induction members generalizing a with
  | nil => exact failsWith_pure _
  | cons e members ih =>
    obtain ⟨hv, hm⟩ := List.forall_mem_cons.1 hm
    rw [Decoder.entries]
    exact (failsWith_memberKey e.1).bind fun _ => hv.bind fun _ => ih hm _

theorem failsWith_properties (hn : P .invalidPropertyName) {members : List (List Char × Json)}
    (hm : ∀ e ∈ members, FailsWith P (d.value e.2)) (r : ObjectRef) :
    FailsWith P (d.properties r members) := by
  induction members with
  | nil => exact failsWith_pure _
  | cons e members ih =>
    obtain ⟨hv, hm⟩ := List.forall_mem_cons.1 hm
    rw [Decoder.properties]
    have hrest : FailsWith P (d.value e.2 >>= fun v => setMember r e.1 v >>= fun _ =>
        d.properties r members) :=
      hv.bind fun v => (failsWith_setMember hn r e.1 v).bind fun _ => ih hm
    split
    · exact (failsWith_throw hn).bind fun _ => hrest
    · exact hrest

/-- A decoder fails only where it makes objects, and with two errors only. -/
theorem failsWith_value
    (hP : d.objectsAsArrays = false → P .unsupportedType ∧ P .invalidPropertyName)
    (document : Json) : FailsWith P (d.value document) := by
  induction document using Json.induction with
  | int i =>
    rw [Decoder.value]
    split
    · exact failsWith_pure _
    · split
      · exact failsWith_newString _
      · exact failsWith_pure _
  | string s => exact failsWith_newString _
  | array items ih => exact (failsWith_items ih).bind fun _ => failsWith_newArray _
  | object members ih =>
    rw [Decoder.value]
    cases ho : d.objectsAsArrays with
    | true => exact (failsWith_entries ih ∅).bind fun _ => failsWith_newArray _
    | false =>
      obtain ⟨hu, hn⟩ := hP ho
      exact (failsWith_newObject hu).bind fun r =>
        (failsWith_properties hn ih r).bind fun _ => failsWith_pure _
  | _ => exact failsWith_pure _

end ObjectModel.Json
