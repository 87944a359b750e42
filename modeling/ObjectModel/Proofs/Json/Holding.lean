import ObjectModel.Proofs.Forall2
import ObjectModel.Proofs.Heap.Reachability
import ObjectModel.Proofs.Json.Document
import ObjectModel.Proofs.Utf8
/-!
# Documents held by values

A value holds a document if it is the scalar of the document, a packed array of values that hold the
items, or an object whose slots are public, bear the names of the members in their order and have
values that hold those of the members. A value holds at most one document.

An object is filled after it was created, while other objects are created. What a value holds
therefore depends on the arrays and on the objects from some number on; it stays the same where
these are kept.
-/

namespace ObjectModel

/-- Whether a heap has, among others, the arrays of `h` and those of its objects whose number
satisfies `p`. -/
structure Heap.Keeps (p : Nat → Prop) (h h' : Heap) : Prop where
  arrays : ∀ (i : Nat) (a : OrderedArray Val), h.arrays[i]? = some a → h'.arrays[i]? = some a
  objects : ∀ (i : Nat) (o : Object), p i → h.objects[i]? = some o → h'.objects[i]? = some o

namespace Heap.Keeps

variable {p q : Nat → Prop} {h h' h'' : Heap}

theorem refl (p : Nat → Prop) (h : Heap) : h.Keeps p h := ⟨fun _ _ => id, fun _ _ _ => id⟩

theorem trans (h₁ : h.Keeps p h') (h₂ : h'.Keeps p h'') : h.Keeps p h'' :=
  ⟨fun i a ha => h₂.arrays i a (h₁.arrays i a ha),
    fun i o hi ho => h₂.objects i o hi (h₁.objects i o hi ho)⟩

theorem mono (hk : h.Keeps p h') (hq : ∀ i, q i → p i) : h.Keeps q h' :=
  ⟨hk.arrays, fun i o hi => hk.objects i o (hq i hi)⟩

theorem size_objects_le (hk : h.Keeps (fun _ => True) h') : h.objects.size ≤ h'.objects.size := by
  cases hn : h.objects.size with
  | zero => exact Nat.zero_le _
  | succ n =>
    have hlt : n < h.objects.size := hn ▸ Nat.lt_succ_self n
    have hlast := hk.objects n _ trivial (Array.getElem?_eq_getElem hlt)
    exact (Array.getElem?_eq_some_iff.1 hlast).1

theorem allocText (p : Nat → Prop) (h : Heap) (s : Bytes) : h.Keeps p (h.allocText s).1 :=
  ⟨fun _ _ => id, fun _ _ _ => id⟩

theorem allocArray (p : Nat → Prop) (h : Heap) (a : OrderedArray Val) :
    h.Keeps p (h.allocArray a).1 := by
  refine ⟨fun i b hb => ?_, fun _ _ _ => id⟩
  have hi := (Array.getElem?_eq_some_iff.1 hb).1
  rwa [Heap.allocArray, Array.getElem?_push_lt hi, ← Array.getElem?_eq_getElem]

theorem allocObject (p : Nat → Prop) (h : Heap) (o : Object) :
    h.Keeps p (h.allocObject o).1 := by
  refine ⟨fun _ _ => id, fun i o' _ ho => ?_⟩
  have hi := (Array.getElem?_eq_some_iff.1 ho).1
  rwa [Heap.allocObject, Array.getElem?_push_lt hi, ← Array.getElem?_eq_getElem]

theorem setObject (h : Heap) (r : ObjectRef) (o : Object) :
    h.Keeps (· ≠ r.index) (h.setObject r o) := by
  refine ⟨fun _ _ => id, fun i o' hi ho => ?_⟩
  rwa [Heap.setObject, Array.getElem?_setIfInBounds_ne (Ne.symm hi)]

end Heap.Keeps

namespace Json

/-- Whether a value holds a document in a heap, in objects with numbers from `first` on. -/
inductive HeldBy (h : Heap) (first : Nat) : Json → Val → Prop
  | null : HeldBy h first .null .null
  | bool (b : Bool) : HeldBy h first (.bool b) (.bool b)
  | int (i : Int64) : HeldBy h first (.int i.toInt) (.int i)
  | string (s : List Char) (buffer : Nat) :
    HeldBy h first (.string s) (.str ⟨Bytes.Utf8.encode s, buffer⟩)
  | array {items : List Json} {vs : List Val} {r : ArrayRef}
      (hr : h.arrays[r.index]? = some (.packed vs)) (hi : List.Forall₂ (HeldBy h first) items vs) :
    HeldBy h first (.array items) (.array r)
  | object {members : List (List Char × Json)} {o : Object} {r : ObjectRef}
      (hf : first ≤ r.index) (hr : h.objects[r.index]? = some o)
      (hk : o.slots.keys.map String.toList = members.map Prod.fst)
      (hp : ∀ e ∈ o.slots.entries, e.2.visibility = .isPublic)
      (hv : List.Forall₂ (HeldBy h first) (members.map Prod.snd) o.values) :
    HeldBy h first (.object members) (.object r)

namespace HeldBy

variable {h h' : Heap} {first first' : Nat} {v : Val} {document document' : Json}

/-- A value that holds a document goes on holding it where the objects in question are kept. -/
theorem of_keeps (hv : document.HeldBy h first v) (hk : h.Keeps (first ≤ ·) h')
    (hf : first' ≤ first) : document.HeldBy h' first' v := by
  induction document using Json.induction generalizing v with
  | null => cases hv; exact .null
  | bool b => cases hv; exact .bool b
  | int i => cases hv with | int i => exact .int i
  | float d => cases hv
  | string s => cases hv with | string s buffer => exact .string s buffer
  | array items ih =>
    cases hv with
    | array hr hi =>
      exact .array (hk.arrays _ _ hr) (forall₂_imp_of_mem (fun u hu w => ih u hu) hi)
  | object members ih =>
    cases hv with
    | object hf' hr hkeys hp hm =>
      refine .object (Nat.le_trans hf hf') (hk.objects _ _ hf' hr) hkeys hp ?_
      exact forall₂_imp_of_mem (List.forall_mem_map.2 fun e he w => ih e he) hm

/-- A value holds at most one document. -/
theorem unique (hv : document.HeldBy h first v) (hv' : document'.HeldBy h first' v) :
    document = document' := by
  induction document using Json.induction generalizing v document' with
  | null => cases hv; cases hv'; rfl
  | bool b => cases hv; cases hv'; rfl
  | int i => cases hv; cases hv'; rfl
  | float d => cases hv
  | string s =>
    cases hv with
    | string s buffer =>
      generalize hb : Bytes.Utf8.encode s = bytes at hv'
      cases hv' with
      | string s' buffer => rw [Bytes.Utf8.encode_inj.1 hb]
  | array items ih =>
    cases hv with
    | array hr hi =>
      cases hv' with
      | array hr' hi' =>
        cases hr.symm.trans hr'
        have he := eq_of_forall₂_of_mem (S := HeldBy h first')
          (fun u hu u' w hw hw' => ih u hu hw hw') hi hi'
        rw [he]
  | object members ih =>
    cases hv with
    | object hf hr hk hp hm =>
      cases hv' with
      | object hf' hr' hk' hp' hm' =>
        cases hr.symm.trans hr'
        have hvalues := eq_of_forall₂_of_mem (S := HeldBy h first')
          (List.forall_mem_map.2 fun e he u' w hw hw' => ih e he hw hw') hm hm'
        rw [List.zip_of_prod (hk.symm.trans hk') hvalues, ← List.zip_of_prod rfl rfl]

theorem isReference_eq_false (hv : document.HeldBy h first v) : v.isReference = false := by
  cases hv <;> rfl

theorem isUndefined_eq_false (hv : document.HeldBy h first v) : v.isUndefined = false := by
  cases hv <;> rfl

end HeldBy

end Json

end ObjectModel
