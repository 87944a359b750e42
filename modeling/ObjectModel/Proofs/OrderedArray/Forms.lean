import ObjectModel.Proofs.OrderedArray.InPlace
import ObjectModel.Value.Comparison
/-!
# The two forms of an array

A packed array and a hash with the same view cannot be told apart: whatever calls are made on both,
every answer is the same, references are written alike, and the views stay the same. Only
`isPacked`, which is no call here, tells the form.

A call is what a holder of an array does with it. It is a program on the array as it is stored, and a
run carries the stored array from call to call. The other array of a merge is held elsewhere and is
the same for both forms.
-/

namespace ObjectModel

namespace OrderedArray

inductive Call where
  | set (k : Key) (v : Val)
  /-- Assigns to the element under a key, through a reference if it holds one. -/
  | assign (k : Key) (v : Val)
  | append (v : Val)
  | push (v : Val)
  | unset (k : Key)
  | pop
  | shift
  | unshift (v : Val)
  | merge (other : OrderedArray Val)
  | get (k : Key)
  | contains (k : Key)
  | search (v : Val)
  | first
  | last
  | keys
  | values
  | slice (offset : Int) (length? : Option Int)
  | isList

inductive Answer where
  | done
  | truth (b : Bool)
  | value (v? : Option Val)
  | index (i? : Option Int64)
  | count (n? : Option Nat)
  | key (k? : Option Key)
  | entry (e? : Option (Key × Val))
  | array (a : OrderedArray Val)

/-- What a call leads to: its answer, the heap and the array afterwards. -/
abbrev Outcome := Answer × Heap × OrderedArray Val

/-- What is seen after a call: its answer, the heap, the entries and the next index. -/
abbrev Observation := Answer × Heap × List (Key × Val) × Int64

/-- What of an outcome is the same for both forms: all but the form. -/
def Outcome.observe (r : Outcome) : Observation := (r.1, r.2.1, r.2.2.view)

end OrderedArray

namespace Heap

open OrderedArray

/-- Makes a call on an array as it is stored, and returns the answer and the heap. -/
def callInPlace (h : Heap) : Call → StateM (StoredArray Val) (Answer × Heap)
  | .set k v => do StoredArray.insert k v; return (.done, h)
  | .assign k v => do let (found, h) ← h.assignAt k v; return (.truth found, h)
  | .append v => do let i? ← StoredArray.append v; return (.index i?, h)
  | .push v => do let n? ← StoredArray.push v; return (.count n?, h)
  | .unset k => do let v? ← StoredArray.unset k; return (.value v?, h)
  | .pop => do let v? ← StoredArray.pop; return (.value v?, h)
  | .shift => do let v? ← StoredArray.shift; return (.value v?, h)
  | .unshift v => do let n ← StoredArray.unshift v; return (.count n, h)
  | .merge other => do StoredArray.merge other; return (.done, h)
  | .get k => do let a ← get; return (.value (a.toArray.get? k), h)
  | .contains k => do let a ← get; return (.truth (a.toArray.contains k), h)
  | .search v => do let a ← get; return (.key (h.search? a.toArray v), h)
  | .first => do let a ← get; return (.entry a.toArray.first?, h)
  | .last => do let a ← get; return (.entry a.toArray.last?, h)
  | .keys => do let a ← get; let (h, ks) := h.keysAsArray a.toArray; return (.array ks, h)
  | .values => do let a ← get; return (.array (.ofList a.toArray.values), h)
  | .slice offset length? => do let a ← get; return (.array (a.toArray.slice offset length?), h)
  | .isList => do let a ← get; return (.truth a.toArray.isList, h)

def call (h : Heap) (a : OrderedArray Val) (c : Call) : Outcome :=
  let ((answer, h), b) := (h.callInPlace c).run a.stored
  (answer, h, b.toArray)

/-- What is seen of a run of calls on an array as it is stored, after each of them. -/
def observationsInPlace (h : Heap) (a : StoredArray Val) : List Call → List Observation
  | [] => []
  | c :: cs =>
    let ((answer, h), a) := (h.callInPlace c).run a
    (answer, h, a.toArray.entries, a.nextFree) :: observationsInPlace h a cs

/-- What is seen of a run of calls, after each of them. The stored array is carried along, with its
next index. -/
def observations (h : Heap) (a : OrderedArray Val) (calls : List Call) : List Observation :=
  h.observationsInPlace a.stored calls

/-- The heap after a run of calls on an array as it is stored. -/
def runInPlace (h : Heap) (calls : List Call) : StateM (StoredArray Val) Heap :=
  calls.foldlM (fun h c => Prod.snd <$> h.callInPlace c) h

/-- Every call of a run finds an array with fewer than `2 ^ 63` elements. -/
def StaysShort (h : Heap) (a : OrderedArray Val) : List Call → Prop
  | [] => True
  | c :: cs => a.size < 0x8000000000000000 ∧ StaysShort (h.call a c).2.1 (h.call a c).2.2 cs

/-- What a call comes to in terms of the operations on arrays. -/
def outcome (h : Heap) (a : OrderedArray Val) : Call → Outcome
  | .set k v => (.done, h, a.insert k v)
  | .assign k v =>
    match a.get? k with
    | none => (.truth false, h, a)
    | some old => (.truth true, (h.assign old v).1, a.modify k fun _ => (h.assign old v).2)
  | .append v => (.index ((a.append? v).map Prod.fst), h, ((a.append? v).map Prod.snd).getD a)
  | .push v => (.count ((a.push? v).map Prod.fst), h, ((a.push? v).map Prod.snd).getD a)
  | .unset k => (.value (a.toMap.get? k), h, a.erase k)
  | .pop => (.value (a.pop?.map Prod.fst), h, (a.pop?.map Prod.snd).getD a)
  | .shift => (.value (a.shift?.map Prod.fst), h, (a.shift?.map Prod.snd).getD a)
  | .unshift v => (.count (a.unshift v).size, h, a.unshift v)
  | .merge other => (.done, h, a.merge other)
  | .get k => (.value (a.get? k), h, a)
  | .contains k => (.truth (a.contains k), h, a)
  | .search v => (.key (h.search? a v), h, a)
  | .first => (.entry a.first?, h, a)
  | .last => (.entry a.last?, h, a)
  | .keys => (.array (h.keysAsArray a).2, (h.keysAsArray a).1, a)
  | .values => (.array (.ofList a.values), h, a)
  | .slice offset length? => (.array (a.slice offset length?), h, a)
  | .isList => (.truth a.isList, h, a)

section InPlace

open StoredArray

variable (h : Heap) (a : OrderedArray Val)

theorem run_assignAt (k : Key) (v : Val) :
    (h.assignAt k v).run a.stored = match a.get? k with
      | none => ((false, h), a.stored)
      | some old =>
        ((true, (h.assign old v).1), (a.modify k fun _ => (h.assign old v).2).stored) := by
  simp only [assignAt, run_bind, run_get, toArray_stored]
  cases a.get? k with
  | none => rfl
  | some old => simp only [run_bind, run_modifyAt, run_pure]

/-- A call on a stored array is the call on the array, and leaves the result as it is stored. -/
theorem run_callInPlace (c : Call) :
    (h.callInPlace c).run a.stored =
      (((h.outcome a c).1, (h.outcome a c).2.1), (h.outcome a c).2.2.stored) := by
  cases c with
  | set k v => simp only [callInPlace, outcome, run_bind, run_insert, run_pure]
  | assign k v =>
    simp only [callInPlace, outcome, run_bind, run_assignAt]
    cases a.get? k <;> rfl
  | append v => simp only [callInPlace, outcome, run_bind, run_append, run_pure]
  | push v => simp only [callInPlace, outcome, run_bind, run_push, run_pure]
  | unset k => simp only [callInPlace, outcome, run_bind, run_unset, run_pure]
  | pop => simp only [callInPlace, outcome, run_bind, run_pop, run_pure]
  | shift => simp only [callInPlace, outcome, run_bind, run_shift, run_pure]
  | unshift v => simp only [callInPlace, outcome, run_bind, run_unshift, run_pure]
  | merge other => simp only [callInPlace, outcome, run_bind, run_merge, run_pure]
  | _ => simp only [callInPlace, outcome, run_bind, run_get, run_pure, toArray_stored]

theorem call_eq (c : Call) : h.call a c = h.outcome a c := by
  simp only [call, run_callInPlace, toArray_stored]

theorem observations_cons (c : Call) (cs : List Call) :
    h.observations a (c :: cs) =
      (h.call a c).observe :: (h.call a c).2.1.observations (h.call a c).2.2 cs := by
  simp only [observations, observationsInPlace, run_callInPlace, call_eq, toArray_stored,
    nextFree_stored]
  rfl

theorem isCounted_callInPlace {s : StoredArray Val} (hs : s.IsCounted) (c : Call) :
    ((h.callInPlace c).run s).2.IsCounted := by
  rw [← hs.stored_toArray, run_callInPlace]
  exact isCounted_stored _

/-- In a run of calls on a list, the next index that is carried along is the number of elements as
long as they are packed. -/
theorem isCounted_runInPlace (l : List Val) (calls : List Call) :
    ((h.runInPlace calls).run (OrderedArray.ofList l).stored).2.IsCounted := by
  have hl : (OrderedArray.ofList l).stored.IsCounted := isCounted_stored _
  generalize (OrderedArray.ofList l).stored = s at hl
  induction calls generalizing h s with
  | nil => exact hl
  | cons c cs ih => exact ih _ _ (isCounted_callInPlace h hl c)

end InPlace

end Heap

namespace OrderedArray

variable {a b : OrderedArray Val}

theorem size_eq_of_entries_eq {α : Type} {a b : OrderedArray α} (h : a.entries = b.entries) :
    a.size = b.size := by
  rw [← length_entries, h, length_entries]

/-- Operations that return something and a new array, or refuse, look the same if their results
do. -/
theorem outcome_congr {β : Type} (hv : a.view = b.view) {r? s? : Option (β × OrderedArray Val)}
    (hr : r?.map (Prod.map id view) = s?.map (Prod.map id view)) :
    r?.map Prod.fst = s?.map Prod.fst ∧
      ((r?.map Prod.snd).getD a).view = ((s?.map Prod.snd).getD b).view := by
  cases r? with
  | none =>
    cases s? with
    | none => exact ⟨rfl, hv⟩
    | some s => cases hr
  | some r =>
    cases s? with
    | none => cases hr
    | some s =>
      have hs := Prod.ext_iff.1 (Option.some.inj hr)
      exact ⟨congrArg some hs.1, hs.2⟩

theorem map_view_append?_congr (ha : a.Bounded) (hb : b.Bounded) (hv : a.view = b.view)
    (x : Val) :
    (a.append? x).map (Prod.map id view) = (b.append? x).map (Prod.map id view) := by
  obtain ⟨he, hn⟩ := view_eq_iff.1 hv
  have hk : a.keys = b.keys := congrArg (List.map Prod.fst) he
  rw [map_view_append? ha, map_view_append? hb, he, hn, hk]

theorem map_view_push?_congr (ha : a.Bounded) (hb : b.Bounded) (hv : a.view = b.view)
    (x : Val) :
    (a.push? x).map (Prod.map id view) = (b.push? x).map (Prod.map id view) := by
  have hp : ∀ c : OrderedArray Val, (c.push? x).map (Prod.map id view) =
      ((c.append? x).map (Prod.map id view)).map fun r => (r.2.1.length, r.2) := by
    intro c
    rw [push?, Option.map_map, Option.map_map]
    refine congrFun (congrArg Option.map (funext fun r => ?_)) _
    exact Prod.ext (length_entries r.2).symm rfl
  rw [hp, hp, map_view_append?_congr ha hb hv]

/-- One call: arrays with the same view give the same answer and have the same view again. -/
theorem observe_call_congr (h : Heap) (hv : a.view = b.view) (ha : a.size < 0x8000000000000000)
    (c : Call) : (h.call a c).observe = (h.call b c).observe := by
  obtain ⟨he, hn⟩ := view_eq_iff.1 hv
  have hsize : a.size = b.size := size_eq_of_entries_eq he
  have hfa : a.Bounded := .of_size_lt ha
  have hfb : b.Bounded := .of_size_lt (hsize ▸ ha)
  have hget : ∀ k, a.get? k = b.get? k := by
    intro k
    rw [get?_eq_lookup hfa, get?_eq_lookup hfb, he]
  have hkeys : a.keys = b.keys := congrArg (List.map Prod.fst) he
  have hvalues : a.values = b.values := congrArg (List.map Prod.snd) he
  rw [Heap.call_eq, Heap.call_eq]
  cases c with
  | set k v => simp only [Heap.outcome, Outcome.observe, view_insert hfa, view_insert hfb, he, hn]
  | assign k v =>
    simp only [Heap.outcome, hget]
    cases b.get? k with
    | none => simp only [Outcome.observe, hv]
    | some old => simp only [Outcome.observe, view_modify hfa, view_modify hfb, he, hn]
  | append v =>
    obtain ⟨hi, hb⟩ := outcome_congr hv (map_view_append?_congr hfa hfb hv v)
    simp only [Heap.outcome, Outcome.observe, hi, hb]
  | push v =>
    obtain ⟨hi, hb⟩ := outcome_congr hv (map_view_push?_congr hfa hfb hv v)
    simp only [Heap.outcome, Outcome.observe, hi, hb]
  | unset k =>
    have htaken : a.toMap.get? k = b.toMap.get? k := by
      rw [OrderedMap.get?, OrderedMap.get?, hfa.entries_toMap, hfb.entries_toMap, he]
    simp only [Heap.outcome, Outcome.observe, htaken, view_erase hfa, view_erase hfb, he, hn]
  | pop =>
    have hr : a.pop?.map (Prod.map id view) = b.pop?.map (Prod.map id view) := by
      rw [map_view_pop? hfa, map_view_pop? hfb, he, hn]
    obtain ⟨hi, hb⟩ := outcome_congr hv hr
    simp only [Heap.outcome, Outcome.observe, hi, hb]
  | shift =>
    have hr : a.shift?.map (Prod.map id view) = b.shift?.map (Prod.map id view) := by
      rw [map_view_shift? hfa, map_view_shift? hfb, he, hn]
    obtain ⟨hi, hb⟩ := outcome_congr hv hr
    simp only [Heap.outcome, Outcome.observe, hi, hb]
  | unshift v =>
    have hu : (a.unshift v).view = (b.unshift v).view := by
      rw [view_unshift ha, view_unshift (hsize ▸ ha), he]
    have hl := size_eq_of_entries_eq (view_eq_iff.1 hu).1
    simp only [Heap.outcome, Outcome.observe, hu, hl]
  | merge other =>
    have hm : (a.merge other).view = (b.merge other).view :=
      view_foldl_adopt_congr hfa hfb hv other.entries
    simp only [Heap.outcome, Outcome.observe, hm]
  | get k => simp only [Heap.outcome, Outcome.observe, hget, hv]
  | contains k => simp only [Heap.outcome, Outcome.observe, OrderedArray.contains, hget, hv]
  | search v => simp only [Heap.outcome, Outcome.observe, Heap.search?, findKey?, he, hv]
  | first => simp only [Heap.outcome, Outcome.observe, first?, he, hv]
  | last => simp only [Heap.outcome, Outcome.observe, last?, he, hv]
  | keys => simp only [Heap.outcome, Outcome.observe, Heap.keysAsArray, hkeys, hv]
  | values => simp only [Heap.outcome, Outcome.observe, hvalues, hv]
  | slice offset length? =>
    simp only [Heap.outcome, Outcome.observe, slice_eq hfa, slice_eq hfb, he, hv]
  | isList => simp only [Heap.outcome, Outcome.observe, isList_eq, he, hv]

/-- A run of calls looks the same on two arrays that have the same entries in the same order and
the same next index, whatever their forms are and whenever they change. -/
theorem observations_eq_of_same_entries (h : Heap) (a b : OrderedArray Val)
    (he : a.entries = b.entries) (hn : a.next = b.next) (calls : List Call)
    (hs : h.StaysShort a calls) : h.observations a calls = h.observations b calls := by
  induction calls generalizing h a b with
  | nil => rfl
  | cons c cs ih =>
    have hstep := observe_call_congr h (view_eq_iff.2 ⟨he, hn⟩) hs.1 c
    -- the calls that follow are made on the same heap and on arrays of the same view
    have hheap : (h.call a c).2.1 = (h.call b c).2.1 := congrArg (·.2.1) hstep
    have hview : (h.call a c).2.2.view = (h.call b c).2.2.view := congrArg (·.2.2) hstep
    obtain ⟨he', hn'⟩ := view_eq_iff.1 hview
    rw [Heap.observations_cons, Heap.observations_cons, hstep, ← hheap, ih _ _ _ he' hn' hs.2]

/-- A list is converted half-way through the run, a hash is one from the start. -/
theorem observations_packed_pair :
    let a : OrderedArray Val := packed [.int 1, .null]
    let b : OrderedArray Val := hash (.ofList [(.int 0, .int 1), (.int 1, .null)]) 2
    let calls : List Call :=
      [.append (.bool true), .pop, .assign (.int 1) (.int 7), .set (.str [0x6B]) .null, .shift,
        .unshift .null, .isList]
    a.entries = b.entries ∧ a.next = b.next ∧ ({} : Heap).StaysShort a calls ∧
      ({} : Heap).observations a calls = ({} : Heap).observations b calls := by
  intro a b calls
  have he : a.entries = b.entries := by decide
  have hn : a.next = b.next := by decide
  have hs : ({} : Heap).StaysShort a calls := by
    simp only [Heap.StaysShort, calls, and_true]
    decide
  exact ⟨he, hn, hs, observations_eq_of_same_entries _ a b he hn calls hs⟩

end OrderedArray

end ObjectModel
