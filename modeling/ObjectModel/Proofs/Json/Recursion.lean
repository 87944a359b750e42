import ObjectModel.Proofs.Json.Walk
import ObjectModel.Session
/-!
# What the writer refuses as recursion

The containers around a value lead to it, so a container that is met among them leads back to itself:
what is refused as recursion shows a cycle. The other way round, whatever can be read through a value
that has a text was entered on the way, and was none of the containers around it; so none of it leads
back to itself. A container that is met twice, but not inside itself, is written twice.
-/

namespace ObjectModel

open Relation

theorem Heap.ShowsCycle.of_shows {h : Heap} {v u : Val} (hv : h.Shows v u) (hu : h.ShowsCycle u) :
    h.ShowsCycle v := by
  obtain ⟨c, hc, huc, hcycle⟩ := hu
  exact ⟨c, hc, huc.head hv, hcycle⟩

namespace Json

theorem encodeText_ne_recursion (style : JsonStyle) (s : Bytes) :
    encodeText style s ≠ .error .recursion := by
  intro h
  rw [encodeText] at h
  split at h <;> cases h

theorem encodeDouble_ne_recursion (style : JsonStyle) (precision : Int) (d : Double) :
    encodeDouble style precision d ≠ .error .recursion := by
  intro h
  rw [encodeDouble] at h
  split at h <;> cases h

namespace Writer

variable {w : Writer} {outer inner : List Val} {v : Val} {r : Except JsonError (List Char)}
  {write : Val → Except JsonError (List Char)} {depth : Nat}

theorem writeScalar_ne_recursion (w : Writer) (v : Val) : w.writeScalar v ≠ .error .recursion := by
  intro h
  cases v with
  | bool b => cases b <;> cases h
  | float d => exact encodeDouble_ne_recursion w.style w.precision d h
  | str s => exact encodeText_ne_recursion w.style s.bytes h
  | _ => cases h

theorem mem_of_enter_eq_recursion (he : w.enter outer v = .error .recursion) : v ∈ outer := by
  rw [enter] at he
  split at he
  next hm => exact List.contains_iff_mem.1 hm
  next => split at he <;> cases he

theorem exists_of_writeMembers_eq_recursion {members : List (Bytes × Val)}
    (h : w.writeMembers write depth members = .error .recursion) :
    ∃ e ∈ members, write e.2 = .error .recursion := by
  obtain h | ⟨_, -, h⟩ := eq_error_of_bind_eq_error h
  · obtain ⟨⟨name, x⟩, hx, h⟩ := exists_of_mapM_eq_error h
    obtain h | ⟨_, -, h⟩ := eq_error_of_bind_eq_error h
    · exact absurd h (encodeText_ne_recursion w.style name)
    · obtain h | ⟨_, -, h⟩ := eq_error_of_bind_eq_error h
      · exact ⟨_, hx, h⟩
      · cases h
  · cases h

theorem exists_of_writeMembers_eq_ok {members : List (Bytes × Val)} {text : List Char}
    (h : w.writeMembers write depth members = .ok text) :
    ∀ e ∈ members, ∃ text, write e.2 = .ok text := by
  intro ⟨name, x⟩ hx
  obtain ⟨_, h, -⟩ := exists_of_bind_eq_ok h
  obtain ⟨_, h⟩ := exists_of_mapM_eq_ok h _ hx
  obtain ⟨_, -, h⟩ := exists_of_bind_eq_ok h
  obtain ⟨text, h, -⟩ := exists_of_bind_eq_ok h
  exact ⟨text, h⟩

/-- A container is refused as recursion only if a value in it is. -/
theorem exists_of_writeContainer_eq_recursion
    (h : w.writeContainer write depth v = .error .recursion) :
    ∃ u, w.heap.Shows v u ∧ write u = .error .recursion := by
  cases v with
  | array a =>
    rw [writeContainer] at h
    split at h
    · obtain ⟨_, he, h⟩ := exists_of_writeMembers_eq_recursion h
      obtain ⟨e, hm, rfl⟩ := List.mem_map.1 he
      exact ⟨e.2, List.mem_map_of_mem hm, h⟩
    · obtain h | ⟨_, -, h⟩ := eq_error_of_bind_eq_error h
      · exact exists_of_mapM_eq_error h
      · cases h
  | object o =>
    obtain ⟨_, he, h⟩ := exists_of_writeMembers_eq_recursion h
    obtain ⟨e, hm, rfl⟩ := List.mem_map.1 he
    exact ⟨e.2, List.mem_map_of_mem hm, h⟩
  | _ => cases h

/-- A container has a text only if every value in it has one. -/
theorem exists_of_writeContainer_eq_ok {text : List Char}
    (h : w.writeContainer write depth v = .ok text) :
    ∀ u, w.heap.Shows v u → ∃ text, write u = .ok text := by
  cases v with
  | array a =>
    intro u hu
    rw [writeContainer] at h
    split at h
    · obtain ⟨e, he, rfl⟩ := List.mem_map.1 hu
      exact exists_of_writeMembers_eq_ok h _ (List.mem_map_of_mem he)
    · obtain ⟨_, h, -⟩ := exists_of_bind_eq_ok h
      exact exists_of_mapM_eq_ok h u hu
  | object o =>
    intro u hu
    obtain ⟨e, he, rfl⟩ := List.mem_map.1 hu
    exact exists_of_writeMembers_eq_ok h _ (List.mem_map_of_mem he)
  | _ => cases h

/-- What is refused as recursion inside containers that lead to it shows a cycle. -/
theorem Writes.showsCycle (h : w.Writes outer v r) (hr : r = .error .recursion)
    (houter : ∀ o ∈ outer, TransGen w.heap.Shows o v) : w.heap.ShowsCycle v := by
  induction h with
  | @reference outer c r _ ih =>
    have hc := w.heap.shows_cell c
    exact .of_shows hc (ih hr fun o ho => (houter o ho).tail hc)
  | @scalar outer v => exact absurd hr (w.writeScalar_ne_recursion v)
  | @refused outer v e hc he =>
    cases hr
    exact ⟨v, hc, .refl, houter v (mem_of_enter_eq_recursion he)⟩
  | @container outer inner v write hc he _ ih =>
    obtain ⟨u, hu, hr'⟩ := exists_of_writeContainer_eq_recursion hr
    obtain ⟨-, -, rfl⟩ := enter_eq_ok_iff.1 he
    refine .of_shows hu (ih u hu hr' (List.forall_mem_cons.2 ⟨.single hu, fun o ho => ?_⟩))
    exact (houter o ho).tail hu

/-- No container that is read through a value with a text is one of those around the value or leads
back to itself. -/
theorem Writes.notMem_of_ok {text : List Char} (h : w.Writes outer v r) (hr : r = .ok text) {c : Val}
    (hc : c.isContainer) (hvc : ReflTransGen w.heap.Shows v c) :
    c ∉ outer ∧ ¬TransGen w.heap.Shows c c := by
  induction h generalizing text c with
  | reference _ ih =>
    obtain rfl | ⟨u, hu, huc⟩ := hvc.cases_head
    · cases hc
    · exact ih hr hc (hu.eq_cell ▸ huc)
  | @scalar outer v hv hr' =>
    obtain rfl | ⟨u, hu, -⟩ := hvc.cases_head
    · exact absurd hc (Bool.eq_false_iff.1 hv)
    · exact absurd hu (Heap.not_shows hv hr')
  | refused => cases hr
  | @container outer inner v write hv he _ ih =>
    obtain ⟨hnot, -, rfl⟩ := enter_eq_ok_iff.1 he
    -- what lies below the container is written inside it
    have hbelow {c : Val} (hc : c.isContainer) (hvc : TransGen w.heap.Shows v c) :
        c ∉ v :: outer ∧ ¬TransGen w.heap.Shows c c := by
      obtain ⟨u, hu, huc⟩ := TransGen.head'_iff.1 hvc
      obtain ⟨_, hu'⟩ := exists_of_writeContainer_eq_ok hr u hu
      exact ih u hu hu' hc huc
    obtain rfl | hvc := reflTransGen_iff_eq_or_transGen.1 hvc
    · exact ⟨hnot, fun hcycle => (hbelow hc hcycle).1 List.mem_cons_self⟩
    · obtain ⟨hm, hcycle⟩ := hbelow hc hvc
      exact ⟨fun ho => hm (List.mem_cons_of_mem _ ho), hcycle⟩

end Writer

end Json

namespace Session

def writer (s : Session) (flags : Int64) (depth? : Option Nat) : Json.Writer where
  heap := s.heap
  style := .ofFlags flags
  precision := s.settings.serializePrecision
  maxDepth := s.jsonDepth depth?

/-- Writing a value comes to an end wherever references do, with one outcome, and that is what a
call reports. It is recursion only if an array or object that can be read through the value can be
read through itself, so never because something is met more than once; and a value with such a cycle
has no text. -/
theorem jsonEncode_detects_cycles (s : Session) (v : Val) (flags : Int64) (depth? : Option Nat)
    (hv : s.heap.ReferencesEnd v) :
    ∃ r, (∀ r', (s.writer flags depth?).Writes [] v r' ↔ r' = r) ∧
      (s.jsonEncode v flags depth?).2 = r.map Bytes.Utf8.encode ∧
      (r = .error .recursion → s.heap.ShowsCycle v) ∧
      (s.heap.ShowsCycle v → ∃ e, r = .error e) := by
  let w := s.writer flags depth?
  let n := s.heap.arrays.size + s.heap.objects.size + 1
  have hroom : w.Reserves n [] :=
    ⟨List.nodup_nil, List.nil_subset _, Nat.lt_succ_self _⟩
  have hw : w.Writes [] v (w.write n [] v) := Json.Writer.writes_write hv hroom
  refine ⟨w.write n [] v, fun r' => ⟨fun h => h.unique hw, fun h => h ▸ hw⟩, rfl,
    fun hr => hw.showsCycle hr nofun, fun ⟨c, hc, hvc, hcycle⟩ => ?_⟩
  cases hr : w.write n [] v with
  | error e => exact ⟨e, rfl⟩
  | ok text => exact absurd hcycle (hw.notMem_of_ok hr hc hvc).2

/-- A heap with an array in which a reference leads back to it, and one that holds another array
twice. -/
def cyclicHeap : Heap where
  arrays := #[.packed [.array ⟨2⟩, .reference ⟨0⟩], .packed [.array ⟨2⟩, .array ⟨2⟩], .packed []]
  cells := #[.array ⟨0⟩]

theorem referencesEnd_cyclicHeap (i : Fin 3) : cyclicHeap.ReferencesEnd (.array ⟨i⟩) := by
  let seen : List Val := [.array ⟨0⟩, .array ⟨1⟩, .array ⟨2⟩, .reference ⟨0⟩]
  have hclosed : ∀ u ∈ seen, ∀ u' ∈ cyclicHeap.shown u, u' ∈ seen := by decide
  refine .of_cells (P := (· ∈ seen)) (by revert i; decide) hclosed fun c hc => ?_
  have hc : c = ⟨0⟩ := by simpa [seen] using hc
  subst hc
  decide

/-- An array is met inside itself through a reference, another one twice in the same place. -/
theorem jsonEncode_detects_cycles_cyclicHeap :
    let s : Session := { (default : Session) with heap := cyclicHeap }
    s.heap.ReferencesEnd (.array ⟨0⟩) ∧ s.heap.ShowsCycle (.array ⟨0⟩) ∧
      (s.jsonEncode (.array ⟨0⟩) 0 none).2 = .error .recursion ∧
      s.heap.ReferencesEnd (.array ⟨1⟩) ∧ ¬s.heap.ShowsCycle (.array ⟨1⟩) ∧
      (s.jsonEncode (.array ⟨1⟩) 0 none).2 = .ok (Bytes.ofString "[[],[]]") := by
  intro s
  have hfirst : s.heap.ReferencesEnd (.array ⟨0⟩) := referencesEnd_cyclicHeap 0
  have hsecond : s.heap.ReferencesEnd (.array ⟨1⟩) := referencesEnd_cyclicHeap 1
  have hrecursion : (s.jsonEncode (.array ⟨0⟩) 0 none).2 = .error .recursion := rfl
  have htext : (s.jsonEncode (.array ⟨1⟩) 0 none).2 = .ok (Bytes.ofString "[[],[]]") := rfl
  obtain ⟨r, -, hr, hcycle, -⟩ := jsonEncode_detects_cycles s _ 0 none hfirst
  obtain ⟨r', -, hr', -, herror⟩ := jsonEncode_detects_cycles s _ 0 none hsecond
  refine ⟨hfirst, hcycle ?_, hrecursion, hsecond, fun hshows => ?_, htext⟩
  · rw [hrecursion] at hr
    cases r with
    | error e =>
      cases hr
      rfl
    | ok text => cases hr
  · obtain ⟨e, rfl⟩ := herror hshows
    rw [htext] at hr'
    cases hr'

end Session

end ObjectModel
