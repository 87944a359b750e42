import ObjectModel.Proofs.Class.Reachable
import ObjectModel.Session
/-!
# Reachable sessions

A session changes its classes in two ways: it declares one, or it is reset and starts over with the
built-in ones. Everything else leaves the classes alone, whatever it does to the heap, to interned
strings, to the outcome of the last JSON call or to the settings. The class of plain objects is the
first to enter an empty table, where its name cannot be taken, and declared classes stay; so every
reachable session has it.
-/

namespace ObjectModel

/-- Whether a class has objects, which start out without properties and may gain any. -/
structure ClassDef.IsOpen (c : ClassDef) : Prop where
  isInstantiable : c.isInstantiable = true
  instanceProperties_eq : c.instanceProperties = ∅
  allowsDynamic : (c.allowsDynamic && !c.isReadonly && !c.isEnum) = true

namespace ClassTable

/-- Classes that are declared one after another, where some may be refused, join those that are
there. -/
theorem extends_foldl (cs : List ClassDef) (t : ClassTable) (h : Heap) :
    t.Extends (cs.foldl
      (fun (t, h) c =>
        match t.declare h c with
        | .ok (t, h, _) => (t, h)
        | .error _ => (t, h))
      (t, h)).1 := by
  apply List.foldlRecOn (motive := fun s : ClassTable × Heap => t.Extends s.1)
  · exact .refl t
  intro s hs c _
  dsimp only
  split
  next hd => exact hs.trans (extends_of_declare hd)
  next => exact hs

/-- The class of plain objects is built in. -/
theorem exists_stdClass_of_initial (generation : Nat) (allowsDynamic : Bool) (h : Heap) :
    ∃ c, (initial generation allowsDynamic h).1.get? "stdClass" = some c ∧ c.IsOpen := by
  have hd : ∃ t' h' c, ({ generation, allowsDynamic } : ClassTable).declare h
        { name := "stdClass", allowsDynamic := true } = .ok (t', h', c) ∧
      c.name = "stdClass" ∧ c.IsOpen := ⟨_, _, _, rfl, rfl, ⟨rfl, rfl, rfl⟩⟩
  obtain ⟨t', h', c, hd, hn, ho⟩ := hd
  have hc : t'.get? "stdClass" = some c := hn ▸ get?_self_of_declare hd
  refine ⟨c, ?_, ho⟩
  rw [initial, builtins, List.foldl_cons]
  dsimp only
  rw [hd]
  exact extends_foldl _ t' h' _ c hc

end ClassTable

namespace Session

/-- Whether a session comes from a new one by declaring classes, by resets and by whatever leaves
its classes alone. -/
inductive Reachable : Session → Prop
  | start (settings : Settings) : Reachable (start settings)
  | declare {s s' : Session} {c d : ClassDef} (hs : Reachable s)
      (hd : s.declare c = .ok (s', d)) : Reachable s'
  | reset {s : Session} (hs : Reachable s) : Reachable s.reset
  | frame {s s' : Session} (hs : Reachable s) (hc : s'.classes = s.classes) : Reachable s'

variable {s s' : Session}

/-- What declaring a class means for the class table of a session. -/
theorem extends_of_declare {c d : ClassDef} (hd : s.declare c = .ok (s', d)) :
    s.classes.Extends s'.classes := by
  obtain ⟨⟨classes, heap, c'⟩, hc, hd⟩ := exists_of_bind_eq_ok hd
  cases hd
  exact ClassTable.extends_of_declare hc

/-- Every reachable session has the class of plain objects. -/
theorem Reachable.exists_stdClass (hs : s.Reachable) :
    ∃ c, s.classes.get? "stdClass" = some c ∧ c.IsOpen := by
  induction hs with
  | start settings =>
    exact ClassTable.exists_stdClass_of_initial 0 settings.allowDynamicProperties {}
  | declare _ hd ih =>
    obtain ⟨c, hc, ho⟩ := ih
    exact ⟨c, extends_of_declare hd _ c hc, ho⟩
  | @reset s _ _ =>
    exact ClassTable.exists_stdClass_of_initial (s.classes.generation + 1)
      s.settings.allowDynamicProperties s.heap
  | frame _ hc ih => exact hc ▸ ih

end Session

end ObjectModel
