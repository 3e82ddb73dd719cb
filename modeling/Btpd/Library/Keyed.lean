import Mathlib

/-!
# Objects found by key, with a cursor

What the user of a table sees: a finite set of objects that are found by key, up to a
relation between keys, and a cursor that shows the objects in an order that the table
chooses.  What an operation answers is constrained by `Allows`; what it leaves follows from
the answer.
-/

namespace Btpd.Keyed

variable {Obj Key : Type}

/-- A cursor under way: the objects at its start, those it showed before the one that it
shows now, and those that have been deleted through it. -/
structure Visit (Obj : Type) where
  start : Finset Obj
  earlier : List Obj
  current : Obj
  deleted : Finset Obj

/-- Everything the cursor has shown, the last one first. -/
def Visit.seen (v : Visit Obj) : List Obj := v.current :: v.earlier

/-- The cursor after its answer. -/
def Visit.moved (v : Visit Obj) (ans : Option Obj) : Option (Visit Obj) :=
  ans.map fun o => { v with earlier := v.seen, current := o }

/-- The objects, the keys of all objects (also of those outside) and the cursor. -/
structure Store (Obj Key : Type) where
  key : Obj → Key
  objs : Finset Obj
  visit : Option (Visit Obj)

inductive Op (Obj Key : Type)
  /-- The user gives an object of its own another key. -/
  | write (o : Obj) (k : Key)
  | insert (o : Obj)
  | find (k : Key)
  | remove (k : Key)
  | first
  | next
  | delete

namespace Store

variable [DecidableEq Obj] {same : Key → Key → Prop} {s : Store Obj Key} {op : Op Obj Key}
  {ans : Option Obj} {v : Visit Obj} {o : Obj}

/-- What the user may do: it changes no object of the table, inserts no key that is there
already, and moves no cursor that has reached the end or was left by a change. -/
def Legal (same : Key → Key → Prop) (s : Store Obj Key) : Op Obj Key → Prop
  | .write o _ => o ∉ s.objs
  | .insert o => ∀ x ∈ s.objs, ¬same (s.key x) (s.key o)
  | .next | .delete => s.visit ≠ none
  | .find _ | .remove _ | .first => True

/-- The answer to a search. -/
def Found (same : Key → Key → Prop) (s : Store Obj Key) (k : Key) (ans : Option Obj) : Prop :=
  ∀ o, ans = some o ↔ o ∈ s.objs ∧ same (s.key o) k

/-- A cursor shows one of the objects that are left, and ends when none is. -/
def Shows (left : Finset Obj) : Option Obj → Prop
  | none => left = ∅
  | some o => o ∈ left

/-- What an operation may answer. -/
def Allows (same : Key → Key → Prop) (s : Store Obj Key) (ans : Option Obj) :
    Op Obj Key → Prop
  | .write _ _ | .insert _ => ans = none
  | .find k | .remove k => s.Found same k ans
  | .first => Shows s.objs ans
  | .next | .delete => ∀ v, s.visit = some v → Shows (v.start \ v.seen.toFinset) ans

/-- What an operation leaves behind when it has answered. -/
def after (s : Store Obj Key) (ans : Option Obj) : Op Obj Key → Store Obj Key
  | .write o k => { s with key := Function.update s.key o k }
  | .insert o => { s with objs := insert o s.objs, visit := none }
  | .find _ => s
  | .remove _ => { s with objs := ans.elim s.objs s.objs.erase, visit := none }
  | .first => { s with visit := ans.map fun o => ⟨s.objs, [], o, ∅⟩ }
  | .next => { s with visit := s.visit.bind fun v => v.moved ans }
  | .delete =>
      match s.visit with
      | none => s
      | some v => {
          s with
          objs := s.objs.erase v.current
          visit := Visit.moved { v with deleted := insert v.current v.deleted } ans }

/-- What is true of a cursor: it has shown nothing twice and nothing that was not there at
its start, and the objects are those of its start without the ones deleted through it. -/
structure Ordered (s : Store Obj Key) (v : Visit Obj) : Prop where
  once : v.seen.Nodup
  known : ∀ o ∈ v.seen, o ∈ v.start
  kept : s.objs = v.start \ v.deleted

/-- A cursor that shows an object that is left. -/
theorem Ordered.show (ordered : s.Ordered v) (shown : Shows (v.start \ v.seen.toFinset) (some o)) :
    s.Ordered { v with earlier := v.seen, current := o } := by
  obtain ⟨there, fresh⟩ := Finset.mem_sdiff.mp shown
  rw [List.mem_toFinset] at fresh
  refine ⟨List.nodup_cons.mpr ⟨fresh, ordered.once⟩, ?_, ordered.kept⟩
  exact List.forall_mem_cons.mpr ⟨there, ordered.known⟩

/-- The object that the cursor shows is deleted. -/
theorem Ordered.delete (ordered : s.Ordered v) :
    Ordered { s with objs := s.objs.erase v.current }
      { v with deleted := insert v.current v.deleted } := by
  refine ⟨ordered.once, ordered.known, ?_⟩
  dsimp only
  rw [ordered.kept, ← Finset.sdiff_singleton_eq_erase, Finset.insert_eq, Finset.union_comm,
    sdiff_sdiff_left]
  rfl

/-- A cursor keeps its promise, whatever the operation and its answer. -/
theorem ordered_after (before : ∀ v, s.visit = some v → s.Ordered v)
    (allowed : s.Allows same ans op) (visit : (s.after ans op).visit = some v) :
    (s.after ans op).Ordered v := by
  cases op with
  | write o k => exact ⟨(before v visit).once, (before v visit).known, (before v visit).kept⟩
  | insert o => exact absurd visit nofun
  | find k => exact before v visit
  | remove k => exact absurd visit nofun
  | first =>
      cases ans with
      | none => exact absurd visit nofun
      | some o =>
          cases visit
          exact ⟨List.nodup_singleton o, List.forall_mem_singleton.mpr allowed,
            Finset.sdiff_empty.symm⟩
  | next =>
      obtain ⟨u, under, moved⟩ := Option.bind_eq_some_iff.mp visit
      cases ans with
      | none => cases moved
      | some o =>
          cases moved
          have ordered := (before u under).show (allowed u under)
          exact ⟨ordered.once, ordered.known, ordered.kept⟩
  | delete =>
      cases under : s.visit with
      | none =>
          simp only [after, under] at visit
          exact absurd visit nofun
      | some u =>
          simp only [after, under] at visit ⊢
          cases ans with
          | none => exact absurd visit nofun
          | some o =>
              cases visit
              have ordered := ((before u under).delete).show (allowed u under)
              exact ⟨ordered.once, ordered.known, ordered.kept⟩

/-- At the end of a cursor it has shown everything that was there at its start. -/
theorem Ordered.complete (ordered : s.Ordered v) (ended : Shows (v.start \ v.seen.toFinset) none) :
    v.seen.toFinset = v.start := by
  apply Finset.Subset.antisymm
  · intro o mem
    exact ordered.known o (List.mem_toFinset.mp mem)
  · exact Finset.sdiff_eq_empty_iff_subset.mp ended

end Store

end Btpd.Keyed
