import Btpd.Library.Keyed
import Btpd.Hashtable.Iteration

/-!
# The table is a finite map

A run of calls on the table is a run of the operations on a finite set of objects with keys
and a cursor, whatever the hash function, the ratio and the memory for growth.
-/

namespace Btpd.Hashtable

open Keyed

variable {Obj Key : Type} [DecidableEq Obj] {par : Params Key} {u u' : User Obj Key}
  {m : Store Obj Key} {tbl : Htbl Obj Key} {rs : List (List Obj)} {objs : Finset Obj}
  {fuel : Nat} {o : Obj} {key : Key} {link : Option Obj} {ans : Option Obj} {v : Visit Obj}

/-- Keys that are equal to the table. -/
def Params.same (par : Params Key) (k k' : Key) : Prop := par.eq k k' = true

/-- What an event is to the user of a finite map. -/
def Event.op : Event Obj Key → Op Obj Key
  | .write o key _ => .write o key
  | .insert o _ => .insert o
  | .find key => .find key
  | .remove key => .remove key
  | .iterFirst => .first
  | .iterNext => .next
  | .iterDel => .delete

/-- The iterator stands on the object that the cursor shows, and what the cursor has not
shown yet is what stands behind it. -/
def Shown (rs : List (List Obj)) (it : Option (Iter Obj)) (v : Visit Obj) : Prop :=
  ∃ i before left, it = some i ∧ Position rs i before left ∧ i.obj = v.current ∧
    ∀ o, o ∈ left ↔ o ∈ v.start \ v.seen.toFinset

/-- The table and the iterator stand for the finite map. -/
structure Represents (par : Params Key) (u : User Obj Key) (m : Store Obj Key) : Prop where
  key : u.tbl.key = m.key
  ordered : ∀ v, m.visit = some v → m.Ordered v
  table : ∃ rs, Holds par u.tbl rs m.objs ∧ ∀ v, m.visit = some v → Shown rs u.it v

/-- The owner of an object that is not in the table writes to it. -/
theorem Holds.write (holds : Holds par tbl rs objs) (out : o ∉ objs) :
    Holds par { tbl.setChain o link with key := Function.update tbl.key o key } rs objs := by
  have away : ∀ x ∈ objs, x ≠ o := by
    rintro x mem rfl
    exact out mem
  refine ⟨⟨holds.rows.count, fun i head row bucket here => ?_, fun i row here x mem => ?_⟩,
    holds.buckets, holds.mem, holds.size, fun x mem y mem' => ?_⟩
  · refine (holds.rows.linked i head row bucket here).update fun mem => ?_
    exact out (holds.mem_of_row here mem)
  · dsimp only
    rw [Function.update_of_ne (away x (holds.mem_of_row here mem))]
    exact holds.rows.homed i row here x mem
  · dsimp only
    rw [Function.update_of_ne (away x mem), Function.update_of_ne (away y mem')]
    exact holds.distinct x mem y mem'

/-- A cursor that has moved to the next object. -/
theorem Shown.moved {i : Iter Obj} {before left : List Obj} {x : Obj} {deleted : Finset Obj}
    (nodup : (x :: left).Nodup) (pos : Position rs i before left) (obj : i.obj = x)
    (rest : ∀ o, o ∈ x :: left ↔ o ∈ v.start \ v.seen.toFinset) :
    Shown rs (some i) { v with earlier := v.seen, current := x, deleted := deleted } := by
  refine ⟨i, before, left, rfl, pos, obj, fun o => ?_⟩
  obtain ⟨other, -⟩ := List.nodup_cons.mp nodup
  have rest := rest o
  rw [Finset.mem_sdiff, List.mem_toFinset, List.mem_cons] at rest
  rw [Finset.mem_sdiff, List.mem_toFinset]
  constructor
  · intro mem
    obtain ⟨there, fresh⟩ := rest.mp (.inr mem)
    refine ⟨there, fun seen => ?_⟩
    rcases List.mem_cons.mp seen with rfl | seen
    · exact other mem
    · exact fresh seen
  · rintro ⟨there, fresh⟩
    rcases rest.mpr ⟨there, fun seen => fresh (List.mem_cons_of_mem x seen)⟩ with rfl | mem
    · exact absurd List.mem_cons_self fresh
    · exact mem

omit [DecidableEq Obj] in
/-- What is behind an iterator stands there once. -/
theorem Position.nodup {i : Iter Obj} {before left : List Obj} (holds : Holds par tbl rs objs)
    (pos : Position rs i before left) : (i.obj :: left).Nodup := by
  have nodup := holds.rows.nodup
  rw [pos.flatten] at nodup
  exact (List.nodup_append'.mp nodup).2.1

/-- What a step answers is what the map allows, and the table stands for the map after it. -/
structure Agrees (par : Params Key) (m : Store Obj Key) (op : Op Obj Key) (ans : Option Obj)
    (u' : User Obj Key) : Prop where
  allowed : m.Allows par.same ans op
  key : u'.tbl.key = (m.after ans op).key
  table : ∃ rs, Holds par u'.tbl rs (m.after ans op).objs ∧
    ∀ v, (m.after ans op).visit = some v → Shown rs u'.it v

theorem agrees_write (rep : Represents par u m) (out : o ∉ m.objs) :
    Agrees par m (.write o key) none
      { u with tbl := { u.tbl.setChain o link with key := Function.update u.tbl.key o key } } := by
  obtain ⟨rs, holds, shown⟩ := rep.table
  refine ⟨rfl, ?_, rs, holds.write out, shown⟩
  simp only [Store.after]
  rw [rep.key]

theorem agrees_insert (rep : Represents par u m) (legal : m.Legal par.same (.insert o))
    (enough : m.objs.card + 1 < fuel) (memory : Bool) :
    ∃ ans u', step par fuel u (.insert o memory) = some (ans, u') ∧
      Agrees par m (.insert o) ans u' := by
  obtain ⟨rs, holds, -⟩ := rep.table
  have absent : ∀ x ∈ m.objs, ¬par.eq (u.tbl.key x) (u.tbl.key o) = true := by
    rw [rep.key]
    exact legal
  obtain ⟨tbl', rs', inserted, holds', key⟩ := htblInsert_spec memory holds absent enough
  refine ⟨none, { u with tbl := tbl' }, ?_, rfl, key.trans rep.key, rs', holds', nofun⟩
  dsimp only [step]
  rw [inserted]
  rfl

theorem agrees_find (rep : Represents par u m) (enough : m.objs.card + 1 < fuel) :
    ∃ ans u', step par fuel u (.find key) = some (ans, u') ∧ Agrees par m (.find key) ans u' := by
  obtain ⟨rs, holds, shown⟩ := rep.table
  obtain ⟨ret, found, only⟩ := htblFind_spec key holds (Nat.lt_of_succ_lt enough)
  refine ⟨ret, u, ?_, ?_, rep.key, rs, holds, shown⟩
  · dsimp only [step]
    rw [found]
    rfl
  · rw [rep.key] at only
    exact only

theorem agrees_remove (rep : Represents par u m) (enough : m.objs.card + 1 < fuel) :
    ∃ ans u', step par fuel u (.remove key) = some (ans, u') ∧
      Agrees par m (.remove key) ans u' := by
  obtain ⟨rs, holds, -⟩ := rep.table
  obtain ⟨ret, tbl', rs', removed, only, holds', same⟩ :=
    htblRemove_spec key holds (Nat.lt_of_succ_lt enough)
  refine ⟨ret, { u with tbl := tbl' }, ?_, ?_, same.trans rep.key, rs', holds', nofun⟩
  · dsimp only [step]
    rw [removed]
    rfl
  · rw [rep.key] at only
    exact only

theorem agrees_first (rep : Represents par u m) :
    ∃ ans u', step par fuel u .iterFirst = some (ans, u') ∧ Agrees par m .first ans u' := by
  obtain ⟨rs, holds, -⟩ := rep.table
  rcases htblIterFirst_spec holds with ⟨empty, ended⟩ | ⟨it, left, found, pos⟩
  · refine ⟨none, u.iterated none |>.2, ?_, empty, rep.key, rs, holds, nofun⟩
    dsimp only [step]
    rw [ended]
    rfl
  · refine ⟨some it.obj, { u with it := some it }, ?_, pos.mem holds, rep.key, rs, holds, ?_⟩
    · dsimp only [step]
      rw [found]
      rfl
    · rintro v ⟨⟩
      refine ⟨it, [], left, rfl, pos, rfl, fun o => ?_⟩
      obtain ⟨other, -⟩ := List.nodup_cons.mp (pos.nodup holds)
      have whole := holds.mem o
      rw [pos.flatten, List.nil_append, List.mem_cons] at whole
      rw [Finset.mem_sdiff, List.mem_toFinset, ← whole]
      constructor
      · intro mem
        refine ⟨.inr mem, fun seen => ?_⟩
        cases List.mem_singleton.mp seen
        exact other mem
      · rintro ⟨rfl | mem, fresh⟩
        · exact absurd List.mem_cons_self fresh
        · exact mem

theorem agrees_next (rep : Represents par u m) (legal : m.Legal par.same .next) :
    ∃ ans u', step par fuel u .iterNext = some (ans, u') ∧ Agrees par m .next ans u' := by
  obtain ⟨rs, holds, shown⟩ := rep.table
  obtain ⟨v, under⟩ := Option.ne_none_iff_exists'.mp legal
  obtain ⟨it, before, left, set, pos, obj, rest⟩ := shown v under
  rcases htblIterNext_spec holds pos with ⟨rfl, ended⟩ | ⟨x, left', it', rfl, found, obj', pos'⟩
  · refine ⟨none, u, ?_, ?_, rep.key, rs, holds, ?_⟩
    · dsimp only [step]
      rw [set, Option.bind_eq_bind, Option.bind_some, ended]
      rfl
    · intro w cursor
      cases under.symm.trans cursor
      exact Finset.eq_empty_of_forall_notMem fun o mem => List.not_mem_nil ((rest o).mpr mem)
    · intro w cursor
      simp only [Store.after, under, Visit.moved] at cursor
      cases cursor
  · refine ⟨some x, { u with it := some it' }, ?_, ?_, rep.key, rs, holds, ?_⟩
    · dsimp only [step]
      rw [set, Option.bind_eq_bind, Option.bind_some, found, ← obj']
      rfl
    · intro w cursor
      cases under.symm.trans cursor
      exact (rest x).mp List.mem_cons_self
    · intro w cursor
      simp only [Store.after, under, Visit.moved] at cursor
      cases cursor
      exact Shown.moved (List.nodup_cons.mp (pos.nodup holds)).2 pos' obj' rest

theorem agrees_delete (rep : Represents par u m) (legal : m.Legal par.same .delete) :
    ∃ ans u', step par fuel u .iterDel = some (ans, u') ∧ Agrees par m .delete ans u' := by
  obtain ⟨rs, holds, shown⟩ := rep.table
  obtain ⟨v, under⟩ := Option.ne_none_iff_exists'.mp legal
  obtain ⟨it, before, left, set, pos, obj, rest⟩ := shown v under
  obtain ⟨tbl', rs', holds', key, moved⟩ := htblIterDel_spec holds pos
  have kept : ∀ ans, (m.after ans .delete).objs = m.objs.erase it.obj := fun ans => by
    simp only [Store.after, under, obj]
  have keys : ∀ ans, (m.after ans .delete).key = m.key := fun ans => by
    simp only [Store.after, under]
  rcases moved with ⟨rfl, ended⟩ | ⟨x, left', it', rfl, found, obj', pos'⟩
  · refine ⟨none, { u with tbl := tbl' }, ?_, ?_, ?_, rs', kept none ▸ holds', ?_⟩
    · dsimp only [step]
      rw [set, Option.bind_eq_bind, Option.bind_some, ended, ← set]
      rfl
    · intro w cursor
      cases under.symm.trans cursor
      exact Finset.eq_empty_of_forall_notMem fun o mem => List.not_mem_nil ((rest o).mpr mem)
    · rw [keys]
      exact key.trans rep.key
    · intro w cursor
      simp only [Store.after, under, Visit.moved] at cursor
      cases cursor
  · refine ⟨some x, ⟨tbl', some it'⟩, ?_, ?_, ?_, rs', kept (some x) ▸ holds', ?_⟩
    · dsimp only [step]
      rw [set, Option.bind_eq_bind, Option.bind_some, found, ← obj']
      rfl
    · intro w cursor
      cases under.symm.trans cursor
      exact (rest x).mp List.mem_cons_self
    · rw [keys]
      exact key.trans rep.key
    · intro w cursor
      simp only [Store.after, under, Visit.moved] at cursor
      cases cursor
      exact Shown.moved (List.nodup_cons.mp (pos.nodup holds)).2 pos' obj' rest

/-- Every event that the user may cause is answered as the map allows. -/
theorem step_spec (rep : Represents par u m) (e : Event Obj Key)
    (legal : m.Legal par.same e.op) (enough : m.objs.card + 1 < fuel) :
    ∃ ans u', step par fuel u e = some (ans, u') ∧ Agrees par m e.op ans u' := by
  cases e with
  | write o key chain => exact ⟨none, _, rfl, agrees_write rep legal⟩
  | insert o memory => exact agrees_insert rep legal enough memory
  | find key => exact agrees_find rep enough
  | remove key => exact agrees_remove rep enough
  | iterFirst => exact agrees_first rep
  | iterNext => exact agrees_next rep legal
  | iterDel => exact agrees_delete rep legal

/-! ## Runs -/

/-- The runs of a table, next to the map that the user has in mind.  The walks along chains
are given more steps than there are objects. -/
inductive Run (par : Params Key) : User Obj Key → Store Obj Key → Prop
  | create (key : Obj → Key) (chain : Obj → Option Obj) :
      Run par ⟨htblCreate key chain, none⟩ ⟨key, ∅, none⟩
  | step {u u' : User Obj Key} {m : Store Obj Key} {ans : Option Obj} (e : Event Obj Key)
      (fuel : Nat) : Run par u m → m.Legal par.same e.op → m.objs.card + 1 < fuel →
      step par fuel u e = some (ans, u') → Run par u' (m.after ans e.op)

theorem represents_create {key : Obj → Key} {chain : Obj → Option Obj} :
    Represents par ⟨htblCreate key chain, none⟩ ⟨key, ∅, none⟩ := by
  have rows : Rows par (htblCreate key chain) [[]] :=
    rows_replicate (htblCreate key chain) 1
  refine ⟨rfl, nofun, [[]], ⟨rows, Nat.one_pos, ?_, rfl, nofun⟩, nofun⟩
  simp

theorem represents_of_run (run : Run par u m) : Represents par u m := by
  induction run with
  | create key chain => exact represents_create
  | @step u u' m ans e fuel _ legal enough stepped ih =>
      obtain ⟨_, _, returned, agrees⟩ := step_spec ih e legal enough
      cases stepped.symm.trans returned
      exact ⟨agrees.key, fun v => Store.ordered_after ih.ordered agrees.allowed, agrees.table⟩

/-- After every run, the size is the number of objects, an iteration under way has shown no
object twice and none that it did not find at its start, and every call returns what a finite
map answers; an iteration that ends has shown everything that was there at its start. -/
theorem finite_map_of_run (run : Run par u m) :
    u.tbl.size = m.objs.card ∧ (∀ v, m.visit = some v → m.Ordered v) ∧
      ∀ e fuel, m.Legal par.same e.op → m.objs.card + 1 < fuel →
        ∃ ans u', step par fuel u e = some (ans, u') ∧ m.Allows par.same ans e.op ∧
          (e = .iterNext ∨ e = .iterDel → ans = none →
            ∀ v, m.visit = some v → v.seen.toFinset = v.start) := by
  have rep := represents_of_run run
  obtain ⟨rs, holds, -⟩ := rep.table
  refine ⟨holds.size.trans holds.card, rep.ordered, fun e fuel legal enough => ?_⟩
  obtain ⟨ans, u', returned, agrees⟩ := step_spec rep e legal enough
  refine ⟨ans, u', returned, agrees.allowed, ?_⟩
  rintro (rfl | rfl) rfl v under
  · exact (rep.ordered v under).complete (agrees.allowed v under)
  · exact (rep.ordered v under).complete (agrees.allowed v under)

/-- Keys that meet in the bucket of their parity, and a table that grows when it has more
objects than buckets. -/
def parity : Params Nat where
  eq k k' := k == k'
  hash k := (k % 2).toUInt32
  exceeds size buckcnt := buckcnt < size
  equivalence := ⟨fun k => beq_self_eq_true k, fun same => (beq_iff_eq.mp same) ▸ beq_self_eq_true _,
    fun same same' => (beq_iff_eq.mp same) ▸ same'⟩
  hash_eq _ _ same := (beq_iff_eq.mp same) ▸ rfl

/-- Three objects, the second of which made the table grow, and an iterator that has deleted
the object that it showed first. -/
theorem run_three :
    ∃ u m v, Run parity u m ∧ m.visit = some v ∧ m.objs = {0, 1} ∧ v.seen = [0, 2] ∧
      v.start = {0, 1, 2} := by
  have created : Run parity ⟨htblCreate (fun o : Nat => o) fun _ => none, none⟩ _ := .create _ _
  have one := created.step (.insert 0 true) 9 nofun (by decide) rfl
  have new : ∀ x ∈ ({0} : Finset Nat), ¬(x == 1) = true := by decide
  have two := one.step (.insert 1 true) 9 new (by decide) rfl
  have newer : ∀ x ∈ ({1, 0} : Finset Nat), ¬(x == 2) = true := by decide
  have three := two.step (.insert 2 true) 9 newer (by decide) rfl
  have shown := three.step .iterFirst 9 trivial (by decide) rfl
  have deleted := shown.step .iterDel 9 nofun (by decide) rfl
  exact ⟨_, _, _, deleted, rfl, by decide, rfl, by decide⟩

/-- The one object that is left is shown next. -/
theorem finite_map_of_run_three : ∃ u m, Run parity u m ∧ u.tbl.size = 2 ∧
    ∃ u', step parity 9 u .iterNext = some (some 1, u') := by
  obtain ⟨u, m, v, run, under, objs, seen, start⟩ := run_three
  have card : m.objs.card = 2 := by
    rw [objs]
    decide
  obtain ⟨size, -, answers⟩ := finite_map_of_run run
  have going : m.visit ≠ none := by
    rw [under]
    exact Option.some_ne_none v
  obtain ⟨ans, u', returned, allowed, -⟩ := answers .iterNext 9 going (by rw [card]; decide)
  have left := allowed v under
  have only : ({0, 1, 2} : Finset Nat) \ [0, 2].toFinset = {1} := by decide
  rw [start, seen, only] at left
  cases ans with
  | none => exact absurd left (Finset.singleton_ne_empty 1)
  | some o =>
      cases Finset.mem_singleton.mp left
      exact ⟨u, m, run, size.trans card, u', returned⟩

end Btpd.Hashtable
