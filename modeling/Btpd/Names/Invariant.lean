import Btpd.Names.State
import Mathlib

/-!
# What becomes of a name

The lookup and the connection with a number go through the same stages in every run, and every
piece of memory and every descriptor belongs to one of them.
-/

namespace Btpd.Names

open Prog

variable {s s' : Resolver} {i nc : Nat}

/-! ## Where a lookup is -/

/-- The lookup that the thread is busy with. -/
def Worker.held : Worker → List Nat
  | .resolving ctx | .answered ctx | .posting ctx => [ctx]
  | _ => []

/-- The answer is written. -/
def Worker.done : Worker → List Nat
  | .answered ctx | .posting ctx => [ctx]
  | _ => []

/-- The lookups that have not been called back, the oldest first. -/
def Resolver.pending (s : Resolver) : List Nat := s.tmpq ++ s.tdCbs ++ s.worker.held ++ s.aiq

/-- The lookups among them that have an answer. -/
def Resolver.answered (s : Resolver) : List Nat := s.tmpq ++ s.tdCbs ++ s.worker.done

/-- The answer came with a list of addresses. -/
def hasList : Option Answer → Bool
  | some (.found _) => true
  | _ => false

/-- The callback has been called. -/
def Resolver.Knows (s : Resolver) (i : Nat) : Prop := i ∈ s.told.map Prod.fst

/-! ## Stages -/

/-- The stage that a lookup and its connection are in, while no callback of the connection
runs: not asked for, looked up, which goes on when it is given up, connecting, and gone. -/
inductive Status (s : Resolver) (i : Nat) : Prop
  | unborn (later : s.nextCtx ≤ i) (ctx : s.ctxs i = none) (conn : s.conns i = none)
      (list : s.lists i = false) (untold : ¬ s.Knows i) (kept : i ∉ s.cancelled)
  | lookup (cancel : Bool) (answer : Option Answer) (pending : i ∈ s.pending)
      (ctx : s.ctxs i = some ⟨i, cancel, answer⟩)
      (conn : s.conns i = if cancel then none else some ⟨i, none, 0, none, .ai, false⟩)
      (list : s.lists i = hasList answer) (place : answer.isSome = true ↔ i ∈ s.answered)
      (untold : ¬ s.Knows i) (gone : i ∈ s.cancelled ↔ cancel = true)
  | connecting (left sd : Nat) (called : i ∈ s.called) (ctx : s.ctxs i = none)
      (conn : s.conns i = some ⟨i, some i, left, some sd, .conn, true⟩) (list : s.lists i = true)
      (untold : ¬ s.Knows i) (kept : i ∉ s.cancelled)
  | ended (called : i ∈ s.called) (ctx : s.ctxs i = none) (conn : s.conns i = none)
      (list : s.lists i = false) (reason : s.Knows i ∨ i ∈ s.cancelled)

/-- The stage of a connection of which the callback runs. -/
structure Running (s : Resolver) (i : Nat) (ctx : Option Nat) : Prop where
  called : i ∈ s.called
  ctx : s.ctxs i = none ∧ ctx = none ∨ (s.ctxs i).isSome = true ∧ ctx = some i
  conn : ∃ d, s.conns i = some d ∧ d.writeEv = false ∧
    (d.aiRes = none ∧ s.lists i = false ∨ d.aiRes = some i ∧ s.lists i = true)
  told : s.Knows i
  kept : i ∉ s.cancelled

/-- The descriptor that is watched for a connection. -/
def watched : Option Nameconn → Option Nat
  | some ⟨_, _, _, sd, _, true⟩ => sd
  | _ => none

/-- Our descriptors are those that are watched, each for one connection. -/
structure Owned (s : Resolver) : Prop where
  ours : ∀ sd, s.sockets sd = .ours ↔ ∃ i, watched (s.conns i) = some sd
  apart : ∀ i j sd, watched (s.conns i) = some sd → watched (s.conns j) = some sd → i = j
  fresh : ∀ sd, s.nextSd ≤ sd → s.sockets sd = .closed

theorem Owned.of_same (owned : Owned s) (conns : ∀ i, watched (s'.conns i) = watched (s.conns i))
    (sockets : s'.sockets = s.sockets) (nextSd : s'.nextSd = s.nextSd) : Owned s' where
  ours sd := by
    simp only [conns, sockets]
    exact owned.ours sd
  apart i j sd := by
    simp only [conns]
    exact owned.apart i j sd
  fresh sd := by
    rw [sockets, nextSd]
    exact owned.fresh sd

/-- The invariant of the lookups and the connections. -/
structure Inv (s : Resolver) : Prop where
  asked : s.asked = List.range s.nextCtx
  conserved : s.asked = s.called ++ s.pending
  nextConn : s.nextConn = s.nextCtx
  status : ∀ i, s.main.calls i = false → Status s i
  running : ∀ i ctx, s.main = .calling i ctx → Running s i ctx
  once : (s.told.map Prod.fst ++ s.cancelled).Nodup
  owned : Owned s

/-- Nothing that concerns the stage of the index changes. -/
structure SameAt (s s' : Resolver) (i : Nat) : Prop where
  ctxs : s'.ctxs i = s.ctxs i
  conns : s'.conns i = s.conns i
  lists : s'.lists i = s.lists i
  later : s.nextCtx ≤ i → s'.nextCtx ≤ i
  pending : i ∈ s'.pending ↔ i ∈ s.pending
  answered : i ∈ s'.answered ↔ i ∈ s.answered
  called : i ∈ s.called → i ∈ s'.called
  told : s'.Knows i ↔ s.Knows i
  cancelled : i ∈ s'.cancelled ↔ i ∈ s.cancelled

theorem Status.of_same (held : Status s i) (same : SameAt s s' i) : Status s' i := by
  cases held with
  | unborn later ctx conn list untold kept =>
      exact .unborn (same.later later) (same.ctxs.trans ctx) (same.conns.trans conn)
        (same.lists.trans list) (fun told => untold (same.told.mp told))
        (fun gone => kept (same.cancelled.mp gone))
  | lookup cancel answer pending ctx conn list place untold gone =>
      exact .lookup cancel answer (same.pending.mpr pending) (same.ctxs.trans ctx)
        (same.conns.trans conn) (same.lists.trans list) (place.trans same.answered.symm)
        (fun told => untold (same.told.mp told)) (same.cancelled.trans gone)
  | connecting left sd called ctx conn list untold kept =>
      exact .connecting left sd (same.called called) (same.ctxs.trans ctx)
        (same.conns.trans conn) (same.lists.trans list)
        (fun told => untold (same.told.mp told)) (fun gone => kept (same.cancelled.mp gone))
  | ended called ctx conn list reason =>
      exact .ended (same.called called) (same.ctxs.trans ctx) (same.conns.trans conn)
        (same.lists.trans list) (reason.imp same.told.mpr same.cancelled.mpr)

theorem Running.of_same {ctx : Option Nat} (held : Running s i ctx) (same : SameAt s s' i) :
    Running s' i ctx where
  called := same.called held.called
  ctx := by
    rw [same.ctxs]
    exact held.ctx
  conn := by
    rw [same.conns, same.lists]
    exact held.conn
  told := same.told.mpr held.told
  kept gone := held.kept (same.cancelled.mp gone)

namespace Inv

variable (inv : Inv s)

include inv

theorem nodup : (s.called ++ s.pending).Nodup := by
  rw [← inv.conserved, inv.asked]
  exact List.nodup_range

/-- What was called back is not called back again. -/
theorem called_apart (called : i ∈ s.called) : i ∉ s.pending := fun pending =>
  (List.nodup_append.mp inv.nodup).2.2 i called i pending rfl

theorem lt_of_pending (pending : i ∈ s.pending) : i < s.nextCtx := by
  apply List.mem_range.mp
  rw [← inv.asked, inv.conserved]
  exact List.mem_append_right _ pending

theorem lt_of_called (called : i ∈ s.called) : i < s.nextCtx := by
  apply List.mem_range.mp
  rw [← inv.asked, inv.conserved]
  exact List.mem_append_left _ called

end Inv

/-- What is known of a lookup that waits. -/
theorem Inv.pending_cases (inv : Inv s) (pending : i ∈ s.pending) :
    ∃ cancel answer, s.ctxs i = some ⟨i, cancel, answer⟩ ∧
      (s.conns i = if cancel then none else some ⟨i, none, 0, none, .ai, false⟩) ∧
      s.lists i = hasList answer ∧ (answer.isSome = true ↔ i ∈ s.answered) ∧ ¬ s.Knows i ∧
      (i ∈ s.cancelled ↔ cancel = true) := by
  have free : s.main.calls i = false := by
    cases here : s.main with
    | calling nc ctx =>
        apply decide_eq_false
        rintro rfl
        exact inv.called_apart (inv.running nc ctx here).called pending
    | loop => rfl
    | splicing => rfl
    | running => rfl
  cases inv.status i free with
  | unborn later _ _ _ _ _ => exact absurd (inv.lt_of_pending pending) (Nat.not_lt.mpr later)
  | lookup cancel answer _ ctx conn list place untold gone =>
      exact ⟨cancel, answer, ctx, conn, list, place, untold, gone⟩
  | connecting left sd called _ _ _ _ _ => exact absurd pending (inv.called_apart called)
  | ended called _ _ _ _ => exact absurd pending (inv.called_apart called)

theorem inv_init : Inv Resolver.init := by
  constructor
  · rfl
  · rfl
  · rfl
  · intro i _
    apply Status.unborn (Nat.zero_le i) rfl rfl rfl
    · exact List.not_mem_nil
    · exact List.not_mem_nil
  · intro i ctx calling
    cases calling
  · exact List.nodup_nil
  · refine ⟨fun sd => ⟨fun ours => ?_, ?_⟩, ?_, fun _ _ => rfl⟩
    · cases ours
    · rintro ⟨i, watches⟩
      cases watches
    · rintro i j sd watches
      cases watches

/-! ## Steps that move lookups on -/

/-- No memory and no descriptor changes, and the lookups that wait and those that have an answer
stay the same. -/
structure Moves (s s' : Resolver) : Prop where
  ctxs : s'.ctxs = s.ctxs
  conns : s'.conns = s.conns
  lists : s'.lists = s.lists
  sockets : s'.sockets = s.sockets
  next : s'.nextCtx = s.nextCtx ∧ s'.nextConn = s.nextConn ∧ s'.nextSd = s.nextSd
  pending : s'.pending = s.pending
  answered : ∀ i, i ∈ s'.answered ↔ i ∈ s.answered
  asked : s'.asked = s.asked
  called : s'.called = s.called
  told : s'.told = s.told
  cancelled : s'.cancelled = s.cancelled
  main : (∀ i, s'.main.calls i = s.main.calls i) ∧
    ∀ i ctx, s'.main = .calling i ctx → s.main = .calling i ctx

theorem Inv.moves (inv : Inv s) (moves : Moves s s') : Inv s' := by
  have same : ∀ i, SameAt s s' i := by
    intro i
    constructor
    · rw [moves.ctxs]
    · rw [moves.conns]
    · rw [moves.lists]
    · rw [moves.next.1]
      exact id
    · rw [moves.pending]
    · exact moves.answered i
    · rw [moves.called]
      exact id
    · unfold Resolver.Knows
      rw [moves.told]
    · rw [moves.cancelled]
  constructor
  · rw [moves.asked, moves.next.1]
    exact inv.asked
  · rw [moves.asked, moves.called, moves.pending]
    exact inv.conserved
  · rw [moves.next.1, moves.next.2.1]
    exact inv.nextConn
  · intro i free
    rw [moves.main.1] at free
    exact (inv.status i free).of_same (same i)
  · intro i ctx calling
    exact (inv.running i ctx (moves.main.2 i ctx calling)).of_same (same i)
  · rw [moves.told, moves.cancelled]
    exact inv.once
  · apply inv.owned.of_same _ moves.sockets moves.next.2.2
    intro i
    rw [moves.conns]

end Btpd.Names
