import Btpd.Names.Tidy
import Mathlib

/-!
# What the threads do

The steps of the two threads, seen in the queues, the pipe and their places alone.
-/

namespace Btpd.Names

open Prog

variable {s s' : Resolver} {ctx : Option Nat} {callers : List Empty}

/-! ## What connections leave alone -/

/-- The queues, the pipe and the thread are as they were, and at most a callback runs. -/
structure Idles (ctx : Option Nat) (s s' : Resolver) : Prop where
  aiq : s'.aiq = s.aiq
  tdCbs : s'.tdCbs = s.tdCbs
  pipe : s'.pipe = s.pipe
  worker : s'.worker = s.worker
  signalling : s'.signalling = s.signalling
  tmpq : s'.tmpq = s.tmpq
  asked : s'.asked = s.asked
  main : s'.main = s.main ∨ ∃ nc, s'.main = .calling nc ctx

theorem Idles.refl : Idles ctx s s := ⟨rfl, rfl, rfl, rfl, rfl, rfl, rfl, .inl rfl⟩

/-- A routine that leaves them alone. -/
abbrev Leaves (ctx : Option Nat) {α : Type} (m : NameRoutine α) : Prop :=
  ∀ s, Keeps whenReturns (Idles ctx s) m

theorem leaves_ctxAt (i : Nat) : Leaves ctx (ctxAt i) := by
  intro s₀
  apply keeps_get
  intro callers s held
  cases s.ctxs i with
  | some c => exact wp_pure.mpr held
  | none => exact wp_fault.mpr trivial

theorem leaves_connAt (nc : Nat) : Leaves ctx (connAt nc) := by
  intro s₀
  apply keeps_get
  intro callers s held
  cases s.conns nc with
  | some d => exact wp_pure.mpr held
  | none => exact wp_fault.mpr trivial

theorem leaves_setCtx (i : Nat) (c : Option AiCtx) : Leaves ctx (setCtx i c) := fun _ =>
  keeps_modify fun _ held => ⟨held.1, held.2, held.3, held.4, held.5, held.6, held.7, held.8⟩

theorem leaves_setConn (nc : Nat) (d : Option Nameconn) : Leaves ctx (setConn nc d) := fun _ =>
  keeps_modify fun _ held => ⟨held.1, held.2, held.3, held.4, held.5, held.6, held.7, held.8⟩

theorem leaves_freeCtx (i : Nat) : Leaves ctx (freeCtx i) := fun s₀ =>
  keeps_seq (leaves_ctxAt i s₀) fun _ => leaves_setCtx i none s₀

theorem leaves_freeaddrinfo (list : Nat) : Leaves ctx (freeaddrinfo list) := by
  intro s₀
  apply keeps_get
  intro callers s held
  exact keeps_seq (keeps_assert trivial) (fun _ => keeps_modify fun _ held =>
    ⟨held.1, held.2, held.3, held.4, held.5, held.6, held.7, held.8⟩) callers s held

theorem leaves_close (sd : Nat) : Leaves ctx (close sd) := by
  intro s₀
  apply keeps_get
  intro callers s held
  exact keeps_seq (keeps_assert trivial) (fun _ => keeps_modify fun _ held =>
    ⟨held.1, held.2, held.3, held.4, held.5, held.6, held.7, held.8⟩) callers s held

theorem leaves_socket : Leaves ctx socket := by
  intro s₀
  apply keeps_get
  intro callers s held
  exact keeps_seq (keeps_modify fun _ held =>
    ⟨held.1, held.2, held.3, held.4, held.5, held.6, held.7, held.8⟩)
    (fun _ => keeps_pure) callers s held

theorem leaves_ncFree (nc : Nat) : Leaves ctx (ncFree nc) := by
  intro s₀
  apply keeps_seq (leaves_connAt nc s₀)
  intro d
  dsimp only
  cases d.aiRes with
  | some list => exact keeps_seq (leaves_freeaddrinfo list s₀) fun _ => leaves_setConn nc none s₀
  | none => exact leaves_setConn nc none s₀

theorem leaves_ncDone (nc : Nat) (told : Told) : Leaves ctx (ncDone nc ctx told) := fun _ =>
  keeps_modify fun _ held =>
    ⟨held.1, held.2, held.3, held.4, held.5, held.6, held.7, .inr ⟨nc, rfl⟩⟩

theorem leaves_ncConnect (nc : Nat) (connects : Nat → Connect) (left : Nat) :
    Leaves ctx (ncConnect nc ctx connects left) := by
  intro s₀
  induction left with
  | zero =>
      apply keeps_seq (leaves_connAt nc s₀)
      intro d
      exact keeps_seq (leaves_setConn nc _ s₀) fun _ => leaves_ncDone nc _ s₀
  | succ left ih =>
      apply keeps_seq (leaves_connAt nc s₀)
      intro d
      apply keeps_seq (leaves_socket s₀)
      intro sd
      apply keeps_seq (leaves_setConn nc _ s₀)
      intro _
      cases connects left with
      | done => exact leaves_ncDone nc _ s₀
      | inProgress => exact leaves_setConn nc _ s₀
      | refused => exact keeps_seq (leaves_close sd s₀) fun _ => ih

theorem leaves_addrinfoTdCb (i : Nat) (connects : Nat → Connect) :
    Leaves (some i) (addrinfoTdCb i connects) := by
  intro s₀
  apply keeps_seq (leaves_ctxAt i s₀)
  rintro ⟨nc, cancel, answer⟩
  cases cancel with
  | true =>
      cases answer with
      | none => exact keeps_pure
      | some answer =>
          cases answer with
          | found addresses => exact leaves_freeaddrinfo i s₀
          | failed error => exact keeps_pure
  | false =>
      cases answer with
      | none => exact keeps_pure
      | some answer =>
          apply keeps_seq (leaves_connAt nc s₀)
          intro d
          cases answer with
          | found addresses =>
              exact keeps_seq (leaves_setConn nc _ s₀) fun _ =>
                leaves_ncConnect nc connects addresses s₀
          | failed error => exact leaves_ncDone nc _ s₀

theorem leaves_ncWriteCb (nc : Nat) (error : Bool) (connects : Nat → Connect) :
    Leaves none (ncWriteCb nc error connects) := by
  intro s₀
  apply keeps_seq (leaves_connAt nc s₀)
  intro d
  apply keeps_seq (leaves_setConn nc _ s₀)
  intro _
  cases d.sd with
  | none => exact keeps_fault trivial
  | some sd =>
      cases error with
      | true => exact keeps_seq (leaves_close sd s₀) fun _ => leaves_ncConnect nc connects _ s₀
      | false => exact leaves_ncDone nc (.connected sd) s₀

/-- Giving up a connection calls nobody back. -/
theorem leaves_btpdNameConnectCancel (nc : Nat) : Leaves ctx (btpdNameConnectCancel nc) := by
  intro s₀
  apply keeps_seq (leaves_connAt nc s₀)
  intro d
  apply keeps_seq (keeps_modify fun _ held =>
    ⟨held.1, held.2, held.3, held.4, held.5, held.6, held.7, held.8⟩)
  intro _
  cases d.state with
  | ai =>
      exact keeps_seq (keeps_seq (leaves_ctxAt _ s₀) fun c => leaves_setCtx _ _ s₀) fun _ =>
        leaves_ncFree nc s₀
  | conn =>
      cases d.sd with
      | none => exact keeps_seq (keeps_fault trivial) fun _ => leaves_ncFree nc s₀
      | some sd => exact keeps_seq (leaves_close sd s₀) fun _ => leaves_ncFree nc s₀

/-! ## The steps of the threads -/

/-- A step of the threads themselves. -/
def NameEvent.own : NameEvent → Bool
  | .signal | .read | .splice | .next _ | .callbackReturns | .thread _ => true
  | .connect | .cancel _ | .writable .. | .spurious => false

/-- The thread in question can make the step. -/
def Resolver.Ready (s : Resolver) : NameEvent → Prop
  | .signal => s.signalling = true
  | .read => s.signalling = false ∧ s.main = .loop ∧ 0 < s.pipe
  | .splice => s.main = .splicing ∧ s.worker.holdsTd = false
  | .next _ => s.main = .running
  | .callbackReturns => s.signalling = false ∧ ∃ nc ctx, s.main = .calling nc ctx
  | .thread _ => s.worker ≠ .waiting ∧ (s.worker = .writing → s.pipe < pipeSize)
  | .connect | .cancel _ | .writable .. | .spurious => False

/-- The queues and the places of the threads. -/
structure View where
  aiq : List Nat
  tdCbs : List Nat
  pipe : Nat
  worker : Worker
  main : Main
  signalling : Bool
  tmpq : List Nat
  asked : List Nat

/-- The queues and the places of the threads in a state. -/
def Resolver.view (s : Resolver) : View :=
  ⟨s.aiq, s.tdCbs, s.pipe, s.worker, s.main, s.signalling, s.tmpq, s.asked⟩

/-- What the threads do when they can go on. -/
inductive Goes : View → View → Prop
  | signal {v : View} (set : v.signalling = true) :
      Goes v { v with
        signalling := false
        worker := if v.worker = .waiting then .locking else v.worker }
  | read {v : View} (idle : v.main = .loop) (bytes : 0 < v.pipe) :
      Goes v { v with pipe := v.pipe - min v.pipe tdBufSize, main := .splicing }
  | splice {v : View} (splicing : v.main = .splicing) :
      Goes v { v with tmpq := v.tmpq ++ v.tdCbs, tdCbs := [], main := .running }
  | leave {v : View} (running : v.main = .running) (queue : v.tmpq = []) :
      Goes v { v with main := .loop }
  | next {v : View} {ctx : Nat} {rest : List Nat} {main : Main} (running : v.main = .running)
      (queue : v.tmpq = ctx :: rest) (goesOn : main = .running ∨ ∃ nc, main = .calling nc ctx) :
      Goes v { v with tmpq := rest, main := main }
  | finish {v : View} {nc ctx : Nat} (calling : v.main = .calling nc (some ctx)) :
      Goes v { v with main := .running }
  | handled {v : View} {nc : Nat} (calling : v.main = .calling nc none) :
      Goes v { v with main := .loop }
  | lock {v : View} (locking : v.worker = .locking) : Goes v { v with worker := .testing }
  | wait {v : View} (testing : v.worker = .testing) (queue : v.aiq = []) :
      Goes v { v with worker := .waiting }
  | take {v : View} {ctx : Nat} {rest : List Nat} (testing : v.worker = .testing)
      (queue : v.aiq = ctx :: rest) : Goes v { v with aiq := rest, worker := .resolving ctx }
  | answer {v : View} {ctx : Nat} (resolving : v.worker = .resolving ctx) :
      Goes v { v with worker := .answered ctx }
  | begin {v : View} {ctx : Nat} (answered : v.worker = .answered ctx) :
      Goes v { v with worker := .posting ctx }
  | post {v : View} {ctx : Nat} (posting : v.worker = .posting ctx) :
      Goes v { v with tdCbs := v.tdCbs ++ [ctx], worker := .posted }
  | release {v : View} (posted : v.worker = .posted) : Goes v { v with worker := .writing }
  | write {v : View} (writing : v.worker = .writing) :
      Goes v { v with pipe := v.pipe + 1, worker := .locking }

/-- The callback runs, and nothing else has changed but memory. -/
theorem Idles.view {i : Nat} (idles : Idles (some i) s s') (running : s.main = .running) :
    ∃ main, (main = .running ∨ ∃ nc, main = .calling nc (some i)) ∧
      s'.view = { s.view with main := main } := by
  refine ⟨s'.main, ?_, ?_⟩
  · rw [← running]
    exact idles.main
  · unfold Resolver.view
    rw [idles.aiq, idles.tdCbs, idles.pipe, idles.worker, idles.signalling, idles.tmpq,
      idles.asked]

theorem tdCbNext_goes {connects : Nat → Connect} (running : s.main = .running) :
    (tdCbNext connects).wp whenReturns callers (fun _ s' => Goes s.view s'.view) s := by
  unfold tdCbNext
  rw [wp_bind, wp_get]
  cases queue : s.tmpq with
  | nil =>
      dsimp only
      rw [wp_modify]
      exact Goes.leave running queue
  | cons i rest =>
      dsimp only
      rw [wp_bind, wp_modify]
      apply wp_seq (leaves_addrinfoTdCb i connects _ _ _ .refl)
      intro _ s₁ idles
      have freed : Leaves (some i) (do
          let s ← get
          when (s.main = .running) (freeCtx i)) := by
        intro s₀
        apply keeps_get
        intro callers s held
        exact keeps_when (leaves_freeCtx i s₀) callers s held
      apply wp_mono (freed _ callers s₁ idles)
      intro _ s' idles
      rcases idles.view running with ⟨main, goesOn, view⟩
      rw [view]
      exact Goes.next running queue goesOn

theorem ncReturn_goes {nc : Nat} (calling : s.main = .calling nc ctx) :
    (ncReturn nc ctx).wp whenReturns callers (fun _ s' => Goes s.view s'.view) s := by
  unfold ncReturn
  have same : ∀ {i : Nat} {s' : Resolver} {main : Main}, Idles (some i) s s' →
      { s' with main := main }.view = { s.view with main := main } := by
    intro i s' main idles
    unfold Resolver.view
    rw [idles.aiq, idles.tdCbs, idles.pipe, idles.worker, idles.signalling, idles.tmpq,
      idles.asked]
  cases ctx with
  | none =>
      apply wp_seq (leaves_ncFree nc _ _ _ (.refl : Idles (some 0) s s))
      intro _ s' idles
      rw [wp_modify, same idles]
      exact Goes.handled calling
  | some i =>
      apply wp_seq (leaves_ncFree nc _ _ _ (.refl : Idles (some i) s s))
      intro _ s₁ idles
      apply wp_seq (leaves_freeCtx i s _ s₁ idles)
      intro _ s' idles
      rw [wp_modify, same idles]
      exact Goes.finish calling

theorem addrinfoTd_goes {answer : Answer} (awake : s.worker ≠ .waiting)
    (room : s.worker = .writing → s.pipe < pipeSize) :
    (addrinfoTd answer).wp whenReturns callers (fun _ s' => Goes s.view s'.view) s := by
  unfold addrinfoTd
  rw [wp_bind, wp_get]
  cases at_ : s.worker with
  | locking =>
      rw [wp_modify]
      exact Goes.lock at_
  | testing =>
      cases queue : s.aiq with
      | nil =>
          dsimp only
          rw [wp_modify]
          exact Goes.wait at_ queue
      | cons i rest =>
          dsimp only
          rw [wp_modify]
          exact Goes.take at_ queue
  | waiting => exact absurd at_ awake
  | resolving i =>
      dsimp only
      cases here : s.ctxs i with
      | none =>
          unfold ctxAt
          rw [wp_bind, wp_bind, wp_get, here]
          exact wp_fault.mpr trivial
      | some c =>
          unfold setCtx
          rw [wp_bind, wp_ctxAt here, wp_bind, wp_modify, wp_modify]
          exact Goes.answer at_
  | answered i =>
      dsimp only
      rw [wp_modify]
      exact Goes.begin at_
  | posting i =>
      dsimp only
      rw [wp_modify]
      exact Goes.post at_
  | posted =>
      dsimp only
      rw [wp_modify]
      exact Goes.release at_
  | writing =>
      dsimp only
      rw [wp_when, if_pos (room at_), wp_modify]
      exact Goes.write at_

/-- A step of a thread that can go on. -/
theorem nameHandle_goes {event : NameEvent} (ready : s.Ready event) :
    (nameHandle event).wp whenReturns callers (fun _ s' => Goes s.view s'.view) s := by
  unfold nameHandle
  cases event with
  | signal =>
      have set : s.signalling = true := ready
      rw [wp_bind, wp_get, wp_when, if_pos set]
      unfold condSignal
      rw [wp_modify]
      exact Goes.signal set
  | read =>
      have allowed : s.signalling = false ∧ s.main = .loop ∧ 0 < s.pipe := ready
      rw [wp_bind, wp_get, wp_when, if_pos allowed]
      unfold tdCbRead
      rw [wp_modify]
      exact Goes.read allowed.2.1 allowed.2.2
  | splice =>
      have allowed : s.main = .splicing ∧ s.worker.holdsTd = false := ready
      rw [wp_bind, wp_get, wp_when, if_pos allowed]
      unfold tdCbSplice
      rw [wp_modify]
      exact Goes.splice allowed.1
  | next connects =>
      have running : s.main = .running := ready
      rw [wp_bind, wp_get, wp_when, if_pos running]
      exact tdCbNext_goes running
  | callbackReturns =>
      rcases ready with ⟨unset, nc, ctx, calling⟩
      rw [wp_bind, wp_get, unset, calling]
      exact ncReturn_goes calling
  | thread answer => exact addrinfoTd_goes ready.1 ready.2
  | connect => exact ready.elim
  | cancel nc => exact ready.elim
  | writable nc error connects => exact ready.elim
  | spurious => exact ready.elim

/-- A thread that cannot go on stays where it is. -/
theorem nameHandle_stays {event : NameEvent} (own : event.own = true) (unready : ¬ s.Ready event) :
    (nameHandle event).wp whenReturns callers (fun _ s' => s' = s) s := by
  unfold nameHandle
  cases event with
  | signal =>
      have unset : ¬ s.signalling = true := unready
      rw [wp_bind, wp_get, wp_when, if_neg unset]
  | read =>
      have refused : ¬ (s.signalling = false ∧ s.main = .loop ∧ 0 < s.pipe) := unready
      rw [wp_bind, wp_get, wp_when, if_neg refused]
  | splice =>
      have refused : ¬ (s.main = .splicing ∧ s.worker.holdsTd = false) := unready
      rw [wp_bind, wp_get, wp_when, if_neg refused]
  | next connects =>
      have elsewhere : ¬ s.main = .running := unready
      rw [wp_bind, wp_get, wp_when, if_neg elsewhere]
  | callbackReturns =>
      rw [wp_bind, wp_get]
      split
      · rename_i unset calling
        exact absurd ⟨unset, _, _, calling⟩ unready
      · exact wp_pure.mpr rfl
  | thread answer =>
      unfold addrinfoTd
      rw [wp_bind, wp_get]
      by_cases waits : s.worker = .waiting
      · rw [waits]
        exact wp_pure.mpr rfl
      · have full : s.worker = .writing ∧ ¬ s.pipe < pipeSize := by
          by_contra not_
          exact unready ⟨waits, fun writing => by_contra fun full => not_ ⟨writing, full⟩⟩
        rw [full.1]
        dsimp only
        rw [wp_when, if_neg full.2]
  | connect => cases own
  | cancel nc => cases own
  | writable nc error connects => cases own
  | spurious => cases own

end Btpd.Names
