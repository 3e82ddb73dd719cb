import Btpd.Library.Program
import Btpd.Library.Heap

/-!
# The timers of the event loop

`timeheap.c` and `timer.c`: the heap of the timers that are pending, where each timer
knows its place in the heap.  `evtimers_run` is taken apart into its start and the turns
of its loop, so that a callback may do whatever it likes between two turns.
-/

namespace Btpd.Evloop

open Prog

/-- `struct timespec` -/
structure Timespec where
  tvSec : Int
  tvNsec : Nat
  lt : tvNsec < 1000000000
  deriving DecidableEq, Repr

/-- The time in nanoseconds. -/
def Timespec.nanos (a : Timespec) : Int := a.tvSec * 1000000000 + a.tvNsec

/-- `cmptime_lt` -/
def cmptimeLt (a b : Timespec) : Prop :=
  if a.tvSec = b.tvSec then a.tvNsec < b.tvNsec else a.tvSec < b.tvSec

instance (a b : Timespec) : Decidable (cmptimeLt a b) := by
  unfold cmptimeLt
  infer_instance

/-- `addtime` -/
def addtime (a b : Timespec) : Timespec :=
  if carry : 1000000000 ≤ a.tvNsec + b.tvNsec then
    ⟨a.tvSec + b.tvSec + 1, a.tvNsec + b.tvNsec - 1000000000, by
      have := a.lt
      have := b.lt
      omega⟩
  else ⟨a.tvSec + b.tvSec, a.tvNsec + b.tvNsec, Nat.lt_of_not_le carry⟩

/-- `subtime` -/
def subtime (a b : Timespec) : Timespec :=
  if borrow : a.tvNsec < b.tvNsec then
    ⟨a.tvSec - b.tvSec - 1, a.tvNsec + 1000000000 - b.tvNsec, by omega⟩
  else ⟨a.tvSec - b.tvSec, a.tvNsec - b.tvNsec, by
    have := a.lt
    omega⟩

/-- `struct th_entry`; `h` is the timer with the handle. -/
structure ThEntry where
  t : Timespec
  h : Nat

/-- `heap`, `heap_cap` and `heap_use`, the index `th.i` of each timer, the clock, and the
variable `now` of `evtimers_run` while it runs. -/
structure Timers where
  heap : Nat → ThEntry
  heapCap : Nat
  heapUse : Nat
  handle : Nat → Int
  clock : Timespec
  now : Option Timespec
  /-- The timer that the last event has fired.  No routine reads it. -/
  fired : Option Nat

/-- `h->i >= 0 && h->i < heap_use` fails. -/
inductive Fault
  | handleIndex
  deriving DecidableEq, Repr

/-- A routine; no calls are recorded. -/
abbrev Routine := Prog Timers Empty Fault

/-! ## `timeheap.c` -/

/-- `cmpentry_lt` -/
def Timers.cmpentryLt (s : Timers) (a b : Nat) : Prop := cmptimeLt (s.heap a).t (s.heap b).t

instance (s : Timers) (a b : Nat) : Decidable (s.cmpentryLt a b) :=
  inferInstanceAs (Decidable (cmptimeLt _ _))

/-- Write an entry, and its place into its handle. -/
def Timers.put (s : Timers) (i : Nat) (e : ThEntry) : Timers := { s with
  heap := Function.update s.heap i e
  handle := Function.update s.handle e.h i }

/-- `swap` -/
def Timers.swap (s : Timers) (i j : Nat) : Timers :=
  let tmp := s.heap i
  (s.put i (s.heap j)).put j tmp

/-- The loop of `bubble_up`, which takes `i` turns at most. -/
def Timers.bubbleUpLoop : Nat → Nat → Timers → Timers
  | 0, _, s => s
  | turns + 1, i, s =>
      if i ≠ 0 then
        let p := (i - 1) / 2
        if s.cmpentryLt i p then bubbleUpLoop turns p (s.swap i p) else s
      else s

/-- `bubble_up` -/
def Timers.bubbleUp (s : Timers) (i : Nat) : Timers := s.bubbleUpLoop i i

/-- The child that `bubble_down` looks at. -/
def Timers.child (s : Timers) (i : Nat) : Option Nat :=
  let li := 2 * i + 1
  let ri := 2 * i + 2
  if ri < s.heapUse then some (if s.cmpentryLt li ri then li else ri)
  else if li < s.heapUse then some li
  else none

/-- The loop of `bubble_down`, which ends before `i` is `heap_use`. -/
def Timers.bubbleDownLoop : Nat → Nat → Timers → Timers
  | 0, _, s => s
  | turns + 1, i, s =>
      match s.child i with
      | none => s
      | some ci => if s.cmpentryLt ci i then bubbleDownLoop turns ci (s.swap i ci) else s

/-- `bubble_down` -/
def Timers.bubbleDown (s : Timers) (i : Nat) : Timers := s.bubbleDownLoop (s.heapUse - i) i

/-- `timeheap_insert`, where `mem` says whether there is memory for more entries. -/
def timeheapInsert (h : Nat) (t : Timespec) (mem : Bool) : Routine Int := do
  let s ← get
  if s.heapUse = s.heapCap ∧ mem = false then pure (-1)
  else do
    when (s.heapUse = s.heapCap) (modify fun s => { s with heapCap := s.heapCap * 2 })
    modify fun s => { s.put s.heapUse ⟨t, h⟩ with heapUse := s.heapUse + 1 }
    modify fun s => s.bubbleUp (s.handle h).toNat
    pure 0

/-- The last entry takes the place of another one in `timeheap_remove`. -/
def Timers.fill (s : Timers) (i : Nat) : Timers :=
  if s.cmpentryLt s.heapUse i then (s.put i (s.heap s.heapUse)).bubbleUp i
  else (s.put i (s.heap s.heapUse)).bubbleDown i

/-- `timeheap_remove`, for the index in the handle. -/
def timeheapRemove (i : Int) : Routine Unit := do
  let s ← get
  assert (0 ≤ i ∧ i < s.heapUse) .handleIndex
  modify fun s => { s with heapUse := s.heapUse - 1 }
  let s ← get
  when (0 < s.heapUse) (modify fun s => s.fill i.toNat)

/-- `timeheap_change` -/
def timeheapChange (h : Nat) (t : Timespec) : Routine Unit := do
  let s ← get
  assert (0 ≤ s.handle h ∧ s.handle h < s.heapUse) .handleIndex
  let i := (s.handle h).toNat
  modify fun s => { s with heap := Function.update s.heap i { s.heap i with t := t } }
  if cmptimeLt t (s.heap i).t then modify fun s => s.bubbleUp i
  else modify fun s => s.bubbleDown i

/-- `timeheap_remove_top`, which gives back the timer. -/
def timeheapRemoveTop : Routine Nat := do
  let s ← get
  timeheapRemove 0
  pure (s.heap 0).h

/-! ## `timer.c` -/

/-- `evtimer_add` -/
def evtimerAdd (h : Nat) (t : Timespec) (mem : Bool) : Routine Int := do
  let s ← get
  let sum := addtime s.clock t
  if s.handle h = -1 then timeheapInsert h sum mem
  else do
    timeheapChange h sum
    pure 0

/-- Set the index of a timer. -/
def setHandle (h : Nat) (i : Int) : Routine Unit :=
  modify fun s => { s with handle := Function.update s.handle h i }

/-- `evtimer_del` -/
def evtimerDel (h : Nat) : Routine Unit := do
  let s ← get
  when (0 ≤ s.handle h) do
    timeheapRemove (s.handle h)
    setHandle h (-1)

/-- A deadline has come in `evtimers_run`. -/
def due (top now : Timespec) : Prop :=
  (subtime top now).tvSec < 0 ∨ (subtime top now).tvSec = 0 ∧ (subtime top now).tvNsec < 1000000

instance (top now : Timespec) : Decidable (due top now) :=
  inferInstanceAs (Decidable (_ ∨ _))

/-- One turn of the loop of `evtimers_run`: the callback of a timer is called, or the loop
ends. -/
def evtimersTurn (now : Timespec) : Routine Unit := do
  let s ← get
  if 0 < s.heapUse ∧ due (s.heap 0).t now then do
    let t ← timeheapRemoveTop
    setHandle t (-1)
    modify fun s => { s with fired := some t }
  else modify fun s => { s with now := none }

/-- What happens: a timer is added or deleted, time passes, `evtimers_run` is called, or
its loop makes a turn.  What comes between two turns is done by the callback. -/
inductive Event
  | add (h : Nat) (t : Timespec) (mem : Bool)
  | del (h : Nat)
  | pass (later : Timespec)
  | run
  | turn

/-- One event. -/
def act : Event → Routine Unit
  | .add h t mem => do
      let _ ← evtimerAdd h t mem
  | .del h => evtimerDel h
  | .pass later => modify fun s =>
      if s.clock.nanos ≤ later.nanos then { s with clock := later } else s
  | .run => modify fun s => { s with now := some s.clock }
  | .turn => do
      let s ← get
      match s.now with
      | none => pure ()
      | some now => evtimersTurn now

/-- One event, which fires no timer unless it is a turn of the loop. -/
def handle (e : Event) : Routine Unit := do
  modify fun s => { s with fired := none }
  act e

/-- No timer is pending. -/
structure Timers.Init (s : Timers) : Prop where
  heapUse : s.heapUse = 0
  heapCap : s.heapCap = 10
  handle : ∀ h, s.handle h = -1
  now : s.now = none

/-- The timers of the event loop. -/
def timers : System Timers Empty Fault Event := ⟨Timers.Init, handle⟩

end Btpd.Evloop
