import Btpd.Library.Program
import Mathlib

/-!
# The poll loop

`poll.c`, the event loop that `config.mk` takes by default.  The inner loop of `evloop`
is taken apart into the test of a slot for reading, the test for writing and the way to
the next slot, so that a callback may call the routines of descriptors in between.

A book stands beside the loop.  It says for each descriptor that is registered what it
was registered with, which types are enabled, what `poll` has reported for it in this
pass and which callbacks it has had.  No routine reads it.
-/

namespace Btpd.Evloop

open Prog

/-- `EV_READ` and `EV_WRITE`, and the flags made of them. -/
structure EvFlags where
  read : Bool
  write : Bool
  deriving DecidableEq, Repr

/-- The flags `a | b`. -/
def EvFlags.or (a b : EvFlags) : EvFlags := ⟨a.read || b.read, a.write || b.write⟩

/-- The flags `a & ~b`. -/
def EvFlags.without (a b : EvFlags) : EvFlags := ⟨a.read && !b.read, a.write && !b.write⟩

/-- The type of a callback. -/
inductive EvType
  | read
  | write
  deriving DecidableEq, Repr

/-- `POLLIN` or `POLLOUT` is set in `events`. -/
def EvFlags.has (f : EvFlags) : EvType → Bool
  | .read => f.read
  | .write => f.write

/-- The bits of `revents` that are tested. -/
structure Revents where
  pollin : Bool
  pollout : Bool
  pollerr : Bool
  pollhup : Bool
  deriving DecidableEq, Repr

/-- What `calloc` leaves. -/
def Revents.none : Revents := ⟨false, false, false, false⟩

/-- `POLLIN|POLLERR|POLLHUP` for reading and `POLLOUT|POLLERR|POLLHUP` for writing. -/
def Revents.reports (r : Revents) : EvType → Bool
  | .read => r.pollin || r.pollerr || r.pollhup
  | .write => r.pollout || r.pollerr || r.pollhup

/-- `struct pollfd` -/
structure Pollfd where
  fd : Int
  events : EvFlags
  revents : Revents
  deriving DecidableEq, Repr

/-- The test of a slot for one type. -/
def Pollfd.wants (p : Pollfd) (type : EvType) : Bool := p.events.has type && p.revents.reports type

/-- `struct poll_ev`; the descriptor, the function and its argument are addresses. -/
structure PollEv where
  ev : Nat
  cb : Nat
  arg : Nat
  deriving DecidableEq, Repr

/-- What is known of a descriptor that is registered: what it was registered with, what is
enabled, what `poll` has reported for it in this pass and which callbacks were called. -/
structure Entry where
  fd : Int
  cb : Nat
  arg : Nat
  enabled : EvFlags
  polled : Option Revents
  called : EvType → Bool

/-- The descriptors that are registered. -/
abbrev Book := Nat → Option Entry

/-- A callback is called for the descriptor `ev`. -/
structure Callback where
  ev : Nat
  fd : Int
  type : EvType
  cb : Nat
  arg : Nat
  deriving DecidableEq, Repr

/-- A callback that may be called: its descriptor is registered, `poll` has reported the
type for it in this pass, the type is enabled, and the callback was not called for the
type in this pass. -/
def Book.Due (b : Book) (c : Callback) : Prop :=
  ∃ e, b c.ev = some e ∧ (c.fd, c.cb, c.arg) = (e.fd, e.cb, e.arg) ∧ e.enabled.has c.type ∧
    e.called c.type = false ∧ ∃ r, e.polled = some r ∧ r.reports c.type

/-- What `poll` has reported is new, and no callback has been called for it. -/
def Entry.poll (r : Revents) (e : Entry) : Entry :=
  { e with polled := some r, called := fun _ => false }

/-- A callback is called for the type. -/
def Entry.call (type : EvType) (e : Entry) : Entry :=
  { e with called := Function.update e.called type true }

/-- Change the entry of a descriptor. -/
def Book.change (b : Book) (ev : Nat) (f : Entry → Entry) : Book :=
  Function.update b ev ((b ev).map f)

/-- Where the inner loop of `evloop` is: outside, where `m_cur` is -1, before the test for
reading, before the test for writing, or before the next slot. -/
inductive Stage
  | outside
  | reading
  | writing
  | ending
  deriving DecidableEq, Repr

/-- `m_pfds`, `m_pevs`, `m_cap`, `m_size`, `m_cur`, `m_curdel`, and the index `i` of each
descriptor.  `saved` says that the arrays are still where the variables `pfd` and `pev` of
`evloop` point, and `calling` is the callback that runs. -/
structure Loop where
  mPfds : Nat → Pollfd
  mPevs : Nat → PollEv
  index : Nat → Nat
  mCap : Nat
  mSize : Nat
  mCur : Option Nat
  mCurdel : Bool
  stage : Stage
  saved : Bool
  calling : Option Callback
  book : Book

/-- `ev->i < m_size` fails, or `pfd` is read after the array has been moved. -/
inductive LoopFault
  | evIndex
  | savedPointer
  deriving DecidableEq, Repr

/-- The calls that are recorded: an array is moved by `realloc`, a slot is taken into use,
and a descriptor is deleted or disabled. -/
inductive LoopCall
  | moveArray
  | takeSlot
  | fdevDel (ev : Nat)
  | fdevDisable (ev : Nat) (flags : EvFlags)

/-- A routine. -/
abbrev LoopRoutine := Prog Loop LoopCall LoopFault

/-- `ENOMEM` -/
def enomem : Int := 12

/-- What `realloc` gives for the two arrays: nothing, or the contents of the memory behind
the old one. -/
structure Growth where
  pfds : Option (Nat → Pollfd)
  pevs : Option (Nat → PollEv)

/-- An array after `realloc`, with what it has behind its first `n` elements. -/
def extend {α : Type} (n : Nat) (old : Nat → α) (behind : Option (Nat → α)) : Nat → α :=
  fun k => if k < n then old k else (behind.getD old) k

/-- `poll_grow` -/
def pollGrow (g : Growth) : LoopRoutine Int := do
  when (g.pfds.isSome ∨ g.pevs.isSome) (call .moveArray (modify fun s => { s with
    mPfds := extend s.mCap s.mPfds g.pfds
    mPevs := extend s.mCap s.mPevs g.pevs
    saved := false }))
  if g.pfds.isNone ∨ g.pevs.isNone then pure enomem
  else do
    modify fun s => { s with mCap := s.mCap * 2 }
    pure 0

/-- The slot `m_size` becomes the slot of a descriptor; its `revents` stay. -/
def Loop.take (s : Loop) (ev : Nat) (fd : Int) (flags : EvFlags) (cb arg : Nat) : Loop := { s with
  index := Function.update s.index ev s.mSize
  mSize := s.mSize + 1
  mPfds := Function.update s.mPfds s.mSize ⟨fd, flags, (s.mPfds s.mSize).revents⟩
  mPevs := Function.update s.mPevs s.mSize ⟨ev, cb, arg⟩
  book := Function.update s.book ev (some ⟨fd, cb, arg, flags, none, fun _ => false⟩) }

/-- Grow the arrays when they are full. -/
def growIfFull (g : Growth) : LoopRoutine Int := do
  let s ← get
  if s.mSize = s.mCap then pollGrow g else pure 0

/-- `fdev_new` -/
def fdevNew (ev : Nat) (fd : Int) (flags : EvFlags) (cb arg : Nat) (g : Growth) :
    LoopRoutine Int := do
  let error ← growIfFull g
  if error ≠ 0 then pure error
  else do
    call .takeSlot (modify fun s => s.take ev fd flags cb arg)
    pure 0

/-- Change `events` in the slot of a descriptor. -/
def Loop.setEvents (s : Loop) (ev : Nat) (f : EvFlags → EvFlags) : Loop := { s with
  mPfds := Function.update s.mPfds (s.index ev)
    { s.mPfds (s.index ev) with events := f (s.mPfds (s.index ev)).events }
  book := s.book.change ev fun e => { e with enabled := f e.enabled } }

/-- `fdev_enable` -/
def fdevEnable (ev : Nat) (flags : EvFlags) : LoopRoutine Unit :=
  modify fun s => s.setEvents ev (·.or flags)

/-- `fdev_disable` -/
def fdevDisable (ev : Nat) (flags : EvFlags) : LoopRoutine Unit :=
  call (.fdevDisable ev flags) (modify fun s => s.setEvents ev (·.without flags))

/-- The last slot takes the place of the one of a descriptor, which may be the last. -/
def Loop.drop (s : Loop) (ev : Nat) : Loop :=
  let i := s.index ev
  let last := s.mSize - 1
  { s with
    mSize := last
    mPfds := Function.update s.mPfds i (s.mPfds last)
    mPevs := Function.update s.mPevs i (s.mPevs last)
    index := Function.update s.index (s.mPevs last).ev i
    mCurdel := s.mCurdel || decide (s.mCur = some i)
    book := Function.update s.book ev none }

/-- `fdev_del` -/
def fdevDel (ev : Nat) : LoopRoutine Unit := call (.fdevDel ev) do
  let s ← get
  assert (s.index ev < s.mSize) .evIndex
  modify fun s => s.drop ev

/-- What the callbacks, and the rest of the program outside the loop, can ask for. -/
inductive Op
  | new (ev : Nat) (fd : Int) (flags : EvFlags) (cb arg : Nat) (g : Growth)
  | del (ev : Nat)
  | enable (ev : Nat) (flags : EvFlags)
  | disable (ev : Nat) (flags : EvFlags)

/-- A descriptor is created when it is not registered, and the rest is done with descriptors
that are. -/
def Op.Sound (b : Book) : Op → Prop
  | .new ev .. => (b ev).isNone
  | .del ev => (b ev).isSome
  | .enable ev _ => (b ev).isSome
  | .disable ev _ => (b ev).isSome

instance (b : Book) (op : Op) : Decidable (op.Sound b) := by
  cases op <;> exact inferInstanceAs (Decidable (_ = true))

/-- One call of a routine. -/
def Op.run : Op → LoopRoutine Unit
  | .new ev fd flags cb arg g => do
      let _ ← fdevNew ev fd flags cb arg g
  | .del ev => fdevDel ev
  | .enable ev flags => fdevEnable ev flags
  | .disable ev flags => fdevDisable ev flags

/-- `poll` returns, with what it reports for each descriptor. -/
def Loop.polled (s : Loop) (r : Nat → Revents) : Loop := { s with
  mPfds := fun k =>
    if k < s.mSize then { s.mPfds k with revents := r (s.mPevs k).ev } else s.mPfds k
  book := fun ev => (s.book ev).map (·.poll (r ev)) }

/-- The test of `while (m_cur < m_size)`, which ends the pass or saves the two pointers. -/
def Loop.enter (s : Loop) (cur : Nat) : Loop :=
  if cur < s.mSize then { s with mCur := some cur, stage := .reading, saved := true }
  else { s with mCur := none, stage := .outside }

/-- The callback of a slot. -/
def Loop.callback (s : Loop) (k : Nat) (type : EvType) : Callback :=
  ⟨(s.mPevs k).ev, (s.mPfds k).fd, type, (s.mPevs k).cb, (s.mPevs k).arg⟩

/-- The callback of the slot is called. -/
def Loop.dispatch (s : Loop) (cur : Nat) (type : EvType) : Loop := { s with
  calling := some (s.callback cur type)
  book := s.book.change (s.mPevs cur).ev (·.call type) }

/-- Test the slot for reading. -/
def testRead (cur : Nat) : LoopRoutine Unit := do
  modify fun s => { s with stage := .writing }
  let s ← get
  when ((s.mPfds cur).wants .read) (modify fun s => s.dispatch cur .read)

/-- Test the slot for writing, where `pfd` is read unless the descriptor was deleted. -/
def testWrite (cur : Nat) : LoopRoutine Unit := do
  modify fun s => { s with stage := .ending }
  let s ← get
  when (s.mCurdel = false) do
    assert (s.saved = true) .savedPointer
    when ((s.mPfds cur).wants .write) (modify fun s => s.dispatch cur .write)

/-- Go to the next slot, or test the slot again that has got another descriptor. -/
def nextSlot (cur : Nat) : LoopRoutine Unit := modify fun s =>
  if s.mCurdel = false then s.enter (cur + 1) else { s with mCurdel := false }.enter cur

/-- The next step of the inner loop, after the callback that runs has returned. -/
def turn : LoopRoutine Unit := do
  modify fun s => { s with calling := none }
  let s ← get
  match s.mCur, s.stage with
  | some cur, .reading => testRead cur
  | some cur, .writing => testWrite cur
  | some cur, .ending => nextSlot cur
  | _, _ => pure ()

/-- What happens: a callback or the rest of the program calls a routine, `poll` returns, or
the inner loop makes a step. -/
inductive LoopEvent
  | call (op : Op)
  | poll (r : Nat → Revents)
  | turn

/-- Routines are called outside the loop and by the callback that runs. -/
def Loop.Free (s : Loop) : Prop := s.stage = .outside ∨ s.calling.isSome

instance (s : Loop) : Decidable s.Free := inferInstanceAs (Decidable (_ ∨ _))

/-- One event. -/
def loopHandle : LoopEvent → LoopRoutine Unit
  | .call op => do
      let s ← get
      when (s.Free ∧ op.Sound s.book) op.run
  | .poll r => do
      let s ← get
      when (s.stage = .outside) (modify fun s => (s.polled r).enter 0)
  | .turn => turn

/-- `evloop_init`; the arrays are cleared. -/
structure Loop.Init (s : Loop) : Prop where
  mCap : s.mCap = 64
  mSize : s.mSize = 0
  mCur : s.mCur = none
  mCurdel : s.mCurdel = false
  stage : s.stage = .outside
  calling : s.calling = none
  book : ∀ ev, s.book ev = none
  revents : ∀ k < s.mCap, (s.mPfds k).revents = .none

/-- The poll loop. -/
def pollLoop : System Loop LoopCall LoopFault LoopEvent := ⟨Loop.Init, loopHandle⟩

/-- The slot under way is to be tested for writing, through the pointers saved before. -/
def Loop.toTestWrite (s : Loop) : Prop := s.stage = .writing ∧ s.mCurdel = false

/-- The pass under way has still to test the slot for both types. -/
def Loop.ahead (s : Loop) (k : Nat) : Prop :=
  ∃ cur, s.mCur = some cur ∧ (cur < k ∨ cur = k ∧ (s.stage = .reading ∨ s.mCurdel = true))

instance (s : Loop) : Decidable s.toTestWrite := inferInstanceAs (Decidable (_ ∧ _))

instance (s : Loop) (k : Nat) : Decidable (s.ahead k) :=
  decidable_of_iff (s.mCur.any fun cur =>
    decide (cur < k ∨ cur = k ∧ (s.stage = .reading ∨ s.mCurdel = true)))
    (by
      unfold Loop.ahead
      cases s.mCur <;> simp)

/-- The pass under way has still to test the slot. -/
def Loop.toTest (s : Loop) (k : Nat) : Prop := s.ahead k ∨ s.toTestWrite ∧ s.mCur = some k

/-- The descriptor was moved from the slot under way, which was the last, when another one
was deleted, and what it has left there will be tested for writing and wants it. -/
def Loop.leftBehind (s : Loop) (ev : Nat) : Prop :=
  s.toTestWrite ∧ ∃ cur, s.mCur = some cur ∧ s.mSize ≤ cur ∧ (s.mPevs cur).ev = ev ∧
    (s.mPfds cur).wants .write

instance (s : Loop) (k : Nat) : Decidable (s.toTest k) := inferInstanceAs (Decidable (_ ∨ _))

instance (s : Loop) (ev : Nat) : Decidable (s.leftBehind ev) :=
  decidable_of_iff (s.toTestWrite ∧ s.mCur.any fun cur =>
    decide (s.mSize ≤ cur ∧ (s.mPevs cur).ev = ev ∧ (s.mPfds cur).wants .write))
    (by
      unfold Loop.leftBehind
      cases s.mCur <;> simp)

/-- What goes wrong in a pass: an array is moved while the saved pointers are still to be
used, a slot is taken that is still to be tested and has the results of another descriptor,
or a descriptor is deleted or disabled whose old slot is still to be tested. -/
def stale (c : Call Loop LoopCall) : Prop :=
  match c.fn with
  | .moveArray => c.entry.toTestWrite
  | .takeSlot => c.entry.toTest c.entry.mSize ∧ (c.entry.mPfds c.entry.mSize).revents ≠ .none
  | .fdevDel ev => c.entry.leftBehind ev
  | .fdevDisable ev flags => c.entry.leftBehind ev ∧ flags.write

instance : DecidablePred stale := fun ⟨fn, _, s⟩ => by
  cases fn
  · exact inferInstanceAs (Decidable s.toTestWrite)
  · exact inferInstanceAs (Decidable (s.toTest s.mSize ∧ (s.mPfds s.mSize).revents ≠ .none))
  · exact inferInstanceAs (Decidable (s.leftBehind _))
  · exact inferInstanceAs (Decidable (s.leftBehind _ ∧ _ = true))

end Btpd.Evloop
