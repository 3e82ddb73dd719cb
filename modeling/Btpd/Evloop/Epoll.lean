import Btpd.Evloop.Poll

/-!
# The epoll loop

`epoll.c`, the other event loop.  The inner loop of `evloop` is taken apart into the test
of an entry for reading, the test for writing and the way to the next entry, so that a
callback may call the routines of descriptors in between.

The memory of a descriptor is gone as soon as it is deleted, and its address may be used
for another one.  The kernel keeps a list of its own of what has been registered.
-/

namespace Btpd.Epoll

open Prog
open Evloop (EvFlags EvType Revents Callback)

/-- No flags. -/
def noFlags : EvFlags := ⟨false, false⟩

/-- `EV_READ|EV_WRITE` -/
def allFlags : EvFlags := ⟨true, true⟩

/-- `struct fdev`; the index is -1 when there is none. -/
structure Fdev where
  cb : Nat
  arg : Nat
  fd : Int
  flags : EvFlags
  index : Option Nat
  deriving DecidableEq, Repr

/-- `struct epoll_event` as `epoll_wait` fills it in: the address of a descriptor and the
bits of `events` that are tested. -/
structure EpollEvent where
  ptr : Nat
  events : Revents
  deriving DecidableEq, Repr

/-- Where the inner loop of `evloop` is: outside, before the test for reading, before the
test for writing, or before the end of the turn. -/
inductive Stage
  | outside
  | reading (i : Nat)
  | writing (i : Nat)
  | ending (i : Nat)
  deriving DecidableEq, Repr

/-- The memory of the descriptors, the list of the kernel, which has the events and the
address for each descriptor file, `m_evs`, `m_valid`, `nev`, and the place in the inner
loop.  `calling` is the callback that runs.  `fetched` is what was reported in this batch
for the descriptor that lives at an address; no routine reads it. -/
structure Loop where
  mem : Nat → Option Fdev
  kernel : Int → Option (EvFlags × Nat)
  mEvs : Nat → EpollEvent
  mValid : Nat → Bool
  nev : Nat
  stage : Stage
  calling : Option Callback
  fetched : Nat → Option Revents

/-- The memory of a deleted descriptor is used, or `btpd_err` ends the program after the
kernel has refused something. -/
inductive EpollFault
  | deleted
  | exited
  deriving DecidableEq, Repr

/-- A routine; no calls are recorded. -/
abbrev EpollRoutine := Prog Loop Empty EpollFault

/-! ## Descriptors -/

/-- Read a descriptor. -/
def fdevAt (ev : Nat) : EpollRoutine Fdev := do
  let s ← get
  match s.mem ev with
  | some d => pure d
  | none => fault .deleted

/-- Replace a descriptor. -/
def setFdev (ev : Nat) (d : Fdev) : EpollRoutine Unit :=
  modify fun s => { s with mem := Function.update s.mem ev (some d) }

/-- `EPOLL_CTL_ADD`, `EPOLL_CTL_MOD` and `EPOLL_CTL_DEL` -/
inductive Ctl
  | add
  | mod
  | del
  deriving DecidableEq, Repr

/-- The list of the kernel after `epoll_ctl`, unless it is refused: what is added must not
be there, and what is changed or deleted must. -/
def ctl (kernel : Int → Option (EvFlags × Nat)) (op : Ctl) (fd : Int) (events : EvFlags)
    (ptr : Nat) : Option (Int → Option (EvFlags × Nat)) :=
  match op, kernel fd with
  | .add, none => some (Function.update kernel fd (some (events, ptr)))
  | .mod, some _ => some (Function.update kernel fd (some (events, ptr)))
  | .del, some _ => some (Function.update kernel fd none)
  | _, _ => none

/-- `epoll_ctl`, which the kernel may refuse for other reasons too; the result says whether
it has. -/
def epollCtl (op : Ctl) (fd : Int) (events : EvFlags) (ptr : Nat) (refused : Bool) :
    EpollRoutine Bool := do
  let s ← get
  match refused, ctl s.kernel op fd events ptr with
  | false, some kernel => do
      modify fun s => { s with kernel := kernel }
      pure false
  | _, _ => pure true

/-- `fdev_enable` -/
def fdevEnable (ev : Nat) (flags : EvFlags) (refused : Bool) : EpollRoutine Bool := do
  let d ← fdevAt ev
  let flags := d.flags.or flags
  setFdev ev { d with flags := flags }
  if d.flags ≠ flags then
    epollCtl (if d.flags = noFlags then .add else .mod) d.fd flags ev refused
  else pure false

/-- `fdev_new` -/
def fdevNew (ev : Nat) (fd : Int) (flags : EvFlags) (cb arg : Nat) (refused : Bool) :
    EpollRoutine Bool := do
  modify fun s => { s with
    mem := Function.update s.mem ev (some ⟨cb, arg, fd, noFlags, none⟩)
    fetched := Function.update s.fetched ev none }
  fdevEnable ev flags refused

/-- `fdev_disable` -/
def fdevDisable (ev : Nat) (flags : EvFlags) (refused : Bool) : EpollRoutine Bool := do
  let d ← fdevAt ev
  let flags := d.flags.without flags
  setFdev ev { d with flags := flags }
  if d.flags ≠ flags then
    epollCtl (if flags = noFlags then .del else .mod) d.fd flags ev refused
  else pure false

/-- Clear `m_valid` for an index, if it is one. -/
def Loop.invalidate (s : Loop) : Option Nat → Loop
  | some i => { s with mValid := Function.update s.mValid i false }
  | none => s

/-- `fdev_del`; then the memory is given back. -/
def fdevDel (ev : Nat) (refused : Bool) : EpollRoutine Bool := do
  let d ← fdevAt ev
  modify fun s => s.invalidate d.index
  let err ← fdevDisable ev allFlags refused
  modify fun s => { s with
    mem := Function.update s.mem ev none
    fetched := Function.update s.fetched ev none }
  pure err

/-! ## Calls of the routines -/

/-- What the callbacks, and the rest of the program outside the loop, can ask for. -/
inductive Op
  | new (ev : Nat) (fd : Int) (flags : EvFlags) (cb arg : Nat)
  | del (ev : Nat)
  | enable (ev : Nat) (flags : EvFlags)
  | disable (ev : Nat) (flags : EvFlags)

/-- A descriptor is created where none lives, and the rest is done with those that live. -/
def Op.Sound (mem : Nat → Option Fdev) : Op → Prop
  | .new ev .. => (mem ev).isNone
  | .del ev => (mem ev).isSome
  | .enable ev _ => (mem ev).isSome
  | .disable ev _ => (mem ev).isSome

instance (mem : Nat → Option Fdev) (op : Op) : Decidable (op.Sound mem) := by
  cases op <;> exact inferInstanceAs (Decidable (_ = true))

/-- The call of a routine. -/
def Op.call (refused : Bool) : Op → EpollRoutine Bool
  | .new ev fd flags cb arg => fdevNew ev fd flags cb arg refused
  | .del ev => fdevDel ev refused
  | .enable ev flags => fdevEnable ev flags refused
  | .disable ev flags => fdevDisable ev flags refused

/-- `btpd_ev_new`, `btpd_ev_del`, `btpd_ev_enable` and `btpd_ev_disable` -/
def Op.run (op : Op) (refused : Bool) : EpollRoutine Unit := do
  let err ← op.call refused
  assert (err = false) .exited

/-! ## The loop -/

/-- What `epoll_wait` may give back: it reports at most 100 descriptor files, once each and
only those that are in the list of the kernel. -/
def Reported (kernel : Int → Option (EvFlags × Nat)) (batch : List (Int × Revents)) : Prop :=
  batch.length ≤ 100 ∧ (batch.map Prod.fst).Nodup ∧ ∀ e ∈ batch, (kernel e.1).isSome

instance (kernel : Int → Option (EvFlags × Nat)) (batch : List (Int × Revents)) :
    Decidable (Reported kernel batch) := inferInstanceAs (Decidable (_ ∧ _ ∧ _))

/-- The events that `epoll_wait` writes, with the addresses from the list of the kernel. -/
def eventsOf (kernel : Int → Option (EvFlags × Nat)) (batch : List (Int × Revents)) :
    List EpollEvent :=
  batch.filterMap fun e => (kernel e.1).map fun r => ⟨r.2, e.2⟩

/-- `epoll_wait` returns, and `m_valid` is set. -/
def Loop.wait (s : Loop) (batch : List (Int × Revents)) : Loop :=
  let evs := eventsOf s.kernel batch
  { s with
    mEvs := fun i => evs.getD i (s.mEvs i)
    mValid := fun i => if i < evs.length then true else s.mValid i
    nev := evs.length
    fetched := fun ev => (evs.find? fun e => e.ptr = ev).map EpollEvent.events }

/-- The loop that gives each descriptor of the batch its index. -/
def setIndices (nev : Nat) : EpollRoutine Unit :=
  forEach (List.range nev) fun i => do
    let s ← get
    let d ← fdevAt (s.mEvs i).ptr
    setFdev (s.mEvs i).ptr { d with index := some i }

/-- The test of the inner loop. -/
def Loop.enter (s : Loop) (i : Nat) : Loop :=
  { s with stage := if i < s.nev then .reading i else .outside }

/-- A batch is fetched. -/
def fetch (batch : List (Int × Revents)) : EpollRoutine Unit := do
  modify fun s => s.wait batch
  let s ← get
  setIndices s.nev
  modify fun s => s.enter 0

/-- Test an entry for one type, and call the callback. -/
def testEntry (i : Nat) (type : EvType) : EpollRoutine Unit := do
  let s ← get
  when (s.mValid i = true) do
    let e := s.mEvs i
    let d ← fdevAt e.ptr
    when (d.flags.has type = true ∧ e.events.reports type = true)
      (modify fun s => { s with calling := some ⟨e.ptr, d.fd, type, d.cb, d.arg⟩ })

/-- The end of a turn, and the way to the next entry. -/
def endEntry (i : Nat) : EpollRoutine Unit := do
  let s ← get
  when (s.mValid i = true) do
    let d ← fdevAt (s.mEvs i).ptr
    setFdev (s.mEvs i).ptr { d with index := none }
  modify fun s => s.enter (i + 1)

/-- The next step of the inner loop, after the callback that runs has returned. -/
def turn : EpollRoutine Unit := do
  modify fun s => { s with calling := none }
  let s ← get
  match s.stage with
  | .outside => pure ()
  | .reading i => do
      modify fun s => { s with stage := .writing i }
      testEntry i .read
  | .writing i => do
      modify fun s => { s with stage := .ending i }
      testEntry i .write
  | .ending i => endEntry i

/-- What happens: a callback or the rest of the program calls a routine, which the kernel
may refuse, `epoll_wait` returns, or the inner loop makes a step. -/
inductive EpollStep
  | call (op : Op) (refused : Bool)
  | wait (batch : List (Int × Revents))
  | turn

/-- Routines are called outside the loop and by the callback that runs. -/
def Loop.Free (s : Loop) : Prop := s.stage = .outside ∨ s.calling.isSome

instance (s : Loop) : Decidable s.Free := inferInstanceAs (Decidable (_ ∨ _))

/-- One event. -/
def epollHandle : EpollStep → EpollRoutine Unit
  | .call op refused => do
      let s ← get
      when (s.Free ∧ op.Sound s.mem) (op.run refused)
  | .wait batch => do
      let s ← get
      when (s.stage = .outside ∧ Reported s.kernel batch) (fetch batch)
  | .turn => turn

/-- `evloop_init`: nothing is registered. -/
structure Loop.Init (s : Loop) : Prop where
  mem : ∀ ev, s.mem ev = none
  kernel : ∀ fd, s.kernel fd = none
  stage : s.stage = .outside
  calling : s.calling = none

/-- The epoll loop. -/
def epollLoop : System Loop Empty EpollFault EpollStep := ⟨Loop.Init, epollHandle⟩

end Btpd.Epoll
