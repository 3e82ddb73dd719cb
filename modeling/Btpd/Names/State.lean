import Btpd.Library.Program
import Mathlib

/-!
# Looking up names

`addrinfo.c`, `thread_cb.c` and `nameconn.c`.  The main thread puts names on a queue, a thread
of its own takes them off and waits for `getaddrinfo`, and posts what it has found on a second
queue, from which the main thread calls back.  Then the main thread tries to connect to the
addresses one by one.

What a thread does while it holds a lock is one step where the other thread could not come in
between anyway; else each call is a step of its own.
-/

namespace Btpd.Names

open Prog

/-- What `getaddrinfo` gives: an error, or a list with a number of addresses. -/
inductive Answer
  | failed (error : Nat)
  | found (addresses : Nat)
  deriving DecidableEq, Repr

/-- `struct ai_ctx`.  `answer` is `error` and `res`, when `getaddrinfo` has set them, and `nc` is
`arg`; the callback is `nc_ai_cb`. -/
structure AiCtx where
  nc : Nat
  cancel : Bool
  answer : Option Answer
  deriving DecidableEq, Repr

/-- `enum { NC_AI, NC_CONN }` -/
inductive NcState
  | ai
  | conn
  deriving DecidableEq, Repr

/-- `struct nameconn`.  A list of addresses is named by the `struct ai_ctx` it was asked for,
and `aiCur` is the number of addresses from `ai_cur` on.  `writeEv` says whether `write_ev` is
registered. -/
structure Nameconn where
  aiHandle : Nat
  aiRes : Option Nat
  aiCur : Nat
  sd : Option Nat
  state : NcState
  writeEv : Bool
  deriving DecidableEq, Repr

/-- A descriptor that is closed, one of a connection that is tried, and one that was given
away. -/
inductive Socket
  | closed
  | ours
  | given
  deriving DecidableEq, Repr

/-- Where the thread of `addrinfo_td` is: before `pthread_mutex_lock`, before the test of the
queue, in `pthread_cond_wait`, in `getaddrinfo`, before `td_post_begin`, before `td_post`,
before `td_release_lock`, and before `write`. -/
inductive Worker
  | locking
  | testing
  | waiting
  | resolving (ctx : Nat)
  | answered (ctx : Nat)
  | posting (ctx : Nat)
  | posted
  | writing
  deriving DecidableEq, Repr

/-- Where the main thread is: in a handler of another event or in none, in `td_cb` after the
`read` or between two callbacks, or in the callback of a connection, which was called for a
lookup or for an event of the socket. -/
inductive Main
  | loop
  | splicing
  | running
  | calling (nc : Nat) (ctx : Option Nat)
  deriving DecidableEq, Repr

/-- What the callback of a connection is told. -/
inductive Told
  | connected (sd : Nat)
  | failed (error : Nat)
  deriving DecidableEq, Repr

/-- The memory of lookups and connections, with the lists of addresses and the descriptors, the
queues `m_aiq` and `m_td_cbs`, the bytes in the pipe, and where the threads are.  `signalling`
is set from `pthread_mutex_unlock` to `pthread_cond_signal` in `btpd_addrinfo`, and `tmpq` is
that of `td_cb`.  `asked`, `called`, `told` and `cancelled` are what has been asked for and what
has come of it; no routine reads them. -/
structure Resolver where
  ctxs : Nat → Option AiCtx
  conns : Nat → Option Nameconn
  lists : Nat → Bool
  sockets : Nat → Socket
  nextCtx : Nat
  nextConn : Nat
  nextSd : Nat
  aiq : List Nat
  tdCbs : List Nat
  pipe : Nat
  worker : Worker
  main : Main
  signalling : Bool
  tmpq : List Nat
  asked : List Nat
  called : List Nat
  told : List (Nat × Told)
  cancelled : List Nat

/-- Memory that was given back is used, a list of addresses is freed twice or a descriptor
closed twice. -/
inductive NameFault
  | freedCtx
  | freedConn
  | freedList
  | closedSocket
  deriving DecidableEq, Repr

/-- A routine; no calls are recorded. -/
abbrev NameRoutine := Prog Resolver Empty NameFault

/-! ## Memory -/

/-- Read a `struct ai_ctx`. -/
def ctxAt (ctx : Nat) : NameRoutine AiCtx := do
  let s ← get
  match s.ctxs ctx with
  | some c => pure c
  | none => fault .freedCtx

/-- Write a `struct ai_ctx`. -/
def setCtx (ctx : Nat) (c : Option AiCtx) : NameRoutine Unit :=
  modify fun s => { s with ctxs := Function.update s.ctxs ctx c }

/-- Read a `struct nameconn`. -/
def connAt (nc : Nat) : NameRoutine Nameconn := do
  let s ← get
  match s.conns nc with
  | some d => pure d
  | none => fault .freedConn

/-- Write a `struct nameconn`. -/
def setConn (nc : Nat) (d : Option Nameconn) : NameRoutine Unit :=
  modify fun s => { s with conns := Function.update s.conns nc d }

/-- `free` of a `struct ai_ctx` -/
def freeCtx (ctx : Nat) : NameRoutine Unit := do
  let _ ← ctxAt ctx
  setCtx ctx none

/-- `freeaddrinfo` -/
def freeaddrinfo (list : Nat) : NameRoutine Unit := do
  let s ← get
  assert (s.lists list = true) .freedList
  modify fun s => { s with lists := Function.update s.lists list false }

/-- `close` -/
def close (sd : Nat) : NameRoutine Unit := do
  let s ← get
  assert (s.sockets sd ≠ .closed) .closedSocket
  modify fun s => { s with sockets := Function.update s.sockets sd .closed }

/-! ## addrinfo.c -/

/-- `btpd_addrinfo`, up to the signal. -/
def btpdAddrinfo (nc : Nat) : NameRoutine Nat := do
  let s ← get
  let ctx := s.nextCtx
  modify fun s => { s with
    ctxs := Function.update s.ctxs ctx (some ⟨nc, false, none⟩)
    nextCtx := ctx + 1
    aiq := s.aiq ++ [ctx]
    signalling := true
    asked := s.asked ++ [ctx] }
  pure ctx

/-- `pthread_cond_signal`, which wakes the thread if it waits. -/
def condSignal : NameRoutine Unit :=
  modify fun s => { s with
    signalling := false
    worker := if s.worker = .waiting then .locking else s.worker }

/-- `btpd_addrinfo_cancel` -/
def btpdAddrinfoCancel (ctx : Nat) : NameRoutine Unit := do
  let c ← ctxAt ctx
  setCtx ctx (some { c with cancel := true })

/-! ## nameconn.c -/

/-- `nc_free` -/
def ncFree (nc : Nat) : NameRoutine Unit := do
  let d ← connAt nc
  match d.aiRes with
  | some list => freeaddrinfo list
  | none => pure ()
  setConn nc none

/-- `nc_done` up to the callback, which then runs; a descriptor is given away when there is no
error. -/
def ncDone (nc : Nat) (ctx : Option Nat) (told : Told) : NameRoutine Unit :=
  modify fun s => { s with
    main := .calling nc ctx
    sockets := match told with
      | .connected sd => Function.update s.sockets sd .given
      | .failed _ => s.sockets
    told := s.told ++ [(nc, told)] }

/-- `ENOTCONN` -/
def enotconn : Nat := 107

/-- What `connect` does: it is done at once, it goes on, or it fails. -/
inductive Connect
  | done
  | inProgress
  | refused
  deriving DecidableEq, Repr

/-- `socket` -/
def socket : NameRoutine Nat := do
  let s ← get
  modify fun s => { s with
    sockets := Function.update s.sockets s.nextSd .ours
    nextSd := s.nextSd + 1 }
  pure s.nextSd

/-- `nc_connect` with as many addresses left, and what `connect` does with each.  For a lookup
`ctx` is where the callback was called from. -/
def ncConnect (nc : Nat) (ctx : Option Nat) (connects : Nat → Connect) : Nat → NameRoutine Unit
  | 0 => do
      let d ← connAt nc
      setConn nc (some { d with aiCur := 0 })
      ncDone nc ctx (.failed enotconn)
  | left + 1 => do
      let d ← connAt nc
      let sd ← socket
      setConn nc (some { d with aiCur := left + 1, sd := some sd })
      match connects left with
      | .done => ncDone nc ctx (.connected sd)
      | .inProgress =>
          setConn nc (some { d with aiCur := left + 1, sd := some sd, writeEv := true })
      | .refused => do
          close sd
          ncConnect nc ctx connects left

/-- `nc_ai_cb` -/
def ncAiCb (nc ctx : Nat) (answer : Answer) (connects : Nat → Connect) : NameRoutine Unit := do
  let d ← connAt nc
  match answer with
  | .found addresses => do
      setConn nc (some { d with aiRes := some ctx, aiCur := addresses, state := .conn })
      ncConnect nc (some ctx) connects addresses
  | .failed error => ncDone nc (some ctx) (.failed error)

/-- `nc_write_cb`, with the error of the socket. -/
def ncWriteCb (nc : Nat) (error : Bool) (connects : Nat → Connect) : NameRoutine Unit := do
  let d ← connAt nc
  setConn nc (some { d with writeEv := false })
  match d.sd with
  | some sd =>
      if error then do
        close sd
        ncConnect nc none connects (d.aiCur - 1)
      else ncDone nc none (.connected sd)
  | none => fault .closedSocket

/-- `btpd_name_connect` -/
def btpdNameConnect : NameRoutine Unit := do
  let s ← get
  let nc := s.nextConn
  modify fun s => { s with nextConn := nc + 1 }
  let ctx ← btpdAddrinfo nc
  setConn nc (some ⟨ctx, none, 0, none, .ai, false⟩)

/-- `btpd_name_connect_cancel` -/
def btpdNameConnectCancel (nc : Nat) : NameRoutine Unit := do
  let d ← connAt nc
  modify fun s => { s with cancelled := s.cancelled ++ [nc] }
  match d.state, d.sd with
  | .ai, _ => btpdAddrinfoCancel d.aiHandle
  | .conn, some sd => close sd
  | .conn, none => fault .closedSocket
  ncFree nc

/-! ## Back in the main thread -/

/-- `addrinfo_td_cb` up to the callback. -/
def addrinfoTdCb (ctx : Nat) (connects : Nat → Connect) : NameRoutine Unit := do
  let c ← ctxAt ctx
  match c.cancel, c.answer with
  | false, some answer => ncAiCb c.nc ctx answer connects
  | true, some (.found _) => freeaddrinfo ctx
  | _, _ => pure ()

/-- The next turn of the loop of `td_cb`: the callback of a lookup, which is freed at once when
no callback of a connection runs. -/
def tdCbNext (connects : Nat → Connect) : NameRoutine Unit := do
  let s ← get
  match s.tmpq with
  | [] => modify fun s => { s with main := .loop }
  | ctx :: rest => do
      modify fun s => { s with tmpq := rest, called := s.called ++ [ctx] }
      addrinfoTdCb ctx connects
      let s ← get
      when (s.main = .running) (freeCtx ctx)

/-- The callback of a connection returns: the rest of `nc_done` and of `addrinfo_td_cb`. -/
def ncReturn (nc : Nat) (ctx : Option Nat) : NameRoutine Unit := do
  ncFree nc
  match ctx with
  | some ctx => do
      freeCtx ctx
      modify fun s => { s with main := .running }
  | none => modify fun s => { s with main := .loop }

/-- The size of the buffer of `td_cb`. -/
def tdBufSize : Nat := 1024

/-- The room in the pipe. -/
def pipeSize : Nat := 65536

/-- `td_cb` up to `td_acquire_lock` -/
def tdCbRead : NameRoutine Unit :=
  modify fun s => { s with pipe := s.pipe - min s.pipe tdBufSize, main := .splicing }

/-- The part of `td_cb` with the lock held. -/
def tdCbSplice : NameRoutine Unit :=
  modify fun s => { s with tmpq := s.tmpq ++ s.tdCbs, tdCbs := [], main := .running }

/-! ## The thread -/

/-- The next step of `addrinfo_td`; `answer` is what `getaddrinfo` gives. -/
def addrinfoTd (answer : Answer) : NameRoutine Unit := do
  let s ← get
  match s.worker with
  | .locking => modify fun s => { s with worker := .testing }
  | .testing =>
      match s.aiq with
      | [] => modify fun s => { s with worker := .waiting }
      | ctx :: rest => modify fun s => { s with aiq := rest, worker := .resolving ctx }
  | .waiting => pure ()
  | .resolving ctx => do
      let c ← ctxAt ctx
      setCtx ctx (some { c with answer := some answer })
      modify fun s => { s with
        lists := match answer with
          | .found _ => Function.update s.lists ctx true
          | .failed _ => s.lists
        worker := .answered ctx }
  | .answered ctx => modify fun s => { s with worker := .posting ctx }
  | .posting ctx => modify fun s => { s with tdCbs := s.tdCbs ++ [ctx], worker := .posted }
  | .posted => modify fun s => { s with worker := .writing }
  | .writing =>
      when (s.pipe < pipeSize) (modify fun s => { s with pipe := s.pipe + 1, worker := .locking })

/-! ## Steps -/

/-- The thread holds the lock of `m_aiq`. -/
def Worker.holdsAiq : Worker → Bool
  | .testing => true
  | _ => false

/-- The thread holds the lock of `m_td_cbs`. -/
def Worker.holdsTd : Worker → Bool
  | .posting _ | .posted => true
  | _ => false

/-- The callback of the connection runs. -/
def Main.calls (nc : Nat) : Main → Bool
  | .calling nc' _ => nc' = nc
  | _ => false

/-- What happens: the program asks for a name, gives up, or ends a callback, the main thread
goes on with a call of its own, a descriptor is reported, or the thread makes a step. -/
inductive NameEvent
  | connect
  | cancel (nc : Nat)
  | signal
  | read
  | splice
  | next (connects : Nat → Connect)
  | callbackReturns
  | writable (nc : Nat) (error : Bool) (connects : Nat → Connect)
  | thread (answer : Answer)
  | spurious

/-- The place lets handlers and callbacks run. -/
def Main.allows : Main → Bool
  | .loop | .calling .. => true
  | _ => false

/-- The connection waits for the event. -/
def Resolver.watches (s : Resolver) (nc : Nat) : Bool :=
  (s.conns nc).any (·.writeEv)

/-- One step, when its time has come.  A connection is given up at most once, and not in its
own callback or later. -/
def nameHandle : NameEvent → NameRoutine Unit
  | .connect => do
      let s ← get
      when (s.signalling = false ∧ s.main.allows = true ∧ s.worker.holdsAiq = false)
        btpdNameConnect
  | .cancel nc => do
      let s ← get
      when (s.signalling = false ∧ s.main.allows = true ∧ (s.conns nc).isSome = true ∧
        s.main.calls nc = false) (btpdNameConnectCancel nc)
  | .signal => do
      let s ← get
      when (s.signalling = true) condSignal
  | .read => do
      let s ← get
      when (s.signalling = false ∧ s.main = .loop ∧ 0 < s.pipe) tdCbRead
  | .splice => do
      let s ← get
      when (s.main = .splicing ∧ s.worker.holdsTd = false) tdCbSplice
  | .next connects => do
      let s ← get
      when (s.main = .running) (tdCbNext connects)
  | .callbackReturns => do
      let s ← get
      match s.signalling, s.main with
      | false, .calling nc ctx => ncReturn nc ctx
      | _, _ => pure ()
  | .writable nc error connects => do
      let s ← get
      when (s.signalling = false ∧ s.main = .loop ∧ s.watches nc = true)
        (ncWriteCb nc error connects)
  | .thread answer => addrinfoTd answer
  | .spurious => do
      let s ← get
      when (s.worker = .waiting) (modify fun s => { s with worker := .locking })

/-- Nothing has been asked for. -/
def Resolver.init : Resolver where
  ctxs := fun _ => none
  conns := fun _ => none
  lists := fun _ => false
  sockets := fun _ => .closed
  nextCtx := 0
  nextConn := 0
  nextSd := 0
  aiq := []
  tdCbs := []
  pipe := 0
  worker := .locking
  main := .loop
  signalling := false
  tmpq := []
  asked := []
  called := []
  told := []
  cancelled := []

/-- The threads that look up names. -/
def names : System Resolver Empty NameFault NameEvent where
  start s := s = Resolver.init
  handle := nameHandle

end Btpd.Names
