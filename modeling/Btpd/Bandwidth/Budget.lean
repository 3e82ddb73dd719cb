import Btpd.Library.Program
import Mathlib

/-!
# The bandwidth limits

The heartbeat of `net.c` gives the peers a number of bytes to read and one to write, which
the callbacks use up; a peer that comes too late waits in a queue for the next heartbeat.
Reading and writing are the two directions of one scheme.  The loops of `net_bw_tick` are
taken turn by turn.  What messages do to the peers, and what the rest of the program does,
is a list of deeds.

For each direction a book counts the bytes that have gone since the last heartbeat; no
routine reads it.
-/

namespace Btpd.Bandwidth

open Prog

/-- Reading and writing. -/
inductive Dir
  | input
  | output
  deriving DecidableEq, Repr

/-- `NB_PIECE`, `NB_TORRENTDATA` and the other types of a `net_buf`. -/
inductive BufType
  | piece
  | torrentData
  | other
  deriving DecidableEq, Repr

/-- `struct net_buf`; `filled` says that `buf` is not `NULL`. -/
structure NetBuf where
  type : BufType
  len : UInt64
  filled : Bool
  deriving DecidableEq, Repr

/-- What `net_read` and `net_write` use of `struct peer`: `in.buf`, if there is one, with
`in.st_bytes` and `in.off`, the queue with `outq_off`, whether `ioev` has `EV_READ` and
`EV_WRITE`, and the flags `PF_ON_READQ` and `PF_ON_WRITEQ`. -/
structure Peer where
  inBuf : Bool
  stBytes : UInt64
  off : UInt64
  outq : List NetBuf
  outqOff : UInt64
  ioev : Dir → Bool
  onQueue : Dir → Bool

/-- What has happened in one direction since the last heartbeat: the bytes that have gone,
whether the limit is still the same, and, since ever, whether `net_read` or `net_write` was
called without a limit while there is one. -/
structure Book where
  moved : Nat
  fixed : Bool
  unlimited : Bool

/-- Where `net_bw_tick` is. -/
inductive Stage
  | idle
  | serving (d : Dir)
  deriving DecidableEq, Repr

/-- The peers, `net_bw_readq` and `net_bw_writeq`, `net_bw_limit_in` and `net_bw_limit_out`,
`m_bw_bytes_in` and `m_bw_bytes_out`. -/
structure Net where
  peer : Nat → Option Peer
  queue : Dir → List Nat
  limit : Dir → UInt32
  budget : Dir → UInt64
  stage : Stage
  book : Dir → Book

/-- A peer is used that has been killed, `net_write` is called without anything to write, or
the end of a list is used. -/
inductive NetFault
  | freed
  | writeEmpty
  | nullDeref
  deriving DecidableEq, Repr

/-- A routine; no calls are recorded. -/
abbrev NetRoutine := Prog Net Empty NetFault

/-! ## Peers -/

/-- Read a peer. -/
def peerAt (p : Nat) : NetRoutine Peer := do
  let n ← get
  match n.peer p with
  | some peer => pure peer
  | none => fault .freed

/-- Replace a peer. -/
def setPeer (p : Nat) (peer : Peer) : NetRoutine Unit :=
  modify fun n => { n with peer := Function.update n.peer p (some peer) }

/-- `BTPDQ_REMOVE` from a queue. -/
def unqueue (d : Dir) (p : Nat) : NetRoutine Unit :=
  modify fun n => { n with queue := Function.update n.queue d ((n.queue d).erase p) }

/-- `peer_kill` -/
def peerKill (p : Nat) : NetRoutine Unit := do
  let peer ← peerAt p
  when (peer.onQueue .input) (unqueue .input p)
  when (peer.onQueue .output) (unqueue .output p)
  modify fun n => { n with peer := Function.update n.peer p none }

/-- A flag for one direction. -/
def setFlag (flag : Dir → Bool) (d : Dir) (on : Bool) : Dir → Bool := Function.update flag d on

/-- `peer_create_common` -/
def peerCreate (p : Nat) : NetRoutine Unit :=
  setPeer p {
    inBuf := false
    stBytes := 28
    off := 0
    outq := []
    outqOff := 0
    ioev := setFlag (fun _ => false) .input true
    onQueue := fun _ => false }

/-- `peer_send` -/
def peerSend (p : Nat) (nb : NetBuf) : NetRoutine Unit := do
  let peer ← peerAt p
  setPeer p { peer with
    outq := peer.outq ++ [nb]
    ioev := if peer.outq = [] then setFlag peer.ioev .output true else peer.ioev }

/-- The end of `peer_unsend`, when the queue is empty. -/
def emptied (p : Nat) (peer : Peer) : NetRoutine Unit :=
  if peer.onQueue .output then do
    unqueue .output p
    setPeer p { peer with onQueue := setFlag peer.onQueue .output false }
  else setPeer p { peer with ioev := setFlag peer.ioev .output false }

/-- `peer_unsend` for the buffer at a place in the queue. -/
def peerUnsend (p i : Nat) : NetRoutine Unit := do
  let peer ← peerAt p
  when (¬(i = 0 ∧ 0 < peer.outqOff)) do
    let peer := { peer with outq := peer.outq.eraseIdx i }
    setPeer p peer
    when (peer.outq = []) (emptied p peer)

/-- What messages, ticks and commands do to peers. -/
inductive Deed
  | create (p : Nat)
  | kill (p : Nat)
  | send (p : Nat) (nb : NetBuf)
  | unsend (p i : Nat)

/-- Do it. -/
def Deed.run : Deed → NetRoutine Unit
  | .create p => do
      let n ← get
      when ((n.peer p).isNone) (peerCreate p)
  | .kill p => peerKill p
  | .send p nb => peerSend p nb
  | .unsend p i => peerUnsend p i

/-! ## Reading and writing -/

/-- What `readv` or `writev` answers: `EAGAIN`, another error, or so many bytes as there are,
which are none at the end of the connection. -/
inductive Io
  | again
  | error
  | bytes (n : Nat)

/-- What a call of `net_read` or `net_write` meets: the answer of the system, the deeds of the
messages that were read, what is left of the input behind them, unless `net_state` has
killed the peer, and whether `nb_torrentdata_fill` fails. -/
structure Outcome where
  io : Io
  deeds : List Deed
  input : Option (Bool × UInt64 × UInt64)
  fillFails : Bool

/-- `SSIZE_MAX` -/
def ssizeMax : Nat := 2 ^ 63 - 1

/-- As many bytes as there are and the buffers take. -/
def transferred (n : Nat) (iovs : List UInt64) : Nat :=
  min (min n (iovs.map UInt64.toNat).sum) ssizeMax

/-- The book of a transfer. -/
def record (d : Dir) (nbytes : Nat) : NetRoutine Unit :=
  modify fun n => { n with
    book := Function.update n.book d { n.book d with moved := (n.book d).moved + nbytes } }

/-- The book of a call with the argument `max`. -/
def noteCall (d : Dir) (max : UInt64) : NetRoutine Unit :=
  modify fun n => { n with
    book := Function.update n.book d { n.book d with
      unlimited := (n.book d).unlimited || (max = 0 && n.limit d ≠ 0) } }

/-- `GRBUFLEN` -/
def grbuflen : UInt64 := 2 ^ 15

/-- `rest` of `net_read` -/
def Peer.rest (peer : Peer) : UInt64 := if peer.inBuf then peer.stBytes - peer.off else 0

/-- The lengths of the two buffers of `net_read`. -/
def Peer.readIov (peer : Peer) (rmax : UInt64) : List UInt64 :=
  if 0 < rmax then
    let first := if rmax < peer.rest then rmax else peer.rest
    [first, if rmax - first < grbuflen then rmax - first else grbuflen]
  else [peer.rest, grbuflen]

/-- What `net_read` does with the bytes that have come. -/
def parse (p : Nat) (nread : UInt64) (o : Outcome) : NetRoutine Unit := do
  let peer ← peerAt p
  if 0 < peer.rest ∧ nread < peer.rest then setPeer p { peer with off := peer.off + nread }
  else do
    forEach o.deeds Deed.run
    match o.input with
    | none => peerKill p
    | some (inBuf, stBytes, off) => do
        let peer ← peerAt p
        setPeer p { peer with inBuf := inBuf, stBytes := stBytes, off := off }

/-- `net_read` -/
def netRead (p : Nat) (rmax : UInt64) (o : Outcome) : NetRoutine UInt64 := do
  noteCall .input rmax
  let peer ← peerAt p
  match o.io with
  | .again => pure 0
  | .error => do
      peerKill p
      pure 0
  | .bytes n => do
      let nread := transferred n (peer.readIov rmax)
      if nread = 0 then do
        peerKill p
        pure 0
      else do
        record .input nread
        parse p (.ofNat nread) o
        pure (.ofNat nread)

/-- `IOV_MAX` -/
def iovMax : Nat := 1024

/-- `BLOCK_MEM_COUNT` -/
def blockMemCount : Nat := 1

/-- What the first loop of `net_write` gives: the lengths of the buffers and the queue, in
which the data of a block may have been filled in; or it has failed to, or has found a
header without data behind it. -/
inductive Collected
  | done (iovs : List UInt64) (outq : List NetBuf)
  | unfilled
  | nullDeref
  deriving DecidableEq, Repr

/-- One buffer more is collected. -/
def Collected.cons (iov : UInt64) (nb : NetBuf) : Collected → Collected
  | .done iovs outq => .done (iov :: iovs) (nb :: outq)
  | .unfilled => .unfilled
  | .nullDeref => .nullDeref

/-- The length of a buffer in the first loop of `net_write`, of which `off` bytes are out. -/
def NetBuf.iovLen (nb : NetBuf) (off : UInt64) (limited : Bool) (wmax : UInt64) : UInt64 :=
  let len := nb.len - off
  if limited ∧ wmax < len then wmax else len

/-- The first loop of `net_write`, with room for so many buffers. -/
def collect (limited fillFails : Bool) : (room : Nat) → (wmax : UInt64) → (blocks : Nat) →
    (off : UInt64) → List NetBuf → Collected
  | 0, _, _, _, outq => .done [] outq
  | _, _, _, _, [] => .done [] []
  | room + 1, wmax, blocks, off, nb :: rest =>
      if limited ∧ wmax = 0 then .done [] (nb :: rest)
      else
        let iov := nb.iovLen off limited wmax
        let wmax := if limited then wmax - iov else wmax
        if nb.type = .piece then
          if blockMemCount ≤ blocks then .done [] (nb :: rest)
          else
            match rest with
            | [] => .nullDeref
            | data :: rest =>
                if data.filled = false ∧ fillFails then .unfilled
                else (collect limited fillFails room wmax (blocks + 1) 0
                  ({ data with filled := true } :: rest)).cons iov nb
        else (collect limited fillFails room wmax blocks 0 rest).cons iov nb

/-- The second loop of `net_write`: what is left of the queue when so many bytes are out. -/
def written : (off bcount : UInt64) → List NetBuf → Option (List NetBuf × UInt64)
  | off, bcount, [] => if bcount = 0 then some ([], off) else none
  | off, bcount, nb :: outq =>
      if bcount = 0 then some (nb :: outq, off)
      else
        let bufdelta := nb.len - off
        if bufdelta ≤ bcount then written 0 (bcount - bufdelta) outq
        else some (nb :: outq, off + bcount)

/-- The end of `net_write`, when so many bytes are out. -/
def wrote (p : Nat) (peer : Peer) (nwritten : Nat) : NetRoutine UInt64 :=
  match written peer.outqOff (.ofNat nwritten) peer.outq with
  | none => fault .nullDeref
  | some (outq, outqOff) => do
      setPeer p { peer with
        outq := outq
        outqOff := outqOff
        ioev := if outq = [] then setFlag peer.ioev .output false else peer.ioev }
      pure (.ofNat nwritten)

/-- `net_write` after its first loop. -/
def writeOut (p : Nat) (peer : Peer) (iovs : List UInt64) : Io → NetRoutine UInt64
  | .again => pure 0
  | .error => do
      peerKill p
      pure 0
  | .bytes n => do
      let nwritten := transferred n iovs
      if nwritten = 0 then do
        peerKill p
        pure 0
      else do
        record .output nwritten
        wrote p peer nwritten

/-- `net_write` -/
def netWrite (p : Nat) (wmax : UInt64) (o : Outcome) : NetRoutine UInt64 := do
  noteCall .output wmax
  let peer ← peerAt p
  match peer.outq with
  | [] => fault .writeEmpty
  | first :: rest =>
      let blocks := if first.type = .torrentData then 1 else 0
      match collect (0 < wmax) o.fillFails iovMax wmax blocks peer.outqOff (first :: rest) with
      | .nullDeref => fault .nullDeref
      | .unfilled => do
          peerKill p
          pure 0
      | .done iovs outq => do
          let peer := { peer with outq := outq }
          setPeer p peer
          writeOut p peer iovs o.io

/-! ## The limits -/

/-- `net_read` or `net_write`. -/
def transfer : Dir → (p : Nat) → (max : UInt64) → Outcome → NetRoutine UInt64
  | .input => netRead
  | .output => netWrite

/-- What has gone is taken from `m_bw_bytes_in` or `m_bw_bytes_out`. -/
def spend (d : Dir) (p : Nat) (o : Outcome) : NetRoutine Unit := do
  let n ← get
  let nbytes ← transfer d p (n.budget d) o
  modify fun n => { n with budget := Function.update n.budget d (n.budget d - nbytes) }

/-- Put a peer at the end of a queue, without its event. -/
def enqueue (d : Dir) (p : Nat) : NetRoutine Unit := do
  let peer ← peerAt p
  setPeer p { peer with
    ioev := setFlag peer.ioev d false
    onQueue := setFlag peer.onQueue d true }
  modify fun n => { n with queue := Function.update n.queue d (n.queue d ++ [p]) }

/-- The callback of a peer for one direction. -/
def ioCb (d : Dir) (p : Nat) (o : Outcome) : NetRoutine Unit := do
  let n ← get
  if n.limit d = 0 then do
    let _ ← transfer d p 0 o
  else if 0 < n.budget d then spend d p o
  else enqueue d p

/-- `net_read_cb` -/
def netReadCb (p : Nat) (o : Outcome) : NetRoutine Unit := ioCb .input p o

/-- `net_write_cb` -/
def netWriteCb (p : Nat) (o : Outcome) : NetRoutine Unit := ioCb .output p o

/-- The first peer of a queue is taken out, with its event. -/
def dequeue (d : Dir) (p : Nat) (rest : List Nat) : NetRoutine Unit := do
  modify fun n => { n with queue := Function.update n.queue d rest }
  let peer ← peerAt p
  setPeer p { peer with
    ioev := setFlag peer.ioev d true
    onQueue := setFlag peer.onQueue d false }

/-- What comes after the loop for one direction in `net_bw_tick`. -/
def Dir.next : Dir → Stage
  | .input => .serving .output
  | .output => .idle

/-- A turn of the loop for one direction in `net_bw_tick`. -/
def serve (d : Dir) (o : Outcome) : NetRoutine Unit := do
  let n ← get
  match n.queue d with
  | [] => modify fun n => { n with stage := d.next }
  | p :: rest =>
      if n.limit d = 0 then do
        dequeue d p rest
        let _ ← transfer d p 0 o
      else if 0 < n.budget d then do
        dequeue d p rest
        spend d p o
      else modify fun n => { n with stage := d.next }

/-- The start of `net_bw_tick`; also `net_init` sets the two numbers so. -/
def Net.refill (n : Net) : Net := { n with
  budget := fun d => (n.limit d).toUInt64
  book := fun d => ⟨0, true, (n.book d).unlimited⟩ }

/-- `cmd_rate` -/
def Net.rate (n : Net) (up down : UInt32) : Net :=
  let limit : Dir → UInt32
    | .input => down
    | .output => up
  { n with
    limit := limit
    book := fun d => { n.book d with fixed := (n.book d).fixed && n.limit d = limit d } }

/-! ## Events -/

/-- What happens: a peer is ready for reading or writing, the rest of the program does
something, the limits are changed, and the heartbeat with the turns of its loops. -/
inductive NetEvent
  | ready (d : Dir) (p : Nat) (o : Outcome)
  | deeds (ds : List Deed)
  | rate (up down : UInt32)
  | tick
  | turn (o : Outcome)

/-- The event loop calls for the events of the peer that are enabled. -/
def Net.Ready (n : Net) (d : Dir) (p : Nat) : Prop := ∃ peer ∈ n.peer p, peer.ioev d = true

instance (n : Net) (d : Dir) (p : Nat) : Decidable (n.Ready d p) :=
  inferInstanceAs (Decidable (∃ peer ∈ n.peer p, _))

/-- `net_io_cb` -/
def netIoCb (p : Nat) (o : Outcome) : Dir → NetRoutine Unit
  | .input => netReadCb p o
  | .output => netWriteCb p o

/-- One event. -/
def netHandle : NetEvent → NetRoutine Unit
  | .ready d p o => do
      let n ← get
      when (n.stage = .idle ∧ n.Ready d p) (netIoCb p o d)
  | .deeds ds => do
      let n ← get
      when (n.stage = .idle) (forEach ds Deed.run)
  | .rate up down => do
      let n ← get
      when (n.stage = .idle) (modify fun n => n.rate up down)
  | .tick => do
      let n ← get
      when (n.stage = .idle) (modify fun n => { n.refill with stage := .serving .input })
  | .turn o => do
      let n ← get
      match n.stage with
      | .idle => pure ()
      | .serving d => serve d o

/-- `net_init`, with any limits and any peers that wait for nothing. -/
structure Net.Init (n : Net) : Prop where
  queue : ∀ d, n.queue d = []
  budget : ∀ d, n.budget d = (n.limit d).toUInt64
  stage : n.stage = .idle
  book : ∀ d, n.book d = ⟨0, true, false⟩

/-- The peers under the limits. -/
def limited : System Net Empty NetFault NetEvent := ⟨Net.Init, netHandle⟩

end Btpd.Bandwidth
