import Btpd.Swarm.Queues
import Btpd.Swarm.Table

/-!
# The events of the daemon

What the callbacks of the event loop, the timers and the commands do to the
connections: `net_connection_cb`, the responses of the trackers, `net_io_cb`, the
choke timer, the heartbeat and the commands for torrents.  Each event names what is
decided elsewhere: what comes from the sockets, what the upload and download code
sends and takes back, and what the content and the trackers have come to.
-/

namespace Btpd.Swarm

open Prog

/-! ## What other code does -/

/-- What the upload and the download code does on the way: it queues a buffer for a
connection, takes the link `i` of its queue back, or starts on a piece. -/
inductive Deed
  | send (p len : Nat)
  | unsend (p i : Nat)
  | alloc (n index nblocks : Nat)

/-- `peer_send` -/
def peerSend (p len : Nat) : Routine Unit := onQueues (·.peerSend p len)

/-- `peer_unsend` -/
def peerUnsend (p i : Nat) : Routine Unit := onQueues (·.peerUnsend p i)

/-- One deed.  Only connections, links and torrents that exist are found. -/
def doDeed : Deed → Routine Unit
  | .send p len => do
      let d ← get
      when (p ∈ d.roster.live) (peerSend p len)
  | .unsend p i => do
      let d ← get
      when (p ∈ d.roster.live ∧ i < (d.queues.sock p).outq.length) (peerUnsend p i)
  | .alloc n index nblocks => do
      let d ← get
      when ((d.roster.net n).active = true ∧ (d.table.dlFindPiece n index).isNone)
        (onTable (·.pieceAlloc n index nblocks))

def doDeeds (deeds : List Deed) : Routine Unit := forEach deeds doDeed

/-! ## Connections -/

/-- `peer_create_common` -/
def peerCreateCommon (n : Option Nat) : Routine Nat := do
  let d ← get
  let p := d.roster.nextPeer
  onTable (·.mpCreate p)
  onQueues fun q => .ok (q.open_ p)
  onRoster fun r => .ok (r.peerCreate n)
  pure p

/-- `peer_create_in` -/
def peerCreateIn : Routine Unit := do
  let _ ← peerCreateCommon none

/-- `peer_create_out` once there is a socket. -/
def peerCreateOut (n : Nat) : Routine Unit := do
  let p ← peerCreateCommon (some n)
  peerSend p 68

/-- `peer_kill`, where `lost` is what `choke_do` and `dl_on_lost_peer` do. -/
def peerKill (p : Nat) (lost : List Deed) : Routine Unit := do
  let d ← get
  onRoster (·.lose p)
  when ((d.roster.peer p).attached = true ∧
      ((d.roster.peer p).n.any fun n => (d.roster.net n).active) = true) (doDeeds lost)
  onQueues (·.drop p)
  onTable fun t => t.setMp p { t.mp p with p := false }
  mpDrop p (d.roster.peer p).n
  onRoster fun r => .ok (r.free p)

/-! ## Reading -/

/-- What becomes of a block that has been asked for: the piece is not complete, or
it is tested, and when it is good the peers are named that are found out. -/
inductive Test
  | open_
  | ok (culprit : Nat → Bool)
  | bad

/-- A block of a piece in progress. -/
structure Block where
  index : Nat
  block : Nat
  test : Test

/-- A unit for `net_state`, with what is decided elsewhere: whether it is right, the
torrent of its hash, the id in it, the buffers that `peer_on_shake` sends, the place
on `m_peerq`, the block in it, what is done for it, and what is done when it ends
the connection. -/
structure Input where
  good : Bool
  torrent : Option Nat
  id : List UInt8
  greeting : List Nat
  place : Nat
  block : Option Block
  deeds : List Deed
  lost : List Deed

/-- `dl_on_block` -/
def dlOnBlock (p : Nat) (b : Block) : Routine Unit := do
  let d ← get
  match (d.roster.peer p).n with
  | none => fault .nullDeref
  | some n =>
      -- requests are only for pieces in progress
      when ((d.table.dlFindPiece n b.index).isSome) do
        pieceLogBlock n b.index p b.block
        match b.test with
        | .open_ => pure ()
        | .ok culprit => dlOnOkPiece n b.index culprit
        | .bad => dlOnBadPiece n b.index

/-- `peer_set_in_state` -/
def peerSetInState (p : Nat) (stage : Stage) : Routine Unit :=
  onRoster fun r => .ok (r.setPeer p { r.peer p with stage := stage })

/-- `peer_on_shake` -/
def peerOnShake (p n : Nat) (u : Input) : Routine Unit := do
  forEach u.greeting (peerSend p)
  onTable (·.mptblInsert n p u.id)
  onRoster (·.attach p n u.place)
  doDeeds u.deeds

/-- The end of `net_state` for bad data. -/
def badData (p : Nat) (u : Input) : Routine Bool := do
  peerKill p u.lost
  pure false

/-- `net_state`, which gives back whether the connection goes on. -/
def netState (p : Nat) (u : Input) : Routine Bool := do
  let d ← get
  match (d.roster.peer p).stage with
  | .shakePstr =>
      if u.good then do
        peerSetInState p .shakeInfo
        pure true
      else badData p u
  | .shakeInfo =>
      if (d.roster.peer p).incoming then
        match d.roster.torrentByHash u.torrent with
        | none => badData p u
        | some n => do
            onRoster fun r => .ok (r.setPeer p { r.peer p with n := some n })
            peerSend p 68
            peerSetInState p .shakeId
            pure true
      else if u.good then do
        peerSetInState p .shakeId
        pure true
      else badData p u
  | .shakeId =>
      match (d.roster.peer p).n with
      | none => fault .nullDeref
      | some n =>
          if (d.table.mptblFind n u.id).isSome ∨ u.id = d.table.peerId then badData p u
          else do
            peerOnShake p n u
            peerSetInState p .btpMsg
            pure true
  | .btpMsg =>
      if u.good then do
        doDeeds u.deeds
        match u.block with
        | none => pure true
        | some b => do
            dlOnBlock p b
            pure true
      else badData p u

/-- The units that `net_read` takes from what it has read. -/
def netStates (p : Nat) : List Input → Routine Unit
  | [] => pure ()
  | u :: us => do
      let good ← netState p u
      when (good = true) (netStates p us)

/-- What `readv` gives. -/
inductive Got
  | again
  | closed
  | bytes (nread : Nat) (units : List Input)

/-- A read, with what is done when it ends the connection. -/
structure ReadResult where
  got : Got
  lost : List Deed

/-- `net_read`, which gives back how many bytes it has read. -/
def netRead (p rmax : Nat) (o : ReadResult) : Routine Nat :=
  match o.got with
  | .again => pure 0
  | .closed => do
      peerKill p o.lost
      pure 0
  | .bytes nread units => do
      netStates p units
      pure (if 0 < rmax then min nread rmax else nread)

/-! ## Writing -/

/-- What `writev` gives, or that a block could not be read. -/
inductive Put
  | unfilled
  | again
  | closed
  | bytes (nwritten : Nat)

/-- A write, with what is done when it ends the connection. -/
structure WriteResult where
  put : Put
  lost : List Deed

/-- `net_write`, which gives back how many bytes it has written. -/
def netWrite (p wmax : Nat) (o : WriteResult) : Routine Nat := do
  let d ← get
  assert ((d.queues.sock p).outq ≠ []) .writeEmpty
  match o.put with
  | .again => pure 0
  | .unfilled | .closed => do
      peerKill p o.lost
      pure 0
  | .bytes nwritten =>
      let nwritten := min nwritten (d.queues.unwritten p)
      let nwritten := if 0 < wmax then min nwritten wmax else nwritten
      if nwritten = 0 then do
        peerKill p o.lost
        pure 0
      else do
        onQueues fun q => .ok (q.afterWrite p nwritten)
        pure nwritten

/-- `net_read_cb` -/
def netReadCb (p : Nat) (o : ReadResult) : Routine Unit := do
  let d ← get
  if d.bwLimitIn = 0 then do
    let _ ← netRead p 0 o
  else if 0 < d.bwBytesIn then do
    let nread ← netRead p d.bwBytesIn o
    modify fun d => { d with bwBytesIn := d.bwBytesIn - nread }
  else onQueues fun q => .ok (q.waitRead p)

/-- `net_write_cb` -/
def netWriteCb (p : Nat) (o : WriteResult) : Routine Unit := do
  let d ← get
  if d.bwLimitOut = 0 then do
    let _ ← netWrite p 0 o
  else if 0 < d.bwBytesOut then do
    let nwritten ← netWrite p d.bwBytesOut o
    modify fun d => { d with bwBytesOut := d.bwBytesOut - nwritten }
  else onQueues fun q => .ok (q.waitWrite p)

/-! ## The heartbeat -/

/-- What a second brings: the timeouts of each connection, what its socket has if
the limiter lets it, and what the content and the trackers of each torrent have come
to. -/
structure Second where
  idle : Nat → Bool
  stuck : Nat → Bool
  bored : Nat → Bool
  late : Nat → Bool
  read : Nat → ReadResult
  write : Nat → WriteResult
  lost : Nat → List Deed
  cmError : Nat → Bool
  cmStarted : Nat → Bool
  cmFull : Nat → Bool
  cmActive : Nat → Bool
  trActive : Nat → Bool
  full : Nat → Bool
  choke : Nat → List Deed

/-- `peer_on_tick` -/
def peerOnTick (s : Second) (p : Nat) : Routine Unit := do
  let d ← get
  if (d.table.mp p).banned then peerKill p (s.lost p)
  else if (d.roster.peer p).attached then
    if (d.queues.sock p).outq = [] then do
      when (s.idle p = true) (peerSend p 4)
      when (s.bored p = true) (peerKill p (s.lost p))
    else when (s.stuck p = true ∨ s.bored p = true) (peerKill p (s.lost p))
  else when (s.late p = true) (peerKill p (s.lost p))

/-- `run_peer_ticks` -/
def runPeerTicks (s : Second) : Routine Unit := do
  let d ← get
  forEach d.roster.unattached (peerOnTick s)
  forEach d.roster.torrents fun n => do
    let d ← get
    forEach (d.roster.net n).peers (peerOnTick s)

/-- The loop of `net_bw_tick` over `net_bw_readq`. -/
def readTick (s : Second) : (fuel : Nat) → Routine Unit
  | 0 => fault .diverge
  | fuel + 1 => do
      let d ← get
      match d.queues.readq with
      | [] => pure ()
      | p :: _ => when (d.bwLimitIn = 0 ∨ 0 < d.bwBytesIn) do
          onQueues (·.wakeRead p)
          let nread ← netRead p (if d.bwLimitIn = 0 then 0 else d.bwBytesIn) (s.read p)
          modify fun d => { d with bwBytesIn := d.bwBytesIn - nread }
          readTick s fuel

/-- The loop of `net_bw_tick` over `net_bw_writeq`. -/
def writeTick (s : Second) : (fuel : Nat) → Routine Unit
  | 0 => fault .diverge
  | fuel + 1 => do
      let d ← get
      match d.queues.writeq with
      | [] => pure ()
      | p :: _ => when (d.bwLimitOut = 0 ∨ 0 < d.bwBytesOut) do
          onQueues (·.wakeWrite p)
          let nwritten ← netWrite p (if d.bwLimitOut = 0 then 0 else d.bwBytesOut) (s.write p)
          modify fun d => { d with bwBytesOut := d.bwBytesOut - nwritten }
          writeTick s fuel

/-- `net_bw_tick` -/
def netBwTick (s : Second) : Routine Unit := do
  modify fun d => { d with bwBytesOut := d.bwLimitOut, bwBytesIn := d.bwLimitIn }
  let d ← get
  readTick s (d.queues.readq.length + 1)
  let d ← get
  writeTick s (d.queues.writeq.length + 1)

/-! ## Torrents -/

/-- `net_stop` -/
def netStop (n : Nat) (choke : List Deed) : Routine Unit := do
  onRoster (·.deactivate n)
  doDeeds choke
  let d ← get
  piecesFree n ((d.table.getlst n).length + 1)
  let d ← get
  forEach d.roster.unattached fun p => do
    let d ← get
    when ((d.roster.peer p).n = some n) (peerKill p [])
  let d ← get
  forEach (d.roster.net n).peers fun p => peerKill p []

/-- `torrent_kill` with `net_kill`. -/
def torrentKill (n : Nat) : Routine Unit := do
  let d ← get
  assert ((d.roster.net n).active = false) .killActive
  onRoster fun r => .ok { r with torrents := r.torrents.erase n }
  mpsKill n

/-- `torrent_stop`, where the content may take time to stop and the trackers to be
told. -/
def torrentStop (n : Nat) (cmActive trActive : Bool) (choke : List Deed) : Routine Unit := do
  let d ← get
  when ((d.roster.net n).state = .leech ∨ (d.roster.net n).state = .seed ∨
      (d.roster.net n).state = .starting) do
    onRoster fun r => .ok (r.setNet n { r.net n with state := .stopping })
    when ((d.roster.net n).active = true) (netStop n choke)
    onRoster fun r => .ok (r.setNet n { r.net n with tracked := false })
    when (cmActive = false) do
      onRoster fun r => .ok (r.setNet n { r.net n with state := .ghost })
      when (trActive = false) (torrentKill n)

/-- `torrent_on_tick` -/
def torrentOnTick (s : Second) (n : Nat) : Routine Unit := do
  let d ← get
  when ((d.roster.net n).state ≠ .stopping ∧ s.cmError n = true)
    (torrentStop n (s.cmActive n) (s.trActive n) (s.choke n))
  let d ← get
  -- a torrent that has just been stopped may be gone
  assert (n ∈ d.roster.torrents) .torrentFreed
  match (d.roster.net n).state with
  | .starting =>
      when (s.cmStarted n = true)
        (onRoster fun r => .ok (r.setNet n
          { r.net n with
            state := if s.cmFull n then .seed else .leech, active := true, tracked := true }))
  | .leech =>
      when (s.cmFull n = true) do
        onRoster fun r => .ok (r.setNet n { r.net n with state := .seed })
        forEach (d.roster.net n).peers fun p => when (s.full p = true) (peerKill p (s.lost p))
  | .stopping =>
      when (s.cmActive n = false) do
        onRoster fun r => .ok (r.setNet n { r.net n with state := .ghost })
        when (s.trActive n = false) (torrentKill n)
  | .ghost => when (s.trActive n = false) (torrentKill n)
  | .seed => pure ()

/-- `heartbeat_cb` -/
def heartbeat (s : Second) : Routine Unit := do
  runPeerTicks s
  netBwTick s
  let d ← get
  forEach d.roster.torrents (torrentOnTick s)

/-! ## Events -/

/-- What can happen to the daemon. -/
inductive Event
  /-- A peer connects. -/
  | accept
  /-- A tracker names peers, of which some can be connected to. -/
  | reply (n : Nat) (peers : List Bool)
  | read (p : Nat) (o : ReadResult)
  | write (p : Nat) (o : WriteResult)
  /-- The choke timer, which moves the first peers of `m_peerq` to its end. -/
  | choke (i : Nat) (deeds : List Deed)
  | heartbeat (s : Second)
  /-- A torrent is started, in place of its ghost if there is one. -/
  | start (ghost : Option Nat)
  | stop (n : Nat) (cmActive trActive : Bool) (choke : List Deed)
  | rate (up down : Nat)

/-- `net_connection_cb` -/
def netConnectionCb : Routine Unit := do
  let d ← get
  assert (d.roster.netNpeers ≤ d.roster.netMaxPeers) .maxPeers
  when (d.roster.netNpeers ≠ d.roster.netMaxPeers) peerCreateIn

/-- The loops of `parse_reply`. -/
def parseReply (n : Nat) : List Bool → Routine Unit
  | [] => pure ()
  | connects :: peers => do
      let d ← get
      when (d.roster.netNpeers < d.roster.netMaxPeers) do
        when (connects = true) (peerCreateOut n)
        parseReply n peers

/-- What the daemon does on an event.  The event loop calls back only for events
that the mask of the connection enables. -/
def handle : Event → Routine Unit
  | .accept => netConnectionCb
  | .reply n peers => do
      let d ← get
      when ((d.roster.net n).tracked = true) (parseReply n peers)
  | .read p o => do
      let d ← get
      when (p ∈ d.roster.live ∧ (d.queues.sock p).evRead = true) (netReadCb p o)
  | .write p o => do
      let d ← get
      when (p ∈ d.roster.live ∧ (d.queues.sock p).evWrite = true) (netWriteCb p o)
  | .choke i deeds => do
      onRoster fun r => .ok (r.shuffleOptimists i)
      doDeeds deeds
  | .heartbeat s => heartbeat s
  | .start ghost => do
      forEach ghost.toList fun n => do
        let d ← get
        when (n ∈ d.roster.torrents ∧ (d.roster.net n).state = .ghost) (torrentKill n)
      onRoster fun r => .ok r.torrentStart
  | .stop n cmActive trActive choke => do
      let d ← get
      when (n ∈ d.roster.torrents) (torrentStop n cmActive trActive choke)
  | .rate up down => modify fun d => { d with bwLimitOut := up, bwLimitIn := down }

/-- The daemon when it starts. -/
def Daemon.create (netMaxPeers bwLimitIn bwLimitOut : Nat) (peerId : List UInt8) : Daemon where
  queues := ⟨fun _ => ⟨[], 0, false, false, false, false⟩, [], []⟩
  roster :=
    { peer := fun _ => ⟨none, .shakePstr, false, false⟩
      net := fun _ => ⟨.ghost, false, false, 0, []⟩
      torrents := []
      unattached := []
      mPeerq := []
      mNpeers := 0
      live := []
      netNpeers := 0
      netMaxPeers := netMaxPeers
      nextPeer := 0
      nextNet := 0 }
  table :=
    { mp := fun _ => ⟨false, 0, [], false⟩
      mps := []
      mptbl := fun _ => []
      getlst := fun _ => []
      peerId := peerId
      history := [] }
  bwLimitIn := bwLimitIn
  bwLimitOut := bwLimitOut
  bwBytesIn := bwLimitIn
  bwBytesOut := bwLimitOut

/-- The daemon, from its start on. -/
def system : System Daemon Fn Fault Event where
  start d := ∃ netMaxPeers bwLimitIn bwLimitOut peerId,
    d = Daemon.create netMaxPeers bwLimitIn bwLimitOut peerId
  handle := handle

end Btpd.Swarm
