import Btpd.Library.Program
import Mathlib

/-!
# The connections of the daemon

The state that `net.c`, `peer.c` and `upload.c` keep for all torrents: which
connections there are, the lists they are on, their output queues and event masks,
and the `meta_peer` of each with what refers to it.  A connection and its
`meta_peer` have one number, and the flags of the `meta_peer` stand with the part
that uses them.

The state has three parts that are changed by different routines: the queues of
the connections, the lists of the connections, and the table of the `meta_peer`s.
Which messages the upload and the download code sends is left open.
-/

namespace Btpd.Swarm

/-! ## Queues -/

/-- The output queue of a connection, as the lengths of its buffers, and its event
mask with `PF_ON_READQ` and `PF_ON_WRITEQ`. -/
structure Sock where
  outq : List Nat
  outqOff : Nat
  /-- `EV_READ` is enabled. -/
  evRead : Bool
  /-- `EV_WRITE` is enabled. -/
  evWrite : Bool
  onReadq : Bool
  onWriteq : Bool

/-- The sockets, `net_bw_readq` and `net_bw_writeq`. -/
structure Queues where
  sock : Nat → Sock
  readq : List Nat
  writeq : List Nat

/-! ## Lists -/

/-- `enum input_state`, with one state for all parts of a message. -/
inductive Stage
  | shakePstr | shakeInfo | shakeId | btpMsg
  deriving DecidableEq, Repr

/-- What a connection is for: `p->n`, `PF_INCOMING` and `PF_ATTACHED`. -/
structure Peer where
  n : Option Nat
  stage : Stage
  incoming : Bool
  attached : Bool

/-- `enum torrent_state` -/
inductive TorrentState
  | starting | leech | seed | stopping | ghost
  deriving DecidableEq, Repr

/-- A torrent with its `struct net`.  A response of a tracker can come while the
torrent is tracked: `tr_start` begins that, and `tr_stop` cancels the requests that
are out and sends only the last event. -/
structure Net where
  state : TorrentState
  tracked : Bool
  active : Bool
  npeers : Nat
  peers : List Nat

/-- The connections and the torrents, and the lists that connections are on. -/
structure Roster where
  peer : Nat → Peer
  net : Nat → Net
  torrents : List Nat
  unattached : List Nat
  mPeerq : List Nat
  mNpeers : Nat
  /-- The connections that have not been freed. -/
  live : List Nat
  netNpeers : Nat
  netMaxPeers : Nat
  nextPeer : Nat
  nextNet : Nat

/-! ## The table of peers -/

/-- `struct blog_record` -/
structure BlogRecord where
  mp : Nat
  downField : Nat → Bool

/-- `struct piece`, with the logs of the attempts to download it, newest first. -/
structure Piece where
  index : Nat
  nblocks : Nat
  logs : List (List BlogRecord)

/-- `struct meta_peer` -/
structure MetaPeer where
  /-- `mp->p != NULL` -/
  p : Bool
  refs : Nat
  id : List UInt8
  /-- `PF_BANNED` -/
  banned : Bool

/-- What is noted of the ids: one is attached to a torrent, or banned from it. -/
inductive Mark
  | attached (n : Nat) (id : List UInt8)
  | banned (n : Nat) (id : List UInt8)
  deriving DecidableEq, Repr

/-- The `meta_peer`s, the table and the pieces in progress of every torrent. -/
structure Table where
  mp : Nat → MetaPeer
  /-- The `meta_peer`s that have not been freed. -/
  mps : List Nat
  mptbl : Nat → List Nat
  getlst : Nat → List Piece
  /-- `btpd_get_peer_id` -/
  peerId : List UInt8
  /-- What has been noted, newest first.  No routine reads it. -/
  history : List Mark

/-! ## The daemon -/

/-- The state of the daemon, with the bandwidth limits and what is left of them. -/
structure Daemon where
  queues : Queues
  roster : Roster
  table : Table
  bwLimitIn : Nat
  bwLimitOut : Nat
  bwBytesIn : Nat
  bwBytesOut : Nat

/-- The ways in which the code stops. -/
inductive Fault
  /-- An element is removed from a list that it is not on. -/
  | unlinked
  /-- A null pointer is followed. -/
  | nullDeref
  /-- `outq_off == 0` in `peer_send` -/
  | outqOff
  /-- the queue is not empty in `net_write` -/
  | writeEmpty
  /-- `net_npeers <= net_max_peers` in `net_connection_cb` -/
  | maxPeers
  /-- `m_npeers > 0` in `ul_on_lost_peer` -/
  | npeers
  /-- A loop never ends. -/
  | diverge
  /-- `!net_active` in `torrent_kill` -/
  | killActive
  /-- A torrent is used after it has been freed. -/
  | torrentFreed
  /-- A `meta_peer` is used after it has been freed. -/
  | freed
  /-- `refs > 0` in `mp_drop` -/
  | mpRefs
  /-- `mp->p == NULL` in `mp_drop` -/
  | mpAlive
  /-- `mptbl_remove` gives the `meta_peer` back in `mp_drop`. -/
  | mptblRemove
  deriving DecidableEq, Repr

/-- The routine whose calls are recorded. -/
inductive Fn
  | mpHold (m : Nat)
  deriving DecidableEq, Repr

/-- A routine of the daemon. -/
abbrev Routine := Prog Daemon Fn Fault

/-- `BTPDQ_REMOVE` -/
def remove (p : Nat) (l : List Nat) : Except Fault (List Nat) :=
  if p ∈ l then .ok (l.erase p) else .error .unlinked

/-- Change the queues. -/
def onQueues (f : Queues → Except Fault Queues) : Routine Unit := do
  let d ← Prog.get
  let queues ← Prog.ofExcept (f d.queues)
  Prog.modify fun d => { d with queues := queues }

/-- Change the lists. -/
def onRoster (f : Roster → Except Fault Roster) : Routine Unit := do
  let d ← Prog.get
  let roster ← Prog.ofExcept (f d.roster)
  Prog.modify fun d => { d with roster := roster }

/-- Change the table. -/
def onTable (f : Table → Table) : Routine Unit :=
  Prog.modify fun d => { d with table := f d.table }

section

open Prog

variable {k : Contract Daemon Fn Fault} {callers : List Fn} {post : Unit → Daemon → Prop}
  {d : Daemon}

@[simp]
theorem wp_onQueues {f : Queues → Except Fault Queues} :
    (onQueues f).wp k callers post d ↔
      Ends k.allowed (f d.queues) fun queues => post () { d with queues := queues } := by
  unfold onQueues
  rw [wp_bind, wp_get, wp_bind, wp_ofExcept]
  simp only [wp_modify]

@[simp]
theorem wp_onRoster {f : Roster → Except Fault Roster} :
    (onRoster f).wp k callers post d ↔
      Ends k.allowed (f d.roster) fun roster => post () { d with roster := roster } := by
  unfold onRoster
  rw [wp_bind, wp_get, wp_bind, wp_ofExcept]
  simp only [wp_modify]

@[simp]
theorem wp_onTable {f : Table → Table} :
    (onTable f).wp k callers post d ↔ post () { d with table := f d.table } :=
  wp_modify

end

end Btpd.Swarm
