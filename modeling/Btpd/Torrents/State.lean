import Btpd.Library.Program
import Mathlib

/-!
# The library and the torrents

What `tlib.c`, `torrent.c` and `btpd.c` keep: the entries of the library with the
number table and the hash table, the torrents with their list, and the directories
under `torrents/`.  Entries and torrents are named by numbers that are never used
again, and a pointer is followed only while what it points to has not been freed.

Of the content, the connections and the trackers of a torrent the state has what the
torrent's own code asks for.
-/

namespace Btpd.Torrents

/-- An info hash. -/
abbrev Hash := List UInt8

/-- The state of `struct content` -/
inductive CmState
  | inactive | starting | active
  deriving DecidableEq, Repr

/-- `enum torrent_state` -/
inductive TorrentState
  | starting | leech | seed | stopping | ghost
  deriving DecidableEq, Repr

/-- `struct torrent`, with the state and `error` of its content, `net_active` and
`tr_active`. -/
structure Torrent where
  tl : Nat
  state : TorrentState
  delete : Bool
  cm : CmState
  error : Bool
  netActive : Bool
  trActive : Bool
  deriving DecidableEq, Repr

/-- `struct tlib`.  An entry whose info file could not be read has no `dir`. -/
structure Tlib where
  num : Nat
  hash : Hash
  tp : Option Nat
  dir : Bool
  deriving DecidableEq, Repr

/-- The state of the daemon. -/
structure Daemon where
  tlib : Nat → Tlib
  /-- The entries that have not been freed. -/
  tls : List Nat
  numtbl : List Nat
  hashtbl : List Nat
  mNextnum : Nat
  nextTl : Nat
  torrent : Nat → Torrent
  /-- The torrents that have not been freed. -/
  tps : List Nat
  mTorrents : List Nat
  mNtorrents : Nat
  mNghosts : Nat
  mSavetp : Option Nat
  mTsave : Nat
  nextTp : Nat
  /-- The hashes with a directory under `torrents/`. -/
  dirs : List Hash
  btpdSeconds : Nat
  mSignal : Bool
  mShutdown : Bool
  mGhost : Bool
  exited : Bool

/-- The ways in which the code stops. -/
inductive Fault
  /-- A torrent is used after it has been freed. -/
  | torrentFreed
  /-- An entry is used after it has been freed. -/
  | entryFreed
  /-- A torrent is removed from a list that it is not on. -/
  | unlinked
  /-- `m_ntorrents > 0` in `torrent_kill` -/
  | ntorrents
  /-- `!(net_active(tp) || cm_active(tp))` in `torrent_kill` -/
  | stillActive
  /-- `torrent_startable(tl)` in `torrent_start` -/
  | notStartable
  /-- `tl->tp == NULL || tl->tp->state == T_GHOST` in `tlib_del` -/
  | notGhost
  /-- `tl->tp != NULL` in `tlib_update_info`, and where a null pointer is followed. -/
  | nullDeref
  /-- `mkdir` finds the directory in `tlib_add`. -/
  | dirExists
  /-- The directory is not there when `save_info` writes to it. -/
  | dirMissing
  /-- A torrent could not be started in `cmd_start_all`. -/
  | startAll
  deriving DecidableEq, Repr

/-- The routines whose calls are recorded. -/
inductive Fn
  | tlibCreate
  | tlibReadd
  | torrentStop (tp : Nat) (delete : Bool)
  /-- `trStays` tells whether `tr_stop` would leave a tracker active. -/
  | torrentOnTick (tp : Nat) (trStays : Bool)
  deriving DecidableEq, Repr

/-- A routine of the daemon. -/
abbrev Routine := Prog Daemon Fn Fault

end Btpd.Torrents
