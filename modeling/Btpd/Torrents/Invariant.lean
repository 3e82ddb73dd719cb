import Btpd.Torrents.Daemon
import Btpd.Library.Count
import Mathlib

/-!
# What the library and the torrents keep

The invariant has four parts: the tables of the library, the list of the torrents
with its counts and `m_savetp`, the pointers between entries and torrents, and the
directories.  Each of the changes that the routines make keeps all four.

Four kinds of calls break a part for good, and each of the promises names the runs
without one of them: an entry is replaced while its deleted torrent waits for a
tracker, a number is used again, a tick stops a torrent that is gone at once, and a
ghost is deleted.
-/

namespace Btpd.Torrents

open Prog

/-- Which calls a run does not make. -/
structure Promise where
  linked : Prop
  numbered : Prop
  ticked : Prop
  kept : Prop

/-- A deleted torrent is added again before its trackers have been told. -/
def Readds (c : Call Daemon Fn) : Prop := c.fn = .tlibReadd

/-- The next number is that of an entry. -/
def Renumbers (c : Call Daemon Fn) : Prop :=
  c.fn = .tlibCreate ∧ ∃ tl ∈ c.entry.numtbl, (c.entry.tlib tl).num = c.entry.mNextnum

/-- A tick finds a torrent whose content has failed and whose trackers need not be
told. -/
def KillsInTick (c : Call Daemon Fn) : Prop :=
  match c.fn with
  | .torrentOnTick tp trStays =>
      (c.entry.torrent tp).error = true ∧
        ((c.entry.torrent tp).state = .leech ∨ (c.entry.torrent tp).state = .seed ∨
          (c.entry.torrent tp).state = .starting) ∧
        ((c.entry.torrent tp).trActive && trStays) = false
  | _ => False

/-- A torrent that has stopped is deleted. -/
def DeletesGhost (c : Call Daemon Fn) : Prop :=
  match c.fn with
  | .torrentStop tp true => (c.entry.torrent tp).state = .ghost
  | _ => False

instance : DecidablePred Readds := fun c => by
  unfold Readds
  infer_instance

instance : DecidablePred Renumbers := fun c => by
  unfold Renumbers
  infer_instance

instance : DecidablePred KillsInTick := fun c => by
  unfold KillsInTick
  split <;> infer_instance

instance : DecidablePred DeletesGhost := fun c => by
  unfold DeletesGhost
  split <;> infer_instance

/-- The contract of a promise. -/
def contract (p : Promise) : Contract Daemon Fn Fault where
  bad c := p.linked ∧ Readds c ∨ p.numbered ∧ Renumbers c ∨ p.ticked ∧ KillsInTick c ∨
    p.kept ∧ DeletesGhost c
  allowed e := e = .entryFreed ∧ ¬(p.linked ∧ p.numbered) ∨ e = .torrentFreed ∧ ¬p.ticked ∨
    (e = .dirMissing ∨ e = .dirExists) ∧ ¬p.kept ∨ e = .startAll

variable {p : Promise} {d : Daemon} {tl tp : Nat}

/-! ## The parts -/

/-- The tables hold the entries. -/
structure Library (p : Promise) (d : Daemon) : Prop where
  tls_lt : ∀ tl ∈ d.tls, tl < d.nextTl
  tls_nodup : d.tls.Nodup
  mem_hashtbl : ∀ tl, tl ∈ d.hashtbl ↔ tl ∈ d.tls
  hashtbl_nodup : d.hashtbl.Nodup
  hash_inj : ∀ tl ∈ d.tls, ∀ tl' ∈ d.tls, (d.tlib tl).hash = (d.tlib tl').hash → tl = tl'
  mem_numtbl : p.numbered → ∀ tl, tl ∈ d.numtbl ↔ tl ∈ d.tls
  numtbl_nodup : p.numbered → d.numtbl.Nodup
  num_inj : p.numbered → ∀ tl ∈ d.tls, ∀ tl' ∈ d.tls,
    (d.tlib tl).num = (d.tlib tl').num → tl = tl'

/-- The torrent is in the state `T_GHOST`. -/
def Daemon.ghost (d : Daemon) (tp : Nat) : Bool := decide ((d.torrent tp).state = .ghost)

/-- The list holds the torrents, and the counts are right. -/
structure Roster (d : Daemon) : Prop where
  tps_lt : ∀ tp ∈ d.tps, tp < d.nextTp
  tps_nodup : d.tps.Nodup
  mem_mTorrents : ∀ tp, tp ∈ d.mTorrents ↔ tp ∈ d.tps
  mTorrents_nodup : d.mTorrents.Nodup
  ntorrents : d.mNtorrents = d.mTorrents.length
  nghosts : d.mNghosts = d.mTorrents.countP d.ghost
  savetp_mem : ∀ tp, d.mSavetp = some tp → tp ∈ d.mTorrents
  savetp_none : d.mSavetp = none → d.mTorrents = []
  ghost_quiet : ∀ tp ∈ d.tps, (d.torrent tp).state = .ghost →
    (d.torrent tp).netActive = false ∧ (d.torrent tp).cm = .inactive
  not_stopping : ∀ tp ∈ d.tps, (d.torrent tp).state ≠ .stopping
  deleted : ∀ tp ∈ d.tps, (d.torrent tp).delete = true → (d.torrent tp).state = .ghost

/-- Entries and torrents point to each other. -/
structure Links (p : Promise) (d : Daemon) : Prop where
  tl_lt : ∀ tp ∈ d.tps, (d.torrent tp).tl < d.nextTl
  tl_inj : ∀ tp ∈ d.tps, ∀ tp' ∈ d.tps, (d.torrent tp).tl = (d.torrent tp').tl → tp = tp'
  tp_tl : ∀ tp ∈ d.tps, (d.torrent tp).tl ∈ d.tls →
    (d.tlib (d.torrent tp).tl).tp = some tp
  tl_tp : ∀ tl ∈ d.tls, ∀ tp, (d.tlib tl).tp = some tp → tp ∈ d.tps ∧
    ((d.torrent tp).tl = tl ∨
      ¬p.linked ∧ (d.torrent tp).tl ∉ d.tls ∧ (d.torrent tp).state = .ghost)
  tp_inj : ∀ tl ∈ d.tls, ∀ tl' ∈ d.tls, ∀ tp, (d.tlib tl).tp = some tp →
    (d.tlib tl').tp = some tp → tl = tl'
  alive : ∀ tp ∈ d.tps, (p.linked ∨ (d.torrent tp).state ≠ .ghost) →
    (d.torrent tp).tl ∈ d.tls

/-- `torrent_haunting` -/
def Daemon.Haunting (d : Daemon) (tl : Nat) : Prop :=
  ∃ tp, (d.tlib tl).tp = some tp ∧ (d.torrent tp).delete = true ∧ (d.torrent tp).state = .ghost

/-- The directories are those of the entries that are not haunting. -/
structure Dirs (p : Promise) (d : Daemon) : Prop where
  nodup : d.dirs.Nodup
  mem : p.kept → ∀ hash, hash ∈ d.dirs ↔
    ∃ tl ∈ d.tls, (d.tlib tl).hash = hash ∧ ¬d.Haunting tl

/-- The library, the torrents, the pointers and the directories are right. -/
structure Inv (p : Promise) (d : Daemon) : Prop where
  library : Library p d
  roster : Roster d
  links : Links p d
  dirs : Dirs p d

end Btpd.Torrents
