import Btpd.Torrents.Commands

/-!
# Runs of the daemon

What holds of the torrents and the library in every reachable state, for the runs
that keep a promise, and for each promise a run that breaks it.
-/

namespace Btpd.Torrents

open Prog

variable {p : Promise} {d : Daemon}

theorem inv_of_start (start : system.start d) : Inv p d := by
  obtain ⟨dirs, loads, nodup, -, rfl⟩ := start
  exact Inv.init nodup

theorem inv_of_reachable (reached : system.Reachable (contract p).bad d) : Inv p d :=
  reached.invariant (Inv p) (contract p).allowed (fun _ => inv_of_start) fun _ e _ inv =>
    handle_wp inv e

theorem allowed_of_reachable {e : Event} {fault : Fault}
    (reached : system.Reachable (contract p).bad d)
    (faults : system.Faults (contract p).bad d e fault) : (contract p).allowed fault :=
  reached.fault_allowed (fun _ => inv_of_start (p := p)) (fun _ e _ inv => handle_wp inv e) faults

/-- A run without the calls makes none that the promise excludes. -/
theorem faults_mono {bad : Call Daemon Fn → Prop} {e : Event} {fault : Fault}
    (fewer : ∀ c, (contract p).bad c → bad c) (faults : system.Faults bad d e fault) :
    system.Faults (contract p).bad d e fault :=
  ⟨faults.1, fun c mem isBad => faults.2 c mem (fewer c isBad)⟩

/-- A tick in which the content is not complete and the trackers are asked. -/
def Tick.asks : Tick where
  full _ := false
  trStarts _ := true
  trStays _ := true
  closes _ := true

/-- A torrent is added and started, and asks its trackers. -/
def leeching (hash : Hash) : List Event :=
  [.add hash, .start (.hash hash) ⟨true, some .starting⟩, .cmStarted 0, .heartbeat .asks]

/-! ## Counts -/

/-- The counts and `m_savetp` are right, and no two torrents share an entry. -/
structure Daemon.Counted (d : Daemon) : Prop where
  ntorrents : d.mNtorrents = d.mTorrents.length
  nghosts : d.mNghosts = d.mTorrents.countP fun tp => decide ((d.torrent tp).state = .ghost)
  savetp_none : d.mSavetp = none ↔ d.mTorrents = []
  savetp_mem : ∀ tp, d.mSavetp = some tp → tp ∈ d.mTorrents
  tl_inj : ∀ tp ∈ d.mTorrents, ∀ tp' ∈ d.mTorrents,
    (d.torrent tp).tl = (d.torrent tp').tl → tp = tp'

theorem Inv.counted (inv : Inv p d) : d.Counted where
  ntorrents := inv.roster.ntorrents
  nghosts := inv.roster.nghosts
  savetp_none := by
    constructor
    · exact inv.roster.savetp_none
    · intro empty
      cases saved : d.mSavetp with
      | none => rfl
      | some tp =>
          have listed := inv.roster.savetp_mem tp saved
          rw [empty] at listed
          cases listed
  savetp_mem := inv.roster.savetp_mem
  tl_inj tp listed tp' listed' :=
    inv.links.tl_inj tp ((inv.roster.mem_mTorrents tp).mp listed) tp'
      ((inv.roster.mem_mTorrents tp').mp listed')

/-- As long as no tick finds a torrent whose content has failed and whose trackers
need not be told, the counts are right, no torrent is used after it has been killed,
and the checks of `torrent_kill` hold. -/
theorem counted_of_reachable (reached : system.Reachable KillsInTick d) :
    d.Counted ∧ ∀ e fault, system.Faults KillsInTick d e fault →
      fault ≠ .torrentFreed ∧ fault ≠ .unlinked ∧ fault ≠ .ntorrents ∧ fault ≠ .stillActive := by
  have fewer : ∀ c, (contract ⟨False, False, True, False⟩).bad c → KillsInTick c := by
    rintro c (⟨never, -⟩ | ⟨never, -⟩ | ⟨-, kills⟩ | ⟨never, -⟩)
    · exact never.elim
    · exact never.elim
    · exact kills
    · exact never.elim
  have reached' := reached.mono fewer
  refine ⟨(inv_of_reachable reached').counted, fun e fault faults => ?_⟩
  have allowed := allowed_of_reachable reached' (faults_mono fewer faults)
  refine ⟨?_, ?_, ?_, ?_⟩ <;> rintro rfl <;> simp [contract] at allowed

/-- Two torrents are started, and one is stopped. -/
def stopsOne : List Event :=
  leeching [1] ++ [.add [2], .start (.hash [2]) ⟨true, none⟩, .stop (.hash [1]) true true]

theorem counted_of_reachable_stopsOne :
    ∃ d, system.Reachable KillsInTick d ∧ (d.mTorrents = [0, 1] ∧ d.mNghosts = 1) ∧
      d.Counted := by
  have start : system.Reachable KillsInTick (tlibInit [] fun _ => true) :=
    .start ⟨[], _, List.nodup_nil, by decide, rfl⟩
  obtain ⟨d, reached, holds⟩ := System.Reachable.of_after
    (P := fun d => d.mTorrents = [0, 1] ∧ d.mNghosts = 1) stopsOne start (by decide +kernel)
  exact ⟨d, reached, holds, (counted_of_reachable reached).1⟩

/-- The content of a torrent cannot be started, and the next tick uses the torrent
after it has been killed. -/
theorem not_counted_of_reachable :
    ¬∀ d, system.Reachable (fun _ => False) d →
      d.Counted ∧ ∀ e fault, system.Faults (fun _ => False) d e fault →
        fault ≠ .torrentFreed ∧ fault ≠ .unlinked ∧ fault ≠ .ntorrents ∧
          fault ≠ .stillActive := by
  intro claim
  have start : system.Reachable (fun _ => False) (tlibInit [] fun _ => true) :=
    .start ⟨[], _, List.nodup_nil, by decide, rfl⟩
  obtain ⟨d, e, reached, faults⟩ := System.Reachable.of_outcome
    [.add [1], .start (.hash [1]) ⟨true, none⟩, .heartbeat .asks] start
    (show system.outcome _ _ = some .torrentFreed by decide +kernel)
  exact ((claim d reached).2 e _ faults).1 rfl

/-! ## Entries and torrents -/

/-- Entries and torrents point to each other, and the entries of torrents are in both
tables. -/
structure Daemon.Paired (d : Daemon) : Prop where
  points : ∀ tl ∈ d.tls, ∀ tp, (d.tlib tl).tp = some tp → tp ∈ d.tps
  back : ∀ tl ∈ d.tls, ∀ tp ∈ d.tps, (d.tlib tl).tp = some tp ↔ (d.torrent tp).tl = tl
  entry : ∀ tp ∈ d.tps, (d.torrent tp).tl ∈ d.tls
  numtbl : ∀ tp ∈ d.tps, (d.torrent tp).tl ∈ d.numtbl
  hashtbl : ∀ tp ∈ d.tps, (d.torrent tp).tl ∈ d.hashtbl

theorem Inv.paired (inv : Inv p d) (linked : p.linked) (numbered : p.numbered) : d.Paired := by
  have entry := fun tp (mem : tp ∈ d.tps) => inv.entry_of_linked mem linked
  constructor
  case points => exact fun tl tlMem tp points => (inv.links.tl_tp tl tlMem tp points).1
  case back =>
    intro tl tlMem tp mem
    constructor
    · intro points
      exact (inv.links.tl_tp tl tlMem tp points).2.resolve_right fun dangling =>
        dangling.1 linked
    · rintro rfl
      exact inv.links.tp_tl tp mem (entry tp mem)
  case entry => exact entry
  case numtbl => exact fun tp mem => (inv.library.mem_numtbl numbered _).mpr (entry tp mem)
  case hashtbl => exact fun tp mem => (inv.library.mem_hashtbl _).mpr (entry tp mem)

/-- A call that leaves a torrent and an entry apart. -/
def Parts (c : Call Daemon Fn) : Prop := Readds c ∨ Renumbers c ∨ KillsInTick c

instance : DecidablePred Parts := fun c => by
  unfold Parts
  infer_instance

/-- As long as no deleted torrent is added again before its trackers have been told,
no number is given twice and no tick kills a torrent whose content has failed, entries
and torrents point to each other, and neither is used after it has been freed. -/
theorem paired_of_reachable (reached : system.Reachable Parts d) :
    d.Paired ∧ ∀ e fault, system.Faults Parts d e fault →
      fault ≠ .torrentFreed ∧ fault ≠ .entryFreed := by
  have fewer : ∀ c, (contract ⟨True, True, True, False⟩).bad c → Parts c := by
    rintro c (⟨-, readds⟩ | ⟨-, renumbers⟩ | ⟨-, kills⟩ | ⟨never, -⟩)
    · exact .inl readds
    · exact .inr (.inl renumbers)
    · exact .inr (.inr kills)
    · exact never.elim
  have reached' := reached.mono fewer
  refine ⟨(inv_of_reachable reached').paired trivial trivial, fun e fault faults => ?_⟩
  have allowed := allowed_of_reachable reached' (faults_mono fewer faults)
  constructor <;> rintro rfl <;> simp [contract] at allowed

/-- A torrent is deleted while another one runs. -/
def deletesOne : List Event :=
  leeching [1] ++ [.add [2], .start (.hash [2]) ⟨true, some .active⟩, .del (.hash [1]) true true]

theorem paired_of_reachable_deletesOne :
    ∃ d, system.Reachable Parts d ∧ (d.tps = [1, 0] ∧ d.tls = [1, 0]) ∧ d.Paired := by
  have start : system.Reachable Parts (tlibInit [] fun _ => true) :=
    .start ⟨[], _, List.nodup_nil, by decide, rfl⟩
  obtain ⟨d, reached, holds⟩ := System.Reachable.of_after
    (P := fun d => d.tps = [1, 0] ∧ d.tls = [1, 0]) deletesOne start (by decide +kernel)
  exact ⟨d, reached, holds, (paired_of_reachable reached).1⟩

/-- A torrent is deleted and added again while a tracker has not been told. -/
theorem not_paired_of_reachable :
    ¬∀ d, system.Reachable (fun _ => False) d →
      d.Paired ∧ ∀ e fault, system.Faults (fun _ => False) d e fault →
        fault ≠ .torrentFreed ∧ fault ≠ .entryFreed := by
  intro claim
  have start : system.Reachable (fun _ => False) (tlibInit [] fun _ => true) :=
    .start ⟨[], _, List.nodup_nil, by decide, rfl⟩
  obtain ⟨d, reached, mem, freed⟩ := System.Reachable.of_after
    (P := fun d => 0 ∈ d.tps ∧ (d.torrent 0).tl ∉ d.tls)
    (leeching [1] ++ [.del (.hash [1]) true true, .add [1]]) start (by decide +kernel)
  exact freed ((claim d reached).1.entry 0 mem)

/-! ## Directories -/

/-- The directories are those of the entries that are not haunting. -/
def Daemon.Stored (d : Daemon) : Prop :=
  ∀ hash, hash ∈ d.dirs ↔ ∃ tl ∈ d.tls, (d.tlib tl).hash = hash ∧ ¬d.Haunting tl

/-- A daemon that finds these directories has an entry for each. -/
theorem mem_tlibInit {dirs : List Hash} {loads : Nat → Bool} {hash : Hash} :
    (∃ tl ∈ (tlibInit dirs loads).tls, ((tlibInit dirs loads).tlib tl).hash = hash) ↔
      hash ∈ dirs := by
  rw [List.mem_iff_getElem]
  constructor
  · rintro ⟨tl, mem, rfl⟩
    have lt : tl < dirs.length := List.mem_range.mp mem
    exact ⟨tl, lt, (List.getD_eq_getElem _ _ lt).symm⟩
  · rintro ⟨tl, lt, rfl⟩
    exact ⟨tl, List.mem_range.mpr lt, List.getD_eq_getElem _ _ lt⟩

/-- As long as no torrent is deleted that is a ghost, the directories are right,
`tlib_add` never finds the one that it makes, and a restart finds the entries that
have not been deleted. -/
theorem stored_of_reachable (reached : system.Reachable DeletesGhost d) :
    d.Stored ∧ (∀ e, ¬system.Faults DeletesGhost d e .dirExists) ∧
      ∀ loads hash,
        (∃ tl ∈ (tlibInit d.dirs loads).tls, ((tlibInit d.dirs loads).tlib tl).hash = hash) ↔
          ∃ tl ∈ d.tls, (d.tlib tl).hash = hash ∧ ¬d.Haunting tl := by
  have fewer : ∀ c, (contract ⟨False, False, False, True⟩).bad c → DeletesGhost c := by
    rintro c (⟨never, -⟩ | ⟨never, -⟩ | ⟨never, -⟩ | ⟨-, deletes⟩)
    · exact never.elim
    · exact never.elim
    · exact never.elim
    · exact deletes
  have reached' := reached.mono fewer
  have stored : d.Stored := (inv_of_reachable reached').dirs.mem trivial
  refine ⟨stored, fun e faults => ?_, fun loads hash => mem_tlibInit.trans (stored hash)⟩
  have allowed := allowed_of_reachable reached' (faults_mono fewer faults)
  simp [contract] at allowed

/-- A torrent is deleted before it has been stopped. -/
theorem stored_of_reachable_deletesOne :
    ∃ d, system.Reachable DeletesGhost d ∧ d.dirs = [[2]] ∧ d.Stored := by
  have start : system.Reachable DeletesGhost (tlibInit [] fun _ => true) :=
    .start ⟨[], _, List.nodup_nil, by decide, rfl⟩
  obtain ⟨d, reached, holds⟩ := System.Reachable.of_after (P := fun d => d.dirs = [[2]])
    deletesOne start (by decide +kernel)
  exact ⟨d, reached, holds, (stored_of_reachable reached).1⟩

/-- A torrent is stopped and then deleted while a tracker has not been told: its entry
goes when the tracker answers, and its directory stays. -/
theorem not_stored_of_reachable :
    ¬∀ d, system.Reachable (fun _ => False) d →
      d.Stored ∧ (∀ e, ¬system.Faults (fun _ => False) d e .dirExists) ∧
        ∀ loads hash,
          (∃ tl ∈ (tlibInit d.dirs loads).tls, ((tlibInit d.dirs loads).tlib tl).hash = hash) ↔
            ∃ tl ∈ d.tls, (d.tlib tl).hash = hash ∧ ¬d.Haunting tl := by
  intro claim
  have start : system.Reachable (fun _ => False) (tlibInit [] fun _ => true) :=
    .start ⟨[], _, List.nodup_nil, by decide, rfl⟩
  obtain ⟨d, reached, dir, empty⟩ := System.Reachable.of_after
    (P := fun d => [1] ∈ d.dirs ∧ d.tls = [])
    (leeching [1] ++ [.stop (.hash [1]) true true, .del (.hash [1]) true true, .trDone 0,
      .heartbeat .asks]) start (by decide +kernel)
  obtain ⟨tl, mem, -⟩ := ((claim d reached).1 [1]).mp dir
  rw [empty] at mem
  cases mem

end Btpd.Torrents
