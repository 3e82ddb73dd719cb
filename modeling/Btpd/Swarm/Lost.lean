import Btpd.Download.Uploaded
import Btpd.Swarm.Roster
import Btpd.Upload.Runs
import Mathlib

/-!
# A lost connection in the upload and the download code

`peer_kill` takes a connection off the lists.  The part of it for the slots, which also
chokes and unchokes, and the part for the downloads, which also assigns requests, change
the lists that they know in the same way.
-/

namespace Btpd.Swarm

open Prog

variable {r r' : Roster} {u : Upload.Slots} {n : Download.Net} {p k : Nat}
  {stopping : Option Nat}

theorem Roster.Ok.lost (ok : r.Ok stopping) (mem : p ∈ r.live) :
    ∃ r', r.lose p = .ok r' ∧ r.Without p (r'.free p) := by
  have ended : Ends (fun _ => False) (r.lose p)
    fun r' => r'.view = r.view ∧ r.Without p (r'.free p) := ok.lose mem
  rcases run : r.lose p with e | r'
  · rw [run] at ended
    exact ended.elim
  · rw [run] at ended
    exact ⟨r', rfl, ended.2⟩

/-! ## The slots -/

/-- The upload code has the queue of the connections, and those of each torrent. -/
structure Slotted (r : Roster) (u : Upload.Slots) : Prop where
  mPeerq : u.mPeerq = r.mPeerq
  mNpeers : u.mNpeers = r.mNpeers
  peers : ∀ n, (u.net n).peers = (r.net n).peers
  active : ∀ n, (u.net n).active = (r.net n).active

/-- The lists without the connection. -/
theorem Slotted.without (slotted : Slotted r u) (gone : r.Without p (r'.free p)) {u' : Upload.Slots}
    (mPeerq : u'.mPeerq = u.mPeerq.erase p)
    (mNpeers : u'.mNpeers = u.mNpeers - if p ∈ u.mPeerq then 1 else 0)
    (peers : ∀ n, (u'.net n).peers = (u.net n).peers.erase p)
    (active : ∀ n, (u'.net n).active = (u.net n).active) : Slotted r' u' where
  mPeerq := by
    rw [mPeerq, slotted.mPeerq]
    exact gone.mPeerq.symm
  mNpeers := by
    rw [mNpeers, slotted.mPeerq, slotted.mNpeers]
    exact gone.mNpeers.symm
  peers n := by
    rw [peers, slotted.peers]
    exact (gone.peers n).symm
  active n := by
    rw [active, slotted.active]
    exact (gone.active n).symm

/-- `choke_do` leaves the lists alone. -/
theorem Slotted.chokeDo (slotted : Slotted r u) (nodup : u.mPeerq.Nodup)
    (limit : u.mMaxUploads = k) {q : Upload.Qsort} {rates : Upload.Rates} :
    Slotted r (Upload.chokeDo q rates u) := by
  obtain ⟨c, chosen, -⟩ := Upload.chokeDo_spec nodup limit
  rw [chosen]
  exact ⟨slotted.mPeerq, slotted.mNpeers, slotted.peers, slotted.active⟩

/-- An attached connection is in the list of its own torrent. -/
theorem Slotted.mem_peers (slotted : Slotted r u) (ok : r.Ok stopping) (mem : p ∈ r.live)
    (attached : (r.peer p).attached = true) (belongs : (r.peer p).n = some (u.peer p).n) (m : Nat) :
    p ∈ (u.net m).peers ↔ m = (u.peer p).n := by
  rw [slotted.peers, ok.mem_peers, belongs, Option.some.injEq]
  exact ⟨fun all => all.2.2.symm, fun same => ⟨mem, attached, same.symm⟩⟩

/-- It is in the queue if its torrent is active. -/
theorem Slotted.mem_mPeerq (slotted : Slotted r u) (ok : r.Ok stopping) (mem : p ∈ r.live)
    (attached : (r.peer p).attached = true) (belongs : (r.peer p).n = some (u.peer p).n) :
    p ∈ u.mPeerq ↔ (u.net (u.peer p).n).active = true := by
  rw [slotted.mPeerq, slotted.active, ok.mem_mPeerq]
  constructor
  · rintro ⟨-, -, m, belongs', active⟩
    cases belongs.symm.trans belongs'
    exact active
  · exact fun active => ⟨mem, attached, _, belongs, active⟩

/-- Taking it off the list of its torrent takes it off every list. -/
theorem net_of_detached (listed : ∀ m, p ∈ (u.net m).peers ↔ m = k) (m : Nat) :
    ((u.setNet k fun net => { net with peers := net.peers.erase p }).net m).peers =
        (u.net m).peers.erase p ∧
      ((u.setNet k fun net => { net with peers := net.peers.erase p }).net m).active =
        (u.net m).active := by
  by_cases same : m = k
  · rw [same, Upload.Slots.setNet_self]
    exact ⟨rfl, rfl⟩
  · have elsewhere : p ∉ (u.net m).peers := fun here => same ((listed m).mp here)
    rw [Upload.Slots.setNet_of_ne same, List.erase_of_not_mem elsewhere]
    exact ⟨rfl, rfl⟩

/-- The upload code takes a connection off the lists as `peer_kill` does. -/
theorem Slotted.lose (slotted : Slotted r u) (ok : r.Ok stopping) (mem : p ∈ r.live)
    (attached : (r.peer p).attached = true) (belongs : (r.peer p).n = some (u.peer p).n)
    (limit : u.mMaxUploads = k) (q : Upload.Qsort) (rates : Upload.Rates) :
    ∃ r', r.lose p = .ok r' ∧ ∀ callers,
      (Upload.peerKill q rates p).wp strict callers (fun _ u' => Slotted r' u') u := by
  obtain ⟨r', lost, gone⟩ := ok.lost mem
  have listed := slotted.mem_peers ok mem attached belongs
  have queued := slotted.mem_mPeerq ok mem attached belongs
  have nets := net_of_detached listed
  refine ⟨r', lost, fun callers => ?_⟩
  unfold Upload.peerKill
  rw [wp_bind, wp_get, wp_bind, wp_assert, if_pos ((listed _).mpr rfl), wp_bind, wp_modify, wp_when]
  split
  case isTrue active =>
    have here := queued.mpr active
    have some : 0 < u.mNpeers := by
      rw [slotted.mNpeers, ok.mNpeers, ← slotted.mPeerq]
      exact List.length_pos_of_mem here
    have nodup : (u.mPeerq.erase p).Nodup := (slotted.mPeerq ▸ ok.mPeerq_nodup).erase p
    have count : u.mNpeers - 1 = u.mNpeers - if p ∈ u.mPeerq then 1 else 0 := by rw [if_pos here]
    unfold Upload.ulOnLostPeer
    rw [wp_bind, wp_get, wp_bind, wp_assert, if_pos (by exact some), wp_bind, wp_assert,
      if_pos (by exact here), wp_bind, wp_modify, wp_when]
    have left : Slotted r'
        { u.setNet (u.peer p).n fun net => { net with peers := net.peers.erase p } with
          mPeerq := u.mPeerq.erase p, mNpeers := u.mNpeers - 1 } :=
      slotted.without gone rfl count (fun m => (nets m).1) fun m => (nets m).2
    split
    case isTrue => exact wp_modify.mpr (left.chokeDo nodup limit)
    case isFalse => exact left
  case isFalse idle =>
    have away : p ∉ u.mPeerq := fun here => idle (queued.mp here)
    refine slotted.without gone (List.erase_of_not_mem away).symm ?_
      (fun m => (nets m).1) fun m => (nets m).2
    rw [if_neg away]
    rfl

/-! ## The downloads -/

/-- The download code of a torrent has its connections. -/
def Listed (k : Nat) (r : Roster) (n : Download.Net) : Prop := n.peers = (r.net k).peers

/-- The routines of the download leave the list of the connections alone. -/
theorem peerKill_peers {t : Download.Torrent} (inside : n.Inside t) (callers : List Download.Fn) :
    (Download.peerKill t p).wp whenReturns callers (fun _ n' => n'.peers = n.peers.erase p) n := by
  have kept : Download.RoutineKept t whenReturns
      (fun n' => Download.Tally t n.uploaded n.nextPeer n' ∧ n'.peers = n.peers.erase p)
      (fun _ n' => Download.Tally t n.uploaded n.nextPeer n' ∧ n'.peers = n.peers.erase p)
      fun _ _ n' => Download.Tally t n.uploaded n.nextPeer n' ∧ n'.peers = n.peers.erase p :=
    Download.tallyKept.and
      (fun same framed => (Download.Net.peers_of_outer framed.outer).trans same)
      (fun _ _ same => same) fun _ same => same
  unfold Download.peerKill Download.dlOnLostPeer
  rw [wp_bind, wp_modify, wp_bind, wp_modify, wp_bind, wp_get, wp_when]
  split
  · exact wp_mono (kept.keeps_dlOnUndownload _ _ ⟨⟨inside, rfl, rfl⟩, rfl⟩) fun _ _ held => held.2
  · rfl

/-- The download code takes a connection off its list as `peer_kill` does. -/
theorem Listed.lose {t : Download.Torrent} (here : Listed k r n) (ok : r.Ok stopping)
    (mem : p ∈ r.live) (inside : n.Inside t) (callers : List Download.Fn) :
    ∃ r', r.lose p = .ok r' ∧
      (Download.peerKill t p).wp whenReturns callers (fun _ n' => Listed k r' n') n := by
  obtain ⟨r', lost, gone⟩ := ok.lost mem
  refine ⟨r', lost, wp_mono (peerKill_peers inside callers) fun _ n' same => ?_⟩
  rw [Listed, same, here]
  exact (gone.peers k).symm

end Btpd.Swarm
