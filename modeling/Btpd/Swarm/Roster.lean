import Btpd.Swarm.State
import Mathlib

/-!
# The lists of connections and torrents

The parts of the routines that put connections on `net_unattached`, on the list of
a torrent and on `m_peerq`, and take them off again, that count them, and that make
a torrent active or not; and the invariant that all of them keep.
-/

namespace Btpd.Swarm

open Prog

namespace Roster

variable (r : Roster) (p n : Nat)

/-- Replace what a connection is for. -/
def setPeer (peer : Peer) : Roster := { r with peer := Function.update r.peer p peer }

/-- Replace a torrent. -/
def setNet (net : Net) : Roster := { r with net := Function.update r.net n net }

/-- `torrent_by_hash` gives an active torrent. -/
def torrentByHash : Option Nat → Option Nat
  | some n => if n ∈ r.torrents ∧ (r.net n).active then some n else none
  | none => none

/-- `peer_create_common`, with what the caller sets in `p`. -/
def peerCreate (n : Option Nat) : Roster :=
  { r with
    peer := Function.update r.peer r.nextPeer ⟨n, .shakePstr, n.isNone, false⟩
    unattached := r.unattached ++ [r.nextPeer]
    live := r.nextPeer :: r.live
    netNpeers := r.netNpeers + 1
    nextPeer := r.nextPeer + 1 }

/-- `ul_on_new_peer` puts a connection behind the first `place` ones. -/
def ulOnNewPeer (place : Nat) : Except Fault Roster :=
  let where_ := min place r.mNpeers
  if where_ ≤ r.mPeerq.length then
    .ok { r with mPeerq := r.mPeerq.insertIdx where_ p, mNpeers := r.mNpeers + 1 }
  else .error .nullDeref

/-- `ul_on_lost_peer` -/
def ulOnLostPeer : Except Fault Roster :=
  if 0 < r.mNpeers then do
    let mPeerq ← remove p r.mPeerq
    .ok { r with mPeerq := mPeerq, mNpeers := r.mNpeers - 1 }
  else .error .npeers

/-- The lists in `peer_on_shake`. -/
def attach (place : Nat) : Except Fault Roster := do
  let unattached ← remove p r.unattached
  let net := { r.net n with peers := p :: (r.net n).peers, npeers := (r.net n).npeers + 1 }
  let r := { r.setNet n net with unattached := unattached }
  (r.setPeer p { r.peer p with attached := true }).ulOnNewPeer p place

/-- The lists at the start of `peer_kill`. -/
def lose : Except Fault Roster :=
  if (r.peer p).attached then
    match (r.peer p).n with
    | none => .error .nullDeref
    | some n => do
        let peers ← remove p (r.net n).peers
        let net := { r.net n with peers := peers, npeers := (r.net n).npeers - 1 }
        if net.active then (r.setNet n net).ulOnLostPeer p else .ok (r.setNet n net)
  else do
    let unattached ← remove p r.unattached
    .ok { r with unattached := unattached }

/-- The end of `peer_kill`. -/
def free : Roster := { r with live := r.live.erase p, netNpeers := r.netNpeers - 1 }

/-- The loop of `ul_on_lost_torrent`. -/
def ulOnLostPeers : List Nat → Roster → Except Fault Roster
  | [], r => .ok r
  | p :: ps, r => do
      let mPeerq ← remove p r.mPeerq
      ulOnLostPeers ps { r with mPeerq := mPeerq, mNpeers := r.mNpeers - 1 }

/-- The start of `net_stop`. -/
def deactivate : Except Fault Roster :=
  ulOnLostPeers (r.net n).peers (r.setNet n { r.net n with active := false })

/-- `shuffle_optimists` moves the first `i` connections of `m_peerq` to its end. -/
def shuffleOptimists (i : Nat) : Roster := { r with mPeerq := r.mPeerq.rotate i }

/-- `torrent_start` -/
def torrentStart : Roster :=
  { r.setNet r.nextNet ⟨.starting, false, false, 0, []⟩ with
    torrents := r.torrents ++ [r.nextNet]
    nextNet := r.nextNet + 1 }

end Roster

/-- The part of the lists that the table depends on. -/
structure View where
  live : List Nat
  n : Nat → Option Nat
  attached : Nat → Bool
  active : Nat → Bool
  torrents : List Nat
  nextPeer : Nat
  nextNet : Nat

/-- The connections, what they are for, and the active torrents. -/
def Roster.view (r : Roster) : View where
  live := r.live
  n p := (r.peer p).n
  attached p := (r.peer p).attached
  active n := (r.net n).active
  torrents := r.torrents
  nextPeer := r.nextPeer
  nextNet := r.nextNet

/-- The lists after a connection is gone. -/
structure Roster.Without (p : Nat) (r r' : Roster) : Prop where
  peer : r'.peer = r.peer
  live : r'.live = r.live.erase p
  unattached : r'.unattached = r.unattached.erase p
  peers : ∀ n, (r'.net n).peers = (r.net n).peers.erase p
  npeers : ∀ n, (r'.net n).npeers = (r.net n).npeers - if p ∈ (r.net n).peers then 1 else 0
  mPeerq : r'.mPeerq = r.mPeerq.erase p
  mNpeers : r'.mNpeers = r.mNpeers - if p ∈ r.mPeerq then 1 else 0
  active : ∀ n, (r'.net n).active = (r.net n).active
  tracked : ∀ n, (r'.net n).tracked = (r.net n).tracked
  state : ∀ n, (r'.net n).state = (r.net n).state
  torrents : r'.torrents = r.torrents
  netNpeers : r'.netNpeers = r.netNpeers - 1
  netMaxPeers : r'.netMaxPeers = r.netMaxPeers
  nextPeer : r'.nextPeer = r.nextPeer
  nextNet : r'.nextNet = r.nextNet

/-! ## The invariant -/

/-- The lists hold the connections that they are for, while the torrent `stopping`
may have lost its activity before its connections. -/
structure Roster.Ok (stopping : Option Nat) (r : Roster) : Prop where
  live_nodup : r.live.Nodup
  live_lt : ∀ p ∈ r.live, p < r.nextPeer
  unattached_nodup : r.unattached.Nodup
  mem_unattached : ∀ p, p ∈ r.unattached ↔ p ∈ r.live ∧ (r.peer p).attached = false
  peers_nodup : ∀ n, (r.net n).peers.Nodup
  mem_peers : ∀ n p, p ∈ (r.net n).peers ↔
    p ∈ r.live ∧ (r.peer p).attached = true ∧ (r.peer p).n = some n
  npeers : ∀ n, (r.net n).npeers = (r.net n).peers.length
  mPeerq_nodup : r.mPeerq.Nodup
  mem_mPeerq : ∀ p, p ∈ r.mPeerq ↔ p ∈ r.live ∧ (r.peer p).attached = true ∧
    ∃ n, (r.peer p).n = some n ∧ (r.net n).active = true
  mNpeers : r.mNpeers = r.mPeerq.length
  netNpeers : r.netNpeers = r.live.length
  netMaxPeers : r.netNpeers ≤ r.netMaxPeers
  belongs : ∀ p ∈ r.live, ∀ n, (r.peer p).n = some n →
    (r.net n).active = true ∨ stopping = some n
  attached_n : ∀ p ∈ r.live, (r.peer p).attached = true → (r.peer p).n.isSome = true
  stage_attached : ∀ p ∈ r.live, (r.peer p).stage = .btpMsg ↔ (r.peer p).attached = true
  stage_n : ∀ p ∈ r.live, (r.peer p).n = none ↔ (r.peer p).incoming = true ∧
    ((r.peer p).stage = .shakePstr ∨ (r.peer p).stage = .shakeInfo)
  active_mem : ∀ n, (r.net n).active = true → n ∈ r.torrents
  tracked_active : ∀ n, (r.net n).tracked = true → (r.net n).active = true ∨ stopping = some n
  running : ∀ n, (r.net n).active = true →
    stopping = some n ∨ (r.net n).state = .leech ∨ (r.net n).state = .seed
  torrents_nodup : r.torrents.Nodup
  torrents_lt : ∀ n ∈ r.torrents, n < r.nextNet

namespace Roster

variable {r r' : Roster} {p n : Nat} {stopping : Option Nat} {allowed : Fault → Prop}

@[simp]
theorem setPeer_peer {peer : Peer} (p' : Nat) :
    (r.setPeer p peer).peer p' = if p' = p then peer else r.peer p' := by
  simp [setPeer, Function.update_apply]

@[simp]
theorem setNet_net {net : Net} (n' : Nat) :
    (r.setNet n net).net n' = if n' = n then net else r.net n' := by
  simp [setNet, Function.update_apply]

@[simp] theorem setNet_peer {net : Net} : (r.setNet n net).peer = r.peer := rfl
@[simp] theorem setPeer_net {peer : Peer} : (r.setPeer p peer).net = r.net := rfl

theorem setPeer_setPeer {peer peer' : Peer} :
    (r.setPeer p peer).setPeer p peer' = r.setPeer p peer' := by
  unfold setPeer
  rw [Function.update_idem]

/-- The table does not depend on the stage of a connection. -/
theorem view_setStage (stage : Stage) :
    (r.setPeer p { r.peer p with stage := stage }).view = r.view := by
  have peerEq : ∀ p', (r.setPeer p { r.peer p with stage := stage }).peer p' =
      { r.peer p' with stage := if p' = p then stage else (r.peer p').stage } := by
    intro p'
    rw [setPeer_peer]
    split
    · rename_i here
      rw [here]
    · rfl
  unfold view
  simp only [peerEq]
  rfl

/-- The table depends on a torrent only by its activity. -/
theorem view_setNet {net : Net} (active : net.active = (r.net n).active) :
    (r.setNet n net).view = r.view := by
  unfold view
  congr 1
  funext n'
  rw [setNet_net]
  split
  · rename_i here
    rw [here, active]
  · rfl

namespace Ok

section

variable (ok : r.Ok stopping)

include ok

theorem fresh : r.nextPeer ∉ r.live := fun mem => Nat.lt_irrefl _ (ok.live_lt _ mem)

/-- A new connection, for no torrent yet or for an active one. -/
theorem peerCreate {n : Option Nat} (room : r.netNpeers < r.netMaxPeers)
    (active : ∀ n', n = some n' → (r.net n').active = true) :
    (r.peerCreate n).Ok stopping := by
  have peerEq : ∀ p, (r.peerCreate n).peer p =
      if p = r.nextPeer then ⟨n, .shakePstr, n.isNone, false⟩ else r.peer p := fun p => by
    simp [Roster.peerCreate, Function.update_apply]
  have old : ∀ {p}, p ∈ r.live → p ≠ r.nextPeer := fun mem same => ok.fresh (same ▸ mem)
  refine
    { live_nodup := List.nodup_cons.mpr ⟨ok.fresh, ok.live_nodup⟩
      live_lt := ?_, unattached_nodup := ?_, mem_unattached := ?_
      peers_nodup := ok.peers_nodup
      mem_peers := ?_
      npeers := ok.npeers
      mPeerq_nodup := ok.mPeerq_nodup
      mem_mPeerq := ?_
      mNpeers := ok.mNpeers
      netNpeers := congrArg (· + 1) ok.netNpeers
      netMaxPeers := room
      belongs := ?_, attached_n := ?_, stage_attached := ?_, stage_n := ?_
      active_mem := ok.active_mem
      tracked_active := ok.tracked_active
      running := ok.running
      torrents_nodup := ok.torrents_nodup
      torrents_lt := ok.torrents_lt }
  · exact List.forall_mem_cons.mpr ⟨Nat.lt_succ_self _, fun p mem =>
      Nat.lt_succ_of_lt (ok.live_lt p mem)⟩
  · refine ok.unattached_nodup.append (List.nodup_singleton _) ?_
    rw [List.disjoint_singleton, ok.mem_unattached]
    exact fun both => ok.fresh both.1
  · intro p
    show p ∈ r.unattached ++ [r.nextPeer] ↔ p ∈ r.nextPeer :: r.live ∧ _
    rw [peerEq, List.mem_append, List.mem_singleton, List.mem_cons, ok.mem_unattached]
    split
    · rename_i same
      exact iff_of_true (.inr same) ⟨.inl same, rfl⟩
    · rename_i other
      rw [or_iff_left other, or_iff_right other]
  · intro n' p
    show p ∈ (r.net n').peers ↔ p ∈ r.nextPeer :: r.live ∧ _
    rw [peerEq, List.mem_cons, ok.mem_peers]
    split
    · rename_i same
      exact iff_of_false (fun both => ok.fresh (same ▸ both.1)) fun both => nomatch both.2.1
    · rename_i other
      rw [or_iff_right other]
  · intro p
    show p ∈ r.mPeerq ↔ p ∈ r.nextPeer :: r.live ∧ _
    rw [peerEq, List.mem_cons, ok.mem_mPeerq]
    split
    · rename_i same
      exact iff_of_false (fun both => ok.fresh (same ▸ both.1)) fun both => nomatch both.2.1
    · rename_i other
      rw [or_iff_right other]
      rfl
  · refine List.forall_mem_cons.mpr ⟨fun n' => ?_, fun p mem n' => ?_⟩
    · rw [peerEq, if_pos rfl]
      exact fun eq => .inl (active n' eq)
    · rw [peerEq, if_neg (old mem)]
      exact ok.belongs p mem n'
  · refine List.forall_mem_cons.mpr ⟨?_, fun p mem => ?_⟩
    · rw [peerEq, if_pos rfl]
      exact fun attached => nomatch attached
    · rw [peerEq, if_neg (old mem)]
      exact ok.attached_n p mem
  · refine List.forall_mem_cons.mpr ⟨?_, fun p mem => ?_⟩
    · rw [peerEq, if_pos rfl]
      exact iff_of_false (fun stage => nomatch stage) fun attached => nomatch attached
    · rw [peerEq, if_neg (old mem)]
      exact ok.stage_attached p mem
  · refine List.forall_mem_cons.mpr ⟨?_, fun p mem => ?_⟩
    · rw [peerEq, if_pos rfl]
      show n = none ↔ n.isNone = true ∧ _
      rw [Option.isNone_iff_eq_none]
      exact ⟨fun none => ⟨none, .inl rfl⟩, fun both => both.1⟩
    · rw [peerEq, if_neg (old mem)]
      exact ok.stage_n p mem

/-- The handshake goes on: a connection that stays on its list is in another state,
or gets to know its torrent. -/
theorem setPeer {peer : Peer} (attached : peer.attached = (r.peer p).attached)
    (same : peer.attached = true → peer.n = (r.peer p).n)
    (belongs : ∀ n, peer.n = some n → (r.net n).active = true ∨ stopping = some n)
    (stage_attached : peer.stage = .btpMsg ↔ peer.attached = true)
    (stage_n : peer.n = none ↔ peer.incoming = true ∧
      (peer.stage = .shakePstr ∨ peer.stage = .shakeInfo)) :
    (r.setPeer p peer).Ok stopping := by
  have samePeer : ∀ p', ((r.setPeer p peer).peer p').attached = (r.peer p').attached ∧
      ((r.peer p').attached = true → ((r.setPeer p peer).peer p').n = (r.peer p').n) := by
    intro p'
    rw [setPeer_peer]
    split
    · rename_i here
      rw [here, ← attached]
      exact ⟨rfl, same⟩
    · exact ⟨rfl, fun _ => rfl⟩
  refine { ok with
    mem_unattached := ?_, mem_peers := ?_, mem_mPeerq := ?_, belongs := ?_, attached_n := ?_
    stage_attached := ?_, stage_n := ?_ }
  · intro p'
    rw [(samePeer p').1]
    exact ok.mem_unattached p'
  · intro n' p'
    rw [(samePeer p').1]
    refine (ok.mem_peers n' p').trans (and_congr_right fun _ => and_congr_right fun on => ?_)
    rw [(samePeer p').2 on]
  · intro p'
    rw [(samePeer p').1]
    refine (ok.mem_mPeerq p').trans (and_congr_right fun _ => and_congr_right fun on => ?_)
    rw [(samePeer p').2 on]
    rfl
  · intro p' mem n'
    rw [setPeer_peer]
    split
    · exact belongs n'
    · exact ok.belongs p' mem n'
  · intro p' mem on
    rw [(samePeer p').1] at on
    rw [(samePeer p').2 on]
    exact ok.attached_n p' mem on
  · intro p' mem
    rw [setPeer_peer]
    split
    · exact stage_attached
    · exact ok.stage_attached p' mem
  · intro p' mem
    rw [setPeer_peer]
    split
    · exact stage_n
    · exact ok.stage_n p' mem

/-- A connection whose handshake is complete goes to the list of its torrent and to
`m_peerq`. -/
theorem attach (mem : p ∈ r.live) (detached : (r.peer p).attached = false)
    (belongs : (r.peer p).n = some n) (active : (r.net n).active = true) {place : Nat} :
    Ends allowed (r.attach p n place) fun r' =>
      (r'.setPeer p { r'.peer p with stage := .btpMsg }).Ok stopping ∧
        r'.view = { r.view with attached := Function.update r.view.attached p true } := by
  unfold Roster.attach
  rw [ends_bind, remove, if_pos ((ok.mem_unattached p).mpr ⟨mem, detached⟩), ends_ok]
  unfold ulOnNewPeer
  have inside : min place r.mNpeers ≤ r.mPeerq.length :=
    Nat.le_trans (Nat.min_le_right _ _) (Nat.le_of_eq ok.mNpeers)
  dsimp only
  rw [if_pos (by exact inside), ends_ok]
  -- on `m_peerq` there is one more connection, at whatever place
  have perm : (r.mPeerq.insertIdx (min place r.mNpeers) p).Perm (p :: r.mPeerq) :=
    List.perm_insertIdx p r.mPeerq inside
  have notQueued : p ∉ r.mPeerq := fun queued => by
    have on := ((ok.mem_mPeerq p).mp queued).2.1
    rw [detached] at on
    cases on
  have notListed : ∀ n', p ∉ (r.net n').peers := fun n' listed => by
    have on := ((ok.mem_peers n' p).mp listed).2.1
    rw [detached] at on
    cases on
  constructor
  · generalize after : Roster.setPeer _ p _ = r'
    have peerEq : ∀ p', r'.peer p' =
        if p' = p then { r.peer p with attached := true, stage := .btpMsg } else r.peer p' := by
      intro p'
      rw [← after]
      by_cases same : p' = p <;> simp [same, Roster.setPeer]
    have netEq : ∀ n', r'.net n' = if n' = n then
        { r.net n with peers := p :: (r.net n).peers, npeers := (r.net n).npeers + 1 }
        else r.net n' := by
      intro n'
      rw [← after]
      exact setNet_net n'
    have activeEq : ∀ n', (r'.net n').active = (r.net n').active := by
      intro n'
      rw [netEq]
      split
      · rename_i same
        rw [same]
      · rfl
    have trackedEq : ∀ n', (r'.net n').tracked = (r.net n').tracked := by
      intro n'
      rw [netEq]
      split
      · rename_i same
        rw [same]
      · rfl
    have stateEq : ∀ n', (r'.net n').state = (r.net n').state := by
      intro n'
      rw [netEq]
      split
      · rename_i same
        rw [same]
      · rfl
    have liveEq : r'.live = r.live := by rw [← after]; rfl
    have queueEq : r'.mPeerq = r.mPeerq.insertIdx (min place r.mNpeers) p := by
      rw [← after]
      rfl
    have unattachedEq : r'.unattached = r.unattached.erase p := by rw [← after]; rfl
    refine
      { live_nodup := liveEq ▸ ok.live_nodup
        live_lt := ?_, unattached_nodup := ?_, mem_unattached := ?_, peers_nodup := ?_
        mem_peers := ?_, npeers := ?_, mPeerq_nodup := ?_, mem_mPeerq := ?_, mNpeers := ?_
        netNpeers := ?_, netMaxPeers := ?_, belongs := ?_, attached_n := ?_
        stage_attached := ?_, stage_n := ?_, active_mem := ?_, tracked_active := ?_
        running := ?_, torrents_nodup := ?_, torrents_lt := ?_ }
    · rw [← after]; exact ok.live_lt
    · rw [unattachedEq]; exact ok.unattached_nodup.erase p
    · intro p'
      rw [unattachedEq, liveEq, ok.unattached_nodup.mem_erase_iff, ok.mem_unattached, peerEq]
      split
      · rename_i same
        exact iff_of_false (fun both => both.1 same) fun both => nomatch both.2
      · rename_i other
        exact and_iff_right other
    · intro n'
      rw [netEq]
      split
      · exact List.nodup_cons.mpr ⟨notListed n, ok.peers_nodup n⟩
      · exact ok.peers_nodup n'
    · intro n' p'
      rw [netEq, peerEq, liveEq]
      by_cases same : p' = p
      · rw [if_pos same, same]
        split
        · rename_i here
          exact iff_of_true List.mem_cons_self ⟨mem, rfl, here ▸ belongs⟩
        · rename_i there
          refine iff_of_false (notListed n') fun both => there ?_
          exact Option.some.inj (both.2.2.symm.trans belongs)
      · rw [if_neg same, ← ok.mem_peers]
        split
        · rename_i here
          rw [List.mem_cons, or_iff_right same, here]
        · rfl
    · intro n'
      rw [netEq]
      split
      · exact congrArg (· + 1) (ok.npeers n)
      · exact ok.npeers n'
    · rw [queueEq]
      exact perm.nodup_iff.mpr (List.nodup_cons.mpr ⟨notQueued, ok.mPeerq_nodup⟩)
    · intro p'
      rw [queueEq, perm.mem_iff, List.mem_cons, ok.mem_mPeerq, peerEq, liveEq]
      simp only [activeEq]
      split
      · rename_i same
        exact iff_of_true (.inl same) ⟨same ▸ mem, rfl, n, belongs, active⟩
      · rename_i other
        rw [or_iff_right other]
    · rw [queueEq, perm.length_eq, List.length_cons, ← ok.mNpeers, ← after]
      rfl
    · rw [liveEq, ← after]; exact ok.netNpeers
    · rw [← after]; exact ok.netMaxPeers
    · intro p' mem' n'
      rw [liveEq] at mem'
      rw [peerEq, activeEq]
      split
      · rename_i same
        exact ok.belongs p mem n'
      · exact ok.belongs p' mem' n'
    · intro p' mem'
      rw [liveEq] at mem'
      rw [peerEq]
      split
      · exact fun _ => Option.isSome_iff_exists.mpr ⟨n, belongs⟩
      · exact ok.attached_n p' mem'
    · intro p' mem'
      rw [liveEq] at mem'
      rw [peerEq]
      split
      · exact iff_of_true rfl rfl
      · exact ok.stage_attached p' mem'
    · intro p' mem'
      rw [liveEq] at mem'
      rw [peerEq]
      split
      · refine iff_of_false (fun none => nomatch none.symm.trans belongs) fun both => ?_
        exact both.2.elim (fun stage => nomatch stage) fun stage => nomatch stage
      · exact ok.stage_n p' mem'
    · intro n'
      rw [activeEq, ← after]
      exact ok.active_mem n'
    · intro n'
      rw [activeEq, trackedEq]
      exact ok.tracked_active n'
    · intro n'
      rw [activeEq, stateEq]
      exact ok.running n'
    · rw [← after]; exact ok.torrents_nodup
    · rw [← after]; exact ok.torrents_lt
  · unfold view Roster.setPeer Roster.setNet
    congr 1
    · funext p'
      dsimp only
      rw [Function.update_apply]
      split
      · rename_i same
        rw [same]
      · rfl
    · funext p'
      dsimp only
      rw [Function.update_apply, Function.update_apply]
      split <;> rfl
    · funext n'
      dsimp only
      rw [Function.update_apply]
      split
      · rename_i same
        rw [same]
      · rfl

omit ok in
theorem length_erase_eq {l : List Nat} :
    (l.erase p).length = l.length - if p ∈ l then 1 else 0 := by
  rw [List.length_erase]
  split <;> rfl

/-- The lists are right without the connection. -/
theorem without (mem : p ∈ r.live) (gone : r.Without p r') : r'.Ok stopping := by
  have old : ∀ {p'}, p' ∈ r'.live → p' ∈ r.live := fun mem =>
    List.mem_of_mem_erase (gone.live ▸ mem)
  have mem_live : ∀ p', p' ∈ r'.live ↔ p' ≠ p ∧ p' ∈ r.live := fun p' => by
    rw [gone.live, ok.live_nodup.mem_erase_iff]
  refine
    { live_nodup := gone.live ▸ ok.live_nodup.erase p
      live_lt := fun p' mem' => gone.nextPeer ▸ ok.live_lt p' (old mem')
      unattached_nodup := gone.unattached ▸ ok.unattached_nodup.erase p
      mem_unattached := ?_
      peers_nodup := fun n' => gone.peers n' ▸ (ok.peers_nodup n').erase p
      mem_peers := ?_, npeers := ?_
      mPeerq_nodup := gone.mPeerq ▸ ok.mPeerq_nodup.erase p
      mem_mPeerq := ?_, mNpeers := ?_, netNpeers := ?_, netMaxPeers := ?_
      belongs := ?_, attached_n := ?_, stage_attached := ?_, stage_n := ?_
      active_mem := ?_, tracked_active := ?_, running := ?_
      torrents_nodup := gone.torrents ▸ ok.torrents_nodup
      torrents_lt := ?_ }
  · intro p'
    rw [gone.unattached, ok.unattached_nodup.mem_erase_iff, mem_live, gone.peer,
      ok.mem_unattached, and_assoc]
  · intro n' p'
    rw [gone.peers, (ok.peers_nodup n').mem_erase_iff, mem_live, gone.peer, ok.mem_peers,
      and_assoc]
  · intro n'
    rw [gone.npeers, gone.peers, length_erase_eq, ok.npeers]
  · intro p'
    rw [gone.mPeerq, ok.mPeerq_nodup.mem_erase_iff, mem_live, gone.peer, ok.mem_mPeerq, and_assoc]
    simp only [gone.active]
  · rw [gone.mNpeers, gone.mPeerq, length_erase_eq, ok.mNpeers]
  · rw [gone.netNpeers, gone.live, length_erase_eq, if_pos mem, ok.netNpeers]
  · rw [gone.netNpeers, gone.netMaxPeers]
    exact Nat.le_trans (Nat.sub_le _ _) ok.netMaxPeers
  · intro p' mem' n'
    rw [gone.peer, gone.active]
    exact ok.belongs p' (old mem') n'
  · intro p' mem'
    rw [gone.peer]
    exact ok.attached_n p' (old mem')
  · intro p' mem'
    rw [gone.peer]
    exact ok.stage_attached p' (old mem')
  · intro p' mem'
    rw [gone.peer]
    exact ok.stage_n p' (old mem')
  · intro n'
    rw [gone.active, gone.torrents]
    exact ok.active_mem n'
  · intro n'
    rw [gone.active, gone.tracked]
    exact ok.tracked_active n'
  · intro n'
    rw [gone.active, gone.state]
    exact ok.running n'
  · rw [gone.torrents, gone.nextNet]
    exact ok.torrents_lt

/-- `peer_kill` takes a connection off its lists. -/
theorem lose (mem : p ∈ r.live) :
    Ends allowed (r.lose p) fun r' => r'.view = r.view ∧ r.Without p (r'.free p) := by
  unfold Roster.lose
  split
  · rename_i attached
    have notUnattached : p ∉ r.unattached := fun other => by
      rw [((ok.mem_unattached p).mp other).2] at attached
      cases attached
    obtain ⟨n, belongs⟩ := Option.isSome_iff_exists.mp (ok.attached_n p mem attached)
    have listed : p ∈ (r.net n).peers := (ok.mem_peers n p).mpr ⟨mem, attached, belongs⟩
    have elsewhere : ∀ n', n' ≠ n → p ∉ (r.net n').peers := fun n' other listed =>
      other (Option.some.inj (((ok.mem_peers n' p).mp listed).2.2.symm.trans belongs))
    rw [belongs]
    dsimp only
    rw [ends_bind, remove, if_pos listed, ends_ok]
    have off : ∀ less queue count,
        less = { r.net n with
          peers := (r.net n).peers.erase p, npeers := (r.net n).npeers - 1 } →
        queue = r.mPeerq.erase p → count = r.mNpeers - (if p ∈ r.mPeerq then 1 else 0) →
        view { r.setNet n less with mPeerq := queue, mNpeers := count } = r.view ∧
        r.Without p (free { r.setNet n less with mPeerq := queue, mNpeers := count } p) := by
      intro less queue count lessEq queueEq countEq
      have netEq : ∀ n', (r.setNet n less).net n' =
          { r.net n' with
            peers := (r.net n').peers.erase p
            npeers := (r.net n').npeers - if p ∈ (r.net n').peers then 1 else 0 } := by
        intro n'
        rw [setNet_net]
        split
        · rename_i same
          rw [same, if_pos listed, lessEq]
        · rename_i other
          rw [List.erase_of_not_mem (elsewhere n' other), if_neg (elsewhere n' other)]
          rfl
      constructor
      · unfold view
        congr 1
        funext n'
        exact (congrArg Net.active (netEq n') :)
      · exact
          { peer := rfl
            live := rfl
            unattached := (List.erase_of_not_mem notUnattached).symm
            peers := fun n' => (congrArg Net.peers (netEq n') :)
            npeers := fun n' => (congrArg Net.npeers (netEq n') :)
            mPeerq := queueEq
            mNpeers := countEq
            active := fun n' => (congrArg Net.active (netEq n') :)
            tracked := fun n' => (congrArg Net.tracked (netEq n') :)
            state := fun n' => (congrArg Net.state (netEq n') :)
            torrents := rfl
            netNpeers := rfl
            netMaxPeers := rfl
            nextPeer := rfl
            nextNet := rfl }
    split
    · rename_i active
      have queued : p ∈ r.mPeerq := (ok.mem_mPeerq p).mpr ⟨mem, attached, n, belongs, active⟩
      unfold ulOnLostPeer
      have some : 0 < r.mNpeers := by
        rw [ok.mNpeers]
        exact List.length_pos_of_mem queued
      rw [if_pos (by exact some), ends_bind, remove, if_pos (by exact queued), ends_ok, ends_ok]
      exact off _ _ _ rfl rfl (by rw [if_pos queued]; rfl)
    · rename_i inactive
      have notQueued : p ∉ r.mPeerq := fun queued => by
        obtain ⟨_, _, n', eq, active⟩ := (ok.mem_mPeerq p).mp queued
        rw [Option.some.inj (eq.symm.trans belongs)] at active
        exact inactive active
      rw [ends_ok]
      exact off _ _ _ rfl (List.erase_of_not_mem notQueued).symm (by rw [if_neg notQueued]; rfl)
  · rename_i detached
    have notListed : ∀ n', p ∉ (r.net n').peers := fun n' listed =>
      detached ((ok.mem_peers n' p).mp listed).2.1
    have notQueued : p ∉ r.mPeerq := fun queued => detached ((ok.mem_mPeerq p).mp queued).2.1
    rw [ends_bind, remove,
      if_pos ((ok.mem_unattached p).mpr ⟨mem, Bool.eq_false_iff.mpr detached⟩), ends_ok, ends_ok]
    exact ⟨rfl,
      { peer := rfl
        live := rfl
        unattached := rfl
        peers := fun n' => (List.erase_of_not_mem (notListed n')).symm
        npeers := fun n' => by rw [if_neg (notListed n')]; rfl
        mPeerq := (List.erase_of_not_mem notQueued).symm
        mNpeers := by rw [if_neg notQueued]; rfl
        active := fun _ => rfl
        tracked := fun _ => rfl
        state := fun _ => rfl
        torrents := rfl
        netNpeers := rfl
        netMaxPeers := rfl
        nextPeer := rfl
        nextNet := rfl }⟩

/-- A torrent is in another state. -/
theorem setState {stopping' : Option Nat} (state : TorrentState)
    (stops : ∀ n', stopping = some n' → stopping' = some n')
    (running : (r.net n).active = true → stopping' = some n ∨ state = .leech ∨ state = .seed) :
    (r.setNet n { r.net n with state := state }).Ok stopping' := by
  have netEq : ∀ n', (r.setNet n { r.net n with state := state }).net n' =
      { r.net n' with state := if n' = n then state else (r.net n').state } := by
    intro n'
    rw [setNet_net]
    split
    · rename_i same
      rw [same]
    · rfl
  refine { ok with
    peers_nodup := ?_, mem_peers := ?_, npeers := ?_, mem_mPeerq := ?_, belongs := ?_
    active_mem := ?_, tracked_active := ?_, running := ?_ }
  · exact fun n' => netEq n' ▸ ok.peers_nodup n'
  · exact fun n' => netEq n' ▸ ok.mem_peers n'
  · exact fun n' => netEq n' ▸ ok.npeers n'
  · simp only [netEq]
    exact ok.mem_mPeerq
  · simp only [netEq]
    exact fun p mem n' belongs => (ok.belongs p mem n' belongs).imp_right (stops n')
  · exact fun n' => netEq n' ▸ ok.active_mem n'
  · exact fun n' => netEq n' ▸ fun tracked => (ok.tracked_active n' tracked).imp_right (stops n')
  · intro n'
    rw [netEq]
    dsimp only
    split
    · rename_i same
      rw [same]
      exact running
    · exact fun active => (ok.running n' active).imp_left (stops n')

/-- A torrent without connections can become active or stop. -/
theorem setQuiet (n : Nat) (net : Net) (others : ∀ n', stopping = some n' → n' = n)
    (quiet : ∀ p ∈ r.live, (r.peer p).n ≠ some n) (peers : net.peers = (r.net n).peers)
    (npeers : net.npeers = (r.net n).npeers) (active : net.active = true →
      n ∈ r.torrents ∧ (net.state = .leech ∨ net.state = .seed))
    (tracked : net.tracked = true → net.active = true) : (r.setNet n net).Ok none := by
  have peersEq : ∀ n', ((r.setNet n net).net n').peers = (r.net n').peers := by
    intro n'
    rw [setNet_net]
    split
    · rename_i same
      rw [same, peers]
    · rfl
  have activeEq : ∀ p ∈ r.live, ∀ n', (r.peer p).n = some n' →
      ((r.setNet n net).net n').active = (r.net n').active := by
    intro p mem n' belongs
    have other : n' ≠ n := fun same => quiet p mem (same ▸ belongs)
    rw [setNet_net, if_neg other]
  refine { ok with
    peers_nodup := fun n' => peersEq n' ▸ ok.peers_nodup n'
    mem_peers := fun n' => peersEq n' ▸ ok.mem_peers n'
    npeers := ?_, mem_mPeerq := ?_, belongs := ?_, active_mem := ?_, tracked_active := ?_
    running := ?_ }
  · intro n'
    rw [peersEq, setNet_net]
    split
    · rename_i same
      rw [npeers, same, ok.npeers]
    · exact ok.npeers n'
  · intro p
    refine (ok.mem_mPeerq p).trans (and_congr_right fun mem => and_congr_right fun _ => ?_)
    exact exists_congr fun n' => and_congr_right fun belongs => by
      rw [activeEq p mem n' belongs]
  · intro p mem n' belongs
    refine .inl ((activeEq p mem n' belongs).trans ?_)
    refine (ok.belongs p mem n' belongs).resolve_right fun stops => quiet p mem ?_
    rw [← others n' stops]
    exact belongs
  · intro n'
    rw [setNet_net]
    split
    · rename_i same
      rw [same]
      exact fun on => (active on).1
    · exact ok.active_mem n'
  · intro n'
    rw [setNet_net]
    split
    · exact fun on => .inl (tracked on)
    · rename_i other
      exact fun on => .inl ((ok.tracked_active n' on).resolve_right fun stops =>
        other (others n' stops))
  · intro n'
    rw [setNet_net]
    split
    · exact fun on => .inr (active on).2
    · rename_i other
      exact fun on => .inr ((ok.running n' on).resolve_left fun stops =>
        other (others n' stops))

theorem shuffle (i : Nat) : (r.shuffleOptimists i).Ok stopping :=
  { ok with
    mPeerq_nodup := List.nodup_rotate.mpr ok.mPeerq_nodup
    mem_mPeerq := fun p => List.mem_rotate.trans (ok.mem_mPeerq p)
    mNpeers := ok.mNpeers.trans (List.length_rotate _ _).symm }

/-- A torrent that is not active can go. -/
theorem torrentKill (inactive : (r.net n).active = false) :
    Ok stopping { r with torrents := r.torrents.erase n } :=
  { ok with
    active_mem := fun n' active => (List.mem_erase_of_ne fun same => by
      rw [same, inactive] at active
      cases active).mpr (ok.active_mem n' active)
    torrents_nodup := ok.torrents_nodup.erase n
    torrents_lt := fun n' mem => ok.torrents_lt n' (List.mem_of_mem_erase mem) }

end

/-- No connection is for a torrent that is not active. -/
theorem quiet (ok : r.Ok none) (inactive : (r.net n).active = false) :
    ∀ p ∈ r.live, (r.peer p).n ≠ some n := by
  intro p mem belongs
  have active := (ok.belongs p mem n belongs).resolve_right fun stops => nomatch stops
  rw [inactive] at active
  cases active

/-- A new torrent has no connections. -/
theorem torrentStart (ok : r.Ok none) : r.torrentStart.Ok none := by
  have fresh : r.nextNet ∉ r.torrents := fun mem => Nat.lt_irrefl _ (ok.torrents_lt _ mem)
  have inactive : (r.net r.nextNet).active = false :=
    Bool.eq_false_iff.mpr fun active => fresh (ok.active_mem _ active)
  have quiet := ok.quiet inactive
  have empty : (r.net r.nextNet).peers = [] :=
    List.eq_nil_iff_forall_not_mem.mpr fun p listed =>
      have listed := (ok.mem_peers _ p).mp listed
      quiet p listed.1 listed.2.2
  have reset := ok.setQuiet r.nextNet ⟨.starting, false, false, 0, []⟩
    (fun _ stops => nomatch stops) quiet empty.symm (by rw [ok.npeers, empty]; rfl)
    (fun active => nomatch active) (fun tracked => nomatch tracked)
  refine { reset with
    active_mem := fun n' active => List.mem_append_left _ (reset.active_mem n' active)
    torrents_nodup := ok.torrents_nodup.append (List.nodup_singleton _) ?_
    torrents_lt := fun n' mem => ?_ }
  · exact List.disjoint_singleton.mpr fresh
  · rcases List.mem_append.mp mem with old | new
    · exact Nat.lt_succ_of_lt (ok.torrents_lt n' old)
    · rw [List.mem_singleton.mp new]
      exact Nat.lt_succ_self _

/-- The loop of `ul_on_lost_torrent` takes connections off `m_peerq`. -/
theorem ulOnLostPeers_ends {ps : List Nat} (nodup : ps.Nodup) (queued : ∀ p ∈ ps, p ∈ r.mPeerq) :
    Ends allowed (ulOnLostPeers ps r) fun r' => ∃ queue, queue.length + ps.length = r.mPeerq.length ∧
      (r.mPeerq.Nodup → queue.Nodup ∧ ∀ p, p ∈ queue ↔ p ∈ r.mPeerq ∧ p ∉ ps) ∧
      r' = { r with mPeerq := queue, mNpeers := r.mNpeers - ps.length } := by
  induction ps generalizing r with
  | nil => exact ⟨r.mPeerq, rfl, fun nodup => ⟨nodup, fun p => by simp⟩, rfl⟩
  | cons p ps ih =>
      obtain ⟨notLater, nodup⟩ := List.nodup_cons.mp nodup
      obtain ⟨here, later⟩ := List.forall_mem_cons.mp queued
      unfold ulOnLostPeers
      rw [ends_bind, remove, if_pos here, ends_ok]
      refine ends_mono (ih nodup fun p' mem => ?_) ?_
      · exact (List.mem_erase_of_ne (ne_of_mem_of_not_mem mem notLater)).mpr (later p' mem)
      rintro _ ⟨queue, length, facts, rfl⟩
      refine ⟨queue, ?_, fun nodup => ?_, ?_⟩
      · have erased : (r.mPeerq.erase p).length + 1 = r.mPeerq.length :=
          List.length_erase_add_one here
        rw [List.length_cons, ← erased, ← length]
        rfl
      · obtain ⟨queueNodup, mem_queue⟩ := facts (nodup.erase p)
        refine ⟨queueNodup, fun p' => (mem_queue p').trans ?_⟩
        show p' ∈ r.mPeerq.erase p ∧ _ ↔ _
        rw [nodup.mem_erase_iff, List.mem_cons, not_or]
        tauto
      · rw [List.length_cons, Nat.add_comm, Nat.sub_add_eq]

/-- A torrent loses its activity, and its connections leave `m_peerq`. -/
theorem deactivate (ok : r.Ok (some n)) (active : (r.net n).active = true) :
    Ends allowed (r.deactivate n) fun r' => r'.Ok (some n) ∧
      r'.view = { r.view with active := Function.update r.view.active n false } ∧
      (∀ n', (r'.net n').peers = (r.net n').peers) ∧ r'.unattached = r.unattached := by
  unfold Roster.deactivate
  refine ends_mono (ulOnLostPeers_ends (ok.peers_nodup n) fun p listed => ?_) ?_
  · obtain ⟨mem, attached, belongs⟩ := (ok.mem_peers n p).mp listed
    exact (ok.mem_mPeerq p).mpr ⟨mem, attached, n, belongs, active⟩
  rintro _ ⟨queue, length, facts, rfl⟩
  obtain ⟨queueNodup, mem_queue⟩ := facts ok.mPeerq_nodup
  have netEq : ∀ n', (r.setNet n { r.net n with active := false }).net n' =
      { r.net n' with active := if n' = n then false else (r.net n').active } := by
    intro n'
    rw [setNet_net]
    split
    · rename_i same
      rw [same]
    · rfl
  refine ⟨{ ok with
    peers_nodup := ?_, mem_peers := ?_, npeers := ?_, mPeerq_nodup := queueNodup
    mem_mPeerq := ?_, mNpeers := ?_, belongs := ?_, active_mem := ?_, tracked_active := ?_
    running := ?_ }, ?_, fun n' => (congrArg Net.peers (netEq n') :), rfl⟩
  · exact fun n' => (congrArg Net.peers (netEq n') :) ▸ ok.peers_nodup n'
  · exact fun n' => (congrArg Net.peers (netEq n') :) ▸ ok.mem_peers n'
  · exact fun n' => netEq n' ▸ ok.npeers n'
  · intro p
    refine (mem_queue p).trans ?_
    show p ∈ r.mPeerq ∧ p ∉ (r.net n).peers ↔ p ∈ r.live ∧ (r.peer p).attached = true ∧
      ∃ n', (r.peer p).n = some n' ∧
        ((r.setNet n { r.net n with active := false }).net n').active = true
    simp only [netEq]
    rw [ok.mem_mPeerq, ok.mem_peers]
    constructor
    · rintro ⟨⟨mem, attached, n', belongs, active⟩, other⟩
      refine ⟨mem, attached, n', belongs, ?_⟩
      have there : n' ≠ n := fun same => other ⟨mem, attached, same ▸ belongs⟩
      rw [if_neg there]
      exact active
    · rintro ⟨mem, attached, n', belongs, active⟩
      split at active
      · cases active
      · rename_i other
        exact ⟨⟨mem, attached, n', belongs, active⟩, fun here =>
          other (Option.some.inj (belongs.symm.trans here.2.2))⟩
  · show r.mNpeers - (r.net n).peers.length = queue.length
    rw [ok.mNpeers]
    have length : queue.length + (r.net n).peers.length = r.mPeerq.length := length
    omega
  · intro p mem n' belongs
    by_cases same : n' = n
    · exact .inr (congrArg some same.symm)
    · refine .inl ((congrArg Net.active (netEq n')).trans ?_)
      show (if n' = n then false else (r.net n').active) = true
      rw [if_neg same]
      exact (ok.belongs p mem n' belongs).resolve_right fun stops =>
        same (Option.some.inj stops).symm
  · intro n' active
    have active := (congrArg Net.active (netEq n')).symm.trans active
    by_cases same : n' = n
    · simp [same] at active
    · simp [same] at active
      exact ok.active_mem n' active
  · intro n' tracked
    have tracked := (congrArg Net.tracked (netEq n')).symm.trans tracked
    by_cases same : n' = n
    · exact .inr (congrArg some same.symm)
    · refine .inl ((congrArg Net.active (netEq n')).trans ?_)
      show (if n' = n then false else (r.net n').active) = true
      rw [if_neg same]
      exact (ok.tracked_active n' tracked).resolve_right fun stops =>
        same (Option.some.inj stops).symm
  · intro n' active
    have active := (congrArg Net.active (netEq n')).symm.trans active
    by_cases same : n' = n
    · exact .inl (congrArg some same.symm)
    · refine (ok.running n' ?_).imp_right fun state => ?_
      · simp [same] at active
        exact active
      · exact (congrArg Net.state (netEq n') :) ▸ state
  · unfold view
    congr 1
    funext n'
    refine (congrArg Net.active (netEq n')).trans ?_
    rw [Function.update_apply]

end Ok

end Roster

end Btpd.Swarm
