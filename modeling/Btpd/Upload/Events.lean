import Btpd.Upload.Choke
import Btpd.Library.Count

/-!
# The events that change the slots

The routines of `upload.c`, `peer.c` and `net.c` that attach and lose peers, take
their interest and the pieces that they announce, and stop a torrent.  Each event
names the rates that `choke_do` finds if it runs.
-/

namespace Btpd.Upload

open Prog

/-- The ways in which the code stops. -/
inductive Fault
  /-- A peer is removed from a list that it is not on. -/
  | unlinked
  /-- `m_npeers > 0` in `ul_on_lost_peer` -/
  | npeers
  /-- The queue ends before the place where a peer is inserted. -/
  | nullDeref
  /-- `npieces == 0` in `peer_on_bitfield` -/
  | bitfieldTwice
  /-- A bit outside the piece field of a peer is touched. -/
  | fieldBounds
  /-- A cell outside `piece_count` is touched. -/
  | pieceBounds
  deriving DecidableEq, Repr

/-- A routine; no calls are recorded. -/
abbrev Routine := Prog Slots Empty Fault

variable (q : Qsort) (r : Rates)

/-! ## `upload.c` -/

/-- Where `ul_on_new_peer` puts a peer. -/
def insertPeer (p : Nat) (place : Int) : Routine Unit := do
  let u ← get
  assert (place ≤ u.mPeerq.length) .nullDeref
  modify fun u => { u with
    mPeerq := if place < 1 then p :: u.mPeerq else u.mPeerq.insertIdx place.toNat p }

/-- `ul_on_new_peer`, for the place that `rand_between` gives. -/
def ulOnNewPeer (p : Nat) (place : Int) : Routine Unit := do
  insertPeer p place
  modify fun u => { u with mNpeers := u.mNpeers + 1 }
  modify (chokeDo q r)

/-- `ul_on_lost_peer` -/
def ulOnLostPeer (p : Nat) : Routine Unit := do
  let u ← get
  assert (0 < u.mNpeers) .npeers
  assert (p ∈ u.mPeerq) .unlinked
  modify fun u => { u with mPeerq := u.mPeerq.erase p, mNpeers := u.mNpeers - 1 }
  when ((u.peer p).pWant = true ∧ (u.peer p).iChoke = false) (modify (chokeDo q r))

/-- The loop of `ul_on_lost_torrent`. -/
def removePeer (p : Nat) : Routine Unit := do
  let u ← get
  assert (p ∈ u.mPeerq) .unlinked
  modify fun u => { u with mPeerq := u.mPeerq.erase p, mNpeers := u.mNpeers - 1 }

/-- `ul_on_lost_torrent` -/
def ulOnLostTorrent (n : Nat) : Routine Unit := do
  let u ← get
  forEach (u.net n).peers removePeer
  modify (chokeDo q r)

/-- `ul_on_interest` and `ul_on_uninterest` -/
def ulOnInterest (p : Nat) : Routine Unit := do
  let u ← get
  when ((u.peer p).iChoke = false) (modify (chokeDo q r))

/-- `shuffle_optimists`, which looks at `m_npeers` peers at most. -/
def shuffleOptimists (u : Slots) : Nat → List Nat → List Nat
  | 0, ps => ps
  | _, [] => []
  | i + 1, p :: ps =>
      if (u.peer p).pWant = true ∧ (u.peer p).iChoke = true then p :: ps
      else shuffleOptimists u i (ps ++ [p])

/-- `choke_cb` -/
def chokeCb : Routine Unit := do
  modify fun u => { u with cbCount := u.cbCount + 1 }
  let u ← get
  when (u.cbCount % 3 = 0)
    (modify fun u => { u with mPeerq := shuffleOptimists u u.mNpeers u.mPeerq })
  modify (chokeDo q r)

/-! ## Peers and torrents -/

/-- Change a torrent. -/
def Slots.setNet (u : Slots) (n : Nat) (f : Net → Net) : Slots :=
  { u with net := Function.update u.net n (f (u.net n)) }

/-- `peer_on_shake` for a new peer of the torrent. -/
def peerOnShake (n : Nat) (place : Int) : Routine Unit := do
  let u ← get
  let p := u.nextPeer
  modify fun u => { u with
    peer := Function.update u.peer p ⟨n, 0, fun _ => false, true, false⟩
    nextPeer := p + 1 }
  modify fun u => u.setNet n fun net => { net with peers := p :: net.peers }
  ulOnNewPeer q r p place

/-- The part of `peer_kill` for an attached peer. -/
def peerKill (p : Nat) : Routine Unit := do
  let u ← get
  let n := (u.peer p).n
  assert (p ∈ (u.net n).peers) .unlinked
  modify fun u => u.setNet n fun net => { net with peers := net.peers.erase p }
  when ((u.net n).active = true) (ulOnLostPeer q r p)

/-- `net_stop` -/
def netStop (n : Nat) : Routine Unit := do
  modify fun u => u.setNet n fun net => { net with active := false }
  ulOnLostTorrent q r n
  let u ← get
  forEach (u.net n).peers (peerKill q r)

/-- `peer_on_interest` -/
def peerOnInterest (p : Nat) : Routine Unit := do
  let u ← get
  when ((u.peer p).pWant = false) do
    modify fun u => u.setPeer p fun peer => { peer with pWant := true }
    ulOnInterest q r p

/-- `peer_on_uninterest` -/
def peerOnUninterest (p : Nat) : Routine Unit := do
  let u ← get
  when ((u.peer p).pWant = true) do
    modify fun u => u.setPeer p fun peer => { peer with pWant := false }
    ulOnInterest q r p

/-- The bits in the `ceil(npieces / 8.0)` bytes of a piece field. -/
def fieldBits (npieces : Nat) : Nat := 8 * ((npieces + 7) / 8)

/-- `peer_on_have`, with the cell of `piece_count` that `dl_on_piece_ann` touches. -/
def peerOnHave (p index : Nat) : Routine Unit := do
  let u ← get
  assert (index < fieldBits (u.net (u.peer p).n).npieces) .fieldBounds
  when ((u.peer p).pieceField index = false) do
    modify fun u => u.setPeer p fun peer => { peer with
      pieceField := Function.update peer.pieceField index true
      npieces := peer.npieces + 1 }
    assert (index < (u.net (u.peer p).n).npieces) .pieceBounds

/-- `peer_on_bitfield` -/
def peerOnBitfield (p : Nat) (field : Nat → Bool) : Routine Unit := do
  let u ← get
  assert ((u.peer p).npieces = 0) .bitfieldTwice
  modify fun u => u.setPeer p fun peer => { peer with
    pieceField := fun i => decide (i < fieldBits (u.net peer.n).npieces) && field i }
  forEach (List.range (u.net (u.peer p).n).npieces) fun i => do
    let u ← get
    when ((u.peer p).pieceField i = true)
      (modify fun u => u.setPeer p fun peer => { peer with npieces := peer.npieces + 1 })

/-! ## Events -/

/-- What can happen to the peers and the torrents. -/
inductive Event
  /-- The torrent is started. -/
  | start (n : Nat)
  /-- A peer completes its handshake. -/
  | shake (n : Nat) (place : Int) (r : Rates)
  | kill (p : Nat) (r : Rates)
  | interest (p : Nat) (r : Rates)
  | uninterest (p : Nat) (r : Rates)
  | haveMsg (p index : Nat)
  | bitfield (p : Nat) (field : Nat → Bool) (r : Rates)
  /-- The torrent is stopped. -/
  | stop (n : Nat) (r : Rates)
  /-- The choke timer. -/
  | choke (r : Rates)

/-- The peer is on the list of its torrent. -/
def Slots.Attached (u : Slots) (p : Nat) : Prop := p ∈ (u.net (u.peer p).n).peers

instance (u : Slots) (p : Nat) : Decidable (u.Attached p) := by
  unfold Slots.Attached
  infer_instance

/-- What a message of an attached peer does. -/
def ifAttached (p : Nat) (m : Routine Unit) : Routine Unit := do
  let u ← get
  when (u.Attached p) m

/-- A second bitfield ends the connection. -/
def netOnBitfield (p : Nat) (field : Nat → Bool) : Routine Unit := do
  let u ← get
  if (u.peer p).npieces = 0 then peerOnBitfield p field else peerKill q r p

/-- What the daemon does on an event. -/
def handle : Event → Routine Unit
  | .start n => modify fun u => u.setNet n fun net => { net with active := true }
  | .shake n place r => do
      let u ← get
      when ((u.net n).active = true ∧ -2 ≤ place ∧ place ≤ u.mNpeers) (peerOnShake q r n place)
  | .kill p r => ifAttached p (peerKill q r p)
  | .interest p r => ifAttached p (peerOnInterest q r p)
  | .uninterest p r => ifAttached p (peerOnUninterest q r p)
  | .haveMsg p index => ifAttached p (peerOnHave p index)
  | .bitfield p field r => ifAttached p (netOnBitfield q r p field)
  | .stop n r => netStop q r n
  | .choke r => chokeCb q r

/-- No peer is attached and no torrent has been started. -/
def Slots.init (npieces : Nat → Nat) (maxUploads : Int) : Slots where
  peer _ := ⟨0, 0, fun _ => false, true, false⟩
  net n := ⟨npieces n, false, []⟩
  nextPeer := 0
  mNpeers := 0
  mPeerq := []
  mMaxUploads := maxUploads
  cbCount := 0

/-- The daemon with torrents of any number of pieces. -/
def system (k : Int) : System Slots Empty Fault Event where
  start u := ∃ npieces, u = .init npieces k
  handle := handle q

end Btpd.Upload
