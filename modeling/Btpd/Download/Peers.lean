import Btpd.Download.Routines
import Btpd.Library.Count

/-!
# Invariants of single peers

An invariant that speaks of each peer by itself, and of which pieces we have, is
kept on every run as soon as the routines of a peer keep it: `PeerKept` lists
what they must keep, and `PeerKept.keeps_handle` is the result for events.

Along with it every run keeps `Base`: the pieces in progress are pieces of the
torrent, the pieces of each peer and of the torrent are counted, and
`piece_count` counts the peers that have a piece.
-/

namespace Btpd.Download

open Prog

open Peer (Tame)

theorem Net.setPeer_self (n : Net) (p : Nat) : n.setPeer p (n.peer p) = n := by
  rw [Net.setPeer, Function.update_eq_self]

/-! ## Counters -/

/-- How many pieces have been announced for each peer when no message is being
handled. -/
def everything (t : Torrent) : Nat → Nat := fun _ => t.npieces

/-- The peer has the piece `i`, one of the first `m` pieces. -/
def Peer.hasUpto (peer : Peer) (m i : Nat) : Bool := decide (i < m) && peer.pieceField i

/-- What the lists and counters of the torrent say, when the first `upto p`
pieces of the peer `p` have been announced. -/
structure Base (t : Torrent) (upto : Nat → Nat) (n : Net) : Prop where
  inside : n.Inside t
  nodup : n.peers.Nodup
  fresh : ∀ p ∈ n.peers, p < n.nextPeer
  got : n.cm.npiecesGot = (List.range t.npieces).countP n.cm.pieceField
  npieces : ∀ p ∈ n.peers, (n.peer p).npieces =
    (List.range t.npieces).countP ((n.peer p).hasUpto (upto p))
  pieceCount : ∀ i < t.npieces, n.pieceCount i =
    n.peers.countP fun p => (n.peer p).hasUpto (upto p) i

/-- The peers have announced the same pieces. -/
def Peer.SamePieces (peer peer' : Peer) : Prop :=
  peer'.pieceField = peer.pieceField ∧ peer'.npieces = peer.npieces

namespace Peer

theorem SamePieces.of_core {peer peer' base : Peer} (coreEq : peer'.core = base)
    (field : base.pieceField = peer.pieceField) (npieces : base.npieces = peer.npieces) :
    peer.SamePieces peer' :=
  ⟨(congrArg Peer.pieceField coreEq :).trans field, (congrArg Peer.npieces coreEq :).trans npieces⟩

/-- A routine that only changes the queue of a peer. -/
theorem samePieces_of_core {x : Except Fault Peer} {peer : Peer}
    (core : Tame x fun peer' => peer'.core = peer.core) : Tame x peer.SamePieces :=
  ends_mono core fun _ coreEq => .of_core coreEq rfl rfl

variable {peer : Peer} {index : Nat}

theorem want_samePieces : Tame (peer.want index) peer.SamePieces :=
  ends_mono want_core fun _ coreEq => .of_core coreEq rfl rfl

theorem unwant_samePieces : Tame (peer.unwant index) peer.SamePieces :=
  ends_mono unwant_core fun _ unwanted => .of_core unwanted.2 rfl rfl

theorem request_samePieces {req : BlockRequest} : Tame (peer.request req) peer.SamePieces :=
  ends_mono request_core fun _ requested => .of_core requested.2 rfl rfl

theorem cancel_samePieces {req : BlockRequest} {nb : NetBuf} :
    Tame (peer.cancel req nb) peer.SamePieces :=
  ends_mono cancel_core fun _ cancelled => .of_core cancelled.2 rfl rfl

theorem unlink_samePieces {req : BlockRequest} : Tame (peer.unlink req) peer.SamePieces :=
  ends_unlink (by decide) fun _ => ⟨rfl, rfl⟩

theorem badPiece_samePieces : Tame (peer.badPiece index) peer.SamePieces :=
  ends_mono badPiece_core fun _ ⟨_, _, _, coreEq⟩ => .of_core coreEq rfl rfl

theorem goodPiece_samePieces :
    Tame (peer.goodPiece index) fun result => peer.SamePieces result.2 :=
  ends_mono goodPiece_core fun _ ⟨_, _, _, _, coreEq⟩ => .of_core coreEq rfl rfl

theorem netWrite_samePieces {readBlock : Nat → Nat → Nat → List UInt8}
    {bytes : NetBuf → List UInt8} {wmax nwritten : Nat} :
    Tame (peer.netWrite readBlock bytes wmax nwritten)
      fun result => peer.SamePieces result.2 :=
  ends_mono netWrite_core fun _ coreEq => .of_core coreEq rfl rfl

theorem onShake_samePieces {t : Torrent} {n : Net} {unwritten : Option (Fin 68)} :
    Tame (Peer.onShake t n unwritten) (Peer.create t unwritten).SamePieces := by
  unfold Peer.onShake
  dsimp only
  split
  · exact ⟨rfl, rfl⟩
  split
  · exact samePieces_of_core send_core
  · refine ends_seq send_core fun _ firstEq => ?_
    exact ends_mono send_core fun _ secondEq => .of_core (secondEq.trans firstEq) rfl rfl

end Peer

variable {t : Torrent} {k : Contract Net Fn Fault} {upto : Nat → Nat} {n : Net}
  {callers : List Fn} {p index : Nat}

namespace Base

theorem framed {n' : Net} (base : Base t upto n) (framed : Net.Framed t n n') :
    Base t upto n' := by
  have outer := framed.outer
  simp only [Net.outer, Prod.mk.injEq] at outer
  obtain ⟨peer, peers, pieceCount, pieceField, npiecesGot, nextPeer, -, -⟩ := outer
  refine ⟨framed.inside base.inside, ?_, ?_, ?_, ?_, ?_⟩
  · rw [peers]
    exact base.nodup
  · rw [peers, nextPeer]
    exact base.fresh
  · rw [npiecesGot, pieceField]
    exact base.got
  · rw [peers, peer]
    exact base.npieces
  · rw [pieceCount, peers, peer]
    exact base.pieceCount

/-- The record of the peer `p` is replaced by one that has announced as much. -/
theorem replace {peer : Peer} {upto' : Nat → Nat} (base : Base t upto n)
    (others : ∀ q, q ≠ p → upto' q = upto q) (npieces : peer.npieces = (n.peer p).npieces)
    (same : ∀ i < t.npieces, peer.hasUpto (upto' p) i = (n.peer p).hasUpto (upto p) i) :
    Base t upto' (n.setPeer p peer) where
  inside := base.inside
  nodup := base.nodup
  fresh := base.fresh
  got := base.got
  npieces q mem := by
    rw [Net.setPeer_peer]
    split
    · rename_i here
      subst here
      rw [npieces, base.npieces q mem]
      exact List.countP_congr fun i inside => by rw [same i (List.mem_range.mp inside)]
    · rename_i other
      rw [others q other]
      exact base.npieces q mem
  pieceCount i inside := by
    rw [Net.setPeer_pieceCount, base.pieceCount i inside, Net.setPeer_peers]
    refine List.countP_congr fun q _ => ?_
    rw [Net.setPeer_peer]
    split
    · rename_i here
      rw [here, same i inside]
    · rename_i other
      rw [others q other]

theorem setPeer {peer : Peer} (base : Base t upto n) (same : (n.peer p).SamePieces peer) :
    Base t upto (n.setPeer p peer) :=
  base.replace (fun _ _ => rfl) same.2 fun _ _ => by rw [Peer.hasUpto, Peer.hasUpto, same.1]

/-- A piece that was not verified before is counted. -/
theorem verified {piece : Nat} (base : Base t upto n) (inside : piece < t.npieces)
    (unverified : n.cm.pieceField piece = false) : Base t upto (n.verified piece) where
  inside := base.inside
  nodup := base.nodup
  fresh := base.fresh
  got := by
    have counted := Count.countP_update List.nodup_range (List.mem_range.mpr inside) unverified
    rw [← base.got] at counted
    exact counted.symm
  npieces := base.npieces
  pieceCount := base.pieceCount

/-- A peer with no piece counted has none. -/
theorem none_of_npieces (base : Base t (everything t) n) (mem : p ∈ n.peers)
    (none : (n.peer p).npieces = 0) {i : Nat} (inside : i < t.npieces) :
    (n.peer p).pieceField i = false := by
  have counted := base.npieces p mem
  rw [none] at counted
  have lacks := List.countP_eq_zero.mp counted.symm i (List.mem_range.mpr inside)
  simpa [Peer.hasUpto, everything, inside] using lacks

/-- A new peer has no pieces. -/
theorem attach {peer : Peer} (base : Base t (everything t) n)
    (none : peer.npieces = 0) (field : ∀ i, peer.pieceField i = false) :
    Base t (everything t) (n.attach peer) := by
  have other : ∀ q ∈ n.peers, q ≠ n.nextPeer := fun q mem => Nat.ne_of_lt (base.fresh q mem)
  have others : ∀ q ∈ n.peers, (n.attach peer).peer q = n.peer q := by
    intro q mem
    show (n.setPeer n.nextPeer peer).peer q = n.peer q
    rw [Net.setPeer_peer, if_neg (other q mem)]
  have here : (n.attach peer).peer n.nextPeer = peer := by
    show (n.setPeer n.nextPeer peer).peer n.nextPeer = peer
    rw [Net.setPeer_peer, if_pos rfl]
  have lacks : ∀ m i, peer.hasUpto m i = false := by simp [Peer.hasUpto, field]
  refine ⟨base.inside, ?_, ?_, base.got, ?_, ?_⟩
  · exact List.nodup_cons.mpr ⟨fun mem => other _ mem rfl, base.nodup⟩
  · intro q mem
    rcases List.mem_cons.mp mem with rfl | mem
    · exact Nat.lt_succ_self _
    · exact Nat.lt_succ_of_lt (base.fresh q mem)
  · intro q mem
    rcases List.mem_cons.mp mem with rfl | mem
    · rw [here, none]
      exact (List.countP_eq_zero.mpr fun i _ => by simp [lacks]).symm
    · rw [others q mem]
      exact base.npieces q mem
  · intro i inside
    show n.pieceCount i = (n.nextPeer :: n.peers).countP _
    rw [base.pieceCount i inside, List.countP_cons_of_neg (by simp [here, lacks])]
    refine List.countP_congr fun q mem => ?_
    rw [others q mem]

/-- The state after the peer `p` is lost. -/
theorem lost (base : Base t (everything t) n) (mem : p ∈ n.peers) :
    Base t (everything t) { n with
      peers := n.peers.erase p
      pieceCount := fun i =>
        if i < t.npieces ∧ (n.peer p).pieceField i = true then n.pieceCount i - 1
        else n.pieceCount i } where
  inside := base.inside
  nodup := base.nodup.erase p
  fresh q mem := base.fresh q (List.mem_of_mem_erase mem)
  got := base.got
  npieces q mem := base.npieces q (List.mem_of_mem_erase mem)
  pieceCount i inside := by
    have counted := base.pieceCount i inside
    dsimp only
    rw [List.countP_erase, counted]
    simp only [Peer.hasUpto, everything, inside, mem, decide_true, Bool.true_and, true_and]
    split <;> rfl

/-- The peer `p` has announced one piece more, and now has the pieces that
`peer` has. -/
theorem announce {i : Nat} {peer : Peer} {upto' : Nat → Nat} (base : Base t upto n)
    (mem : p ∈ n.peers) (inside : i < t.npieces) (others : ∀ q, q ≠ p → upto' q = upto q)
    (counted : peer.npieces = (n.peer p).npieces + 1)
    (hadNot : (n.peer p).hasUpto (upto p) i = false) (has : peer.hasUpto (upto' p) i = true)
    (same : ∀ j, j ≠ i → peer.hasUpto (upto' p) j = (n.peer p).hasUpto (upto p) j) :
    Base t upto' { n.setPeer p peer with
      pieceCount := Function.update n.pieceCount i (n.pieceCount i + 1) } where
  inside := base.inside
  nodup := base.nodup
  fresh := base.fresh
  got := base.got
  npieces q qMem := by
    show ((n.setPeer p peer).peer q).npieces = _
    rw [Net.setPeer_peer]
    split
    · rename_i here
      subst here
      rw [counted, base.npieces q mem]
      exact (Count.countP_succ List.nodup_range (List.mem_range.mpr inside) hadNot has
        fun j _ => same j).symm
    · rename_i other
      rw [others q other]
      exact base.npieces q qMem
  pieceCount j jInside := by
    show Function.update n.pieceCount i _ j =
      n.peers.countP fun q => ((n.setPeer p peer).peer q).hasUpto (upto' q) j
    have there : ∀ q ∈ n.peers, q ≠ p →
        ((n.setPeer p peer).peer q).hasUpto (upto' q) j = (n.peer q).hasUpto (upto q) j := by
      intro q _ other
      rw [Net.setPeer_peer, if_neg other, others q other]
    by_cases here : j = i
    · subst here
      rw [Function.update_self, base.pieceCount j jInside]
      refine (Count.countP_succ base.nodup mem hadNot ?_ there).symm
      rw [Net.setPeer_peer, if_pos rfl, has]
    · rw [Function.update_of_ne here, base.pieceCount j jInside]
      refine List.countP_congr fun q qMem => ?_
      by_cases at_ : q = p
      · rw [at_, Net.setPeer_peer, if_pos rfl, same j here]
      · rw [there q qMem at_]

end Base

/-! ## Invariants peer by peer -/

/-- What an invariant may know of a peer besides its record: its number, whether
it is attached, and the pieces that we have. -/
structure View where
  p : Nat
  attached : Prop
  held : Nat → Bool

def Net.view (n : Net) (p : Nat) : View := ⟨p, p ∈ n.peers, n.cm.pieceField⟩

/-- The same view after the piece `piece` is verified. -/
def View.verified (v : View) (piece : Nat) : View := { v with held := setBit v.held piece }

theorem View.verified_held {v : View} {piece i : Nat} (other : i ≠ piece) :
    (v.verified piece).held i = v.held i :=
  Function.update_of_ne other _ _

theorem View.held_verified {v : View} {piece i : Nat} (held : v.held i = true) :
    (v.verified piece).held i = true := by
  by_cases here : i = piece
  · exact here ▸ Function.update_self _ _ _
  · rwa [View.verified_held here]

/-- The base invariant with an invariant of each peer. -/
structure Peerwise (t : Torrent) (J : View → Peer → Prop) (upto : Nat → Nat) (n : Net) : Prop
    extends Base t upto n where
  each : ∀ p, J (n.view p) (n.peer p)

/-- `loose` for the peer `p`, and `J` for the others. -/
def looseAt (J loose : View → Peer → Prop) (p : Nat) (v : View) (peer : Peer) : Prop :=
  if v.p = p then loose v peer else J v peer

/-- The piece `piece` is verified, and the peers of `rest` are still to be told. -/
structure Announcing (t : Torrent) (J : View → Peer → Prop) (upto : Nat → Nat) (piece : Nat)
    (rest : List Nat) (n : Net) : Prop extends Base t upto n where
  restNodup : rest.Nodup
  restAttached : ∀ p ∈ rest, p ∈ n.peers
  before : ∃ held, held piece = false ∧ n.cm.pieceField = setBit held piece ∧
    ∀ p, J (if p ∈ rest then ⟨p, p ∈ n.peers, held⟩ else n.view p) (n.peer p)

/-- The invariant `J` of a peer is kept by what is done to peers, and so is
`loose` while a request has been taken off and its peer not been settled yet.
Events happen in the states of `between`. -/
structure PeerKept (t : Torrent) (k : Contract Net Fn Fault) (between : Net → Prop)
    (J loose : View → Peer → Prop) : Prop where
  control : ∀ e ∈ controlFaults, k.allowed e
  bounded : ∀ callers (n : Net) p index, t.npieces ≤ index → k.bad ⟨.peerOnHave p index, callers, n⟩ ∨
    (k.allowed .fieldBounds ∧ k.allowed .pieceBounds)
  want : ∀ callers (n : Net) p index, J (n.view p) (n.peer p) →
    k.bad ⟨.peerWant p index, callers, n⟩ ∨
      Ends k.allowed ((n.peer p).want index) (J (n.view p))
  unwant : ∀ {v peer} index, J v peer → Ends k.allowed (peer.unwant index) (J v)
  request : ∀ {v peer} req, J v peer → peer.Engaged → Ends k.allowed (peer.request req) (J v)
  cancel : ∀ {v peer} req index begin length, J v peer →
    Ends k.allowed (peer.cancel req (.cancel index begin length)) (J v)
  loosen : ∀ {v peer}, J v peer → loose v peer
  unlink : ∀ {v peer} req, loose v peer → Ends k.allowed (peer.unlink req) (loose v)
  tighten : ∀ {v peer}, loose v peer → Ends k.allowed peer.checkNoReqs (J v)
  badPiece : ∀ {v peer} index, J v peer → Ends k.allowed (peer.badPiece index) (J v)
  goodPiece : ∀ callers (n : Net) p index, J (n.view p) (n.peer p) →
    k.bad ⟨.peerGoodPiece p index, callers, n⟩ ∨
      Ends k.allowed ((n.peer p).goodPiece index) fun result => J (n.view p) result.2
  ban : ∀ {v peer}, J v peer → J v { peer with banned := true }
  announce : ∀ {v peer piece}, J v peer → v.attached → v.held piece = false →
    Ends k.allowed (if peer.pieceField piece then .ok peer else peer.send (.haveMsg piece))
      (J (v.verified piece))
  missed : ∀ {v peer} piece, J v peer → ¬ v.attached → J (v.verified piece) peer
  leave : ∀ {v peer}, J v peer → J { v with attached := False } peer
  pWant : ∀ {v peer} pWant, J v peer → J v { peer with pWant := pWant }
  pChoke : ∀ {v peer} pChoke, J v peer → J v { peer with pChoke := pChoke }
  field : ∀ {v peer} field, J v peer → (∀ i < t.npieces, peer.pieceField i = false) →
    J v { peer with pieceField := field }
  setBit : ∀ {v peer} index npieces, J v peer →
    J v { peer with pieceField := setBit peer.pieceField index, npieces := npieces }
  count : ∀ {v peer} npieces, J v peer → J v { peer with npieces := npieces }
  unsendRequests : ∀ {v peer} fuel, J v peer →
    Ends k.allowed (peer.unsendRequests fuel 0) (J v)
  keepalive : ∀ {v peer}, J v peer → Ends k.allowed (peer.send .keepalive) (J v)
  choke : ∀ {v peer}, J v peer → Ends k.allowed peer.choke (J v)
  unchoke : ∀ {v peer}, J v peer → Ends k.allowed peer.unchoke (J v)
  onRequest : ∀ callers (n : Net) p index begin length, J (n.view p) (n.peer p) →
    (n.peer p).iChoke = false → length ≤ pieceBlocklen → index < t.npieces →
    n.cm.pieceField index = true →
    ((begin + length) % 2 ^ 32 : Nat) ≤ t.torrentPieceSize index →
    k.bad ⟨.peerOnRequest p index begin length, callers, n⟩ ∨
      Ends k.allowed ((n.peer p).onRequest index begin length) (J (n.view p))
  onCancel : ∀ {v peer} index begin length, J v peer →
    Ends k.allowed (peer.onCancel index begin length) (J v)
  write : ∀ (n : Net) p wmax nwritten, between n → J (n.view p) (n.peer p) →
    Ends k.allowed ((n.peer p).netWrite (n.cm.readBlock t) (NetBuf.bytes t n.cm.pieceField)
      wmax nwritten) fun result => J (n.view p) result.2

/-- A peer has the invariant when its handshake has been read. -/
def Shakes (t : Torrent) (k : Contract Net Fn Fault) (J : View → Peer → Prop) : Prop :=
  ∀ (n : Net) unwritten, (∀ p, J (n.view p) (n.peer p)) →
    n.cm.npiecesGot = (List.range t.npieces).countP n.cm.pieceField →
    Ends k.allowed (Peer.onShake t n unwritten) (J ⟨n.nextPeer, True, n.cm.pieceField⟩)

namespace Peerwise

variable {J : View → Peer → Prop}

theorem framed {n' : Net} (held : Peerwise t J upto n) (framed : Net.Framed t n n') :
    Peerwise t J upto n' where
  toBase := held.toBase.framed framed
  each p := by
    have viewEq : n'.view p = n.view p := by
      unfold Net.view
      rw [Net.peers_of_outer framed.outer, Net.cm_of_outer framed.outer]
    rw [viewEq, Net.peer_of_outer framed.outer]
    exact held.each p

theorem setPeer {peer : Peer} (held : Peerwise t J upto n)
    (same : (n.peer p).SamePieces peer) (kept : J (n.view p) peer) :
    Peerwise t J upto (n.setPeer p peer) where
  toBase := held.toBase.setPeer same
  each q := by
    rw [Net.setPeer_peer]
    split
    · rename_i here
      subst here
      exact kept
    · exact held.each q

/-- A routine of a peer that announces no pieces. -/
theorem ends_setPeer {allowed : Fault → Prop} {x : Except Fault Peer}
    (held : Peerwise t J upto n) (kept : Ends allowed x (J (n.view p)))
    (core : Tame x (n.peer p).SamePieces) :
    Ends allowed x fun peer => Peerwise t J upto (n.setPeer p peer) :=
  ends_mono (ends_and_returns kept (.of_ends core)) fun _ both => held.setPeer both.2 both.1

/-- The invariant of the peer `p` may be loosened. -/
theorem loosen {loose : View → Peer → Prop} (held : Peerwise t J upto n)
    (loosened : ∀ {v peer}, J v peer → loose v peer) (p : Nat) :
    Peerwise t (looseAt J loose p) upto n where
  toBase := held.toBase
  each q := by
    unfold looseAt
    split
    · exact loosened (held.each q)
    · exact held.each q

theorem loose_at {loose : View → Peer → Prop} (held : Peerwise t (looseAt J loose p) upto n) :
    loose (n.view p) (n.peer p) := by
  have at_ := held.each p
  rwa [looseAt, if_pos (show (n.view p).p = p from rfl)] at at_

theorem loose_of {loose : View → Peer → Prop} {peer : Peer} (kept : loose (n.view p) peer) :
    looseAt J loose p (n.view p) peer := by
  rwa [looseAt, if_pos (show (n.view p).p = p from rfl)]

/-- The invariant of the peer `p` holds again. -/
theorem tighten {loose : View → Peer → Prop} {peer : Peer}
    (held : Peerwise t (looseAt J loose p) upto n) (same : (n.peer p).SamePieces peer)
    (kept : J (n.view p) peer) : Peerwise t J upto (n.setPeer p peer) where
  toBase := held.toBase.setPeer same
  each q := by
    rw [Net.setPeer_peer]
    split
    · rename_i here
      subst here
      exact kept
    · rename_i other
      have at_ := held.each q
      rwa [looseAt, if_neg (show (n.view q).p ≠ p from other)] at at_

end Peerwise

/-! ## The routines -/

namespace PeerKept

variable {between : Net → Prop} {J loose : View → Peer → Prop}
  (kept : PeerKept t k between J loose)

include kept

theorem assignKept : AssignKept t k (Peerwise t J upto) where
  control := kept.control
  inside held := held.inside
  frame held framed := held.framed framed
  want callers n p index held :=
    (kept.want callers n p index (held.each p)).imp_right fun ended =>
      held.ends_setPeer ended Peer.want_samePieces
  unwant _ p index held :=
    held.ends_setPeer (kept.unwant index (held.each p)) Peer.unwant_samePieces
  request _ p req held engaged :=
    held.ends_setPeer (kept.request req (held.each p) engaged) Peer.request_samePieces

/-- The routines of the download keep the invariant, whatever part of a bit field
has been announced. -/
theorem routineKept (upto : Nat → Nat) :
    RoutineKept t k (Peerwise t J upto) (fun p => Peerwise t (looseAt J loose p) upto)
      (Announcing t J upto) where
  toAssignKept := kept.assignKept
  cancel p req index begin length held :=
    held.ends_setPeer (kept.cancel req index begin length (held.each p)) Peer.cancel_samePieces
  looseInside held := held.inside
  looseFrame held framed := held.framed framed
  loosen p _ held := held.loosen kept.loosen p
  unlink req held :=
    held.ends_setPeer (ends_mono (kept.unlink req held.loose_at) fun _ => Peerwise.loose_of)
      Peer.unlink_samePieces
  tighten held :=
    ends_mono (ends_and_returns (kept.tighten held.loose_at)
      (.of_ends (Peer.samePieces_of_core Peer.checkNoReqs_core))) fun _ both => held.tighten both.2 both.1
  badPiece p index held :=
    held.ends_setPeer (kept.badPiece index (held.each p)) Peer.badPiece_samePieces
  goodPiece callers n p index held :=
    (kept.goodPiece callers n p index (held.each p)).imp_right fun ended =>
      ends_mono (ends_and_returns ended (.of_ends Peer.goodPiece_samePieces))
        fun _ both => held.setPeer both.2 both.1
  ban p held := held.setPeer ⟨rfl, rfl⟩ (kept.ban (held.each p))
  verify piece held inside unverified _ :=
    { toBase := held.toBase.verified inside unverified
      restNodup := held.nodup
      restAttached := fun _ mem => mem
      before := by
        refine ⟨_, unverified, rfl, fun p => ?_⟩
        split
        · exact held.each p
        · rename_i lost
          exact kept.missed piece (held.each p) lost }
  announce {n} piece p rest held := by
    obtain ⟨heldBefore, unverified, heldEq, each⟩ := held.before
    obtain ⟨notRest, restNodup⟩ := List.nodup_cons.mp held.restNodup
    have attached := held.restAttached p List.mem_cons_self
    have before := each p
    rw [if_pos List.mem_cons_self] at before
    have told := kept.announce before attached unverified
    have same : Tame
        (if (n.peer p).pieceField piece then .ok (n.peer p)
          else (n.peer p).send (.haveMsg piece)) (n.peer p).SamePieces := by
      split
      · exact ⟨rfl, rfl⟩
      · exact Peer.samePieces_of_core Peer.send_core
    refine ends_mono (ends_and_returns told (.of_ends same)) ?_
    rintro peer ⟨told, same⟩
    refine ⟨held.toBase.setPeer same, restNodup,
      fun q mem => held.restAttached q (List.mem_cons_of_mem p mem),
      heldBefore, unverified, heldEq, fun q => ?_⟩
    rw [Net.setPeer_peer]
    by_cases here : q = p
    · subst here
      rw [if_neg notRest, if_pos rfl]
      have viewEq : (n.setPeer q peer).view q =
          View.verified ⟨q, q ∈ n.peers, heldBefore⟩ piece := by
        show (⟨q, q ∈ n.peers, n.cm.pieceField⟩ : View) = ⟨q, q ∈ n.peers, _⟩
        rw [heldEq]
      rw [viewEq]
      exact told
    · rw [if_neg here]
      have there := each q
      simp only [List.mem_cons, here, false_or] at there
      exact there
  announced {n} piece held :=
    { toBase := held.toBase
      each := fun p => by
        obtain ⟨_, _, _, each⟩ := held.before
        have here := each p
        rwa [if_neg (by simp)] at here }

/-- The routines of the download attach and lose no peers. -/
theorem routineKept_peers (upto : Nat → Nat) (peers : List Nat) :
    RoutineKept t k (fun n => Peerwise t J upto n ∧ n.peers = peers)
      (fun p n => Peerwise t (looseAt J loose p) upto n ∧ n.peers = peers)
      (fun piece rest n => Announcing t J upto piece rest n ∧ n.peers = peers) :=
  (kept.routineKept upto).and (fun same framed => (Net.peers_of_outer framed.outer).trans same)
    (fun _ _ same => same) fun _ same => same

/-! ## The events -/

omit kept in
theorem keeps_onPeer {f : Peer → Except Fault Peer}
    (step : ∀ v peer, J v peer → Ends k.allowed (f peer) (J v))
    (core : ∀ peer, Tame (f peer) fun peer' => peer'.core = peer.core) :
    Keeps k (Peerwise t J upto) (onPeer p f) := by
  intro callers n held
  rw [wp_onPeer]
  exact held.ends_setPeer (step _ _ (held.each p)) (Peer.samePieces_of_core (core _))

theorem peerKill_wp (mem : p ∈ n.peers) (held : Peerwise t J (everything t) n) :
    (peerKill t p).wp k callers
      (fun _ n' => Peerwise t J (everything t) n' ∧ n'.peers = n.peers.erase p) n := by
  unfold peerKill dlOnLostPeer
  rw [wp_bind, wp_modify, wp_bind, wp_modify]
  have lost : Peerwise t J (everything t) { n with
      peers := n.peers.erase p
      pieceCount := fun i =>
        if i < t.npieces ∧ (n.peer p).pieceField i = true then n.pieceCount i - 1
        else n.pieceCount i } :=
    ⟨held.toBase.lost mem, fun q => by
      have before := held.each q
      by_cases here : q = p
      · subst here
        have gone : (q ∈ n.peers.erase q) = False :=
          eq_false fun still => ((List.Nodup.mem_erase_iff held.nodup).mp still).1 rfl
        show J ⟨q, q ∈ n.peers.erase q, n.cm.pieceField⟩ (n.peer q)
        rw [gone]
        exact kept.leave before
      · show J ⟨q, q ∈ n.peers.erase p, n.cm.pieceField⟩ (n.peer q)
        rw [List.mem_erase_of_ne here]
        exact before⟩
  have routines := kept.routineKept_peers (everything t) (n.peers.erase p)
  exact keeps_get (fun callers n held => keeps_when routines.keeps_dlOnUndownload _ _ held)
    _ _ ⟨lost, rfl⟩

theorem peerOnChoke_wp (held : Peerwise t J (everything t) n) :
    (peerOnChoke t p).wp k callers (fun _ n' => Peerwise t J (everything t) n') n := by
  have routines := kept.routineKept (everything t)
  unfold peerOnChoke
  rw [wp_bind, wp_get, wp_ite]
  split
  · exact wp_pure.mpr held
  rw [wp_bind, wp_onPeer, ends_ok]
  have choked : Peerwise t J (everything t) (n.setPeer p { n.peer p with pChoke := true }) :=
    held.setPeer ⟨rfl, rfl⟩ (kept.pChoke true (held.each p))
  refine wp_seq (keeps_get (fun callers n held =>
    keeps_when routines.keeps_dlOnUndownload _ _ held) _ _ choked) fun _ n₁ held => ?_
  rw [wp_onPeer]
  exact held.ends_setPeer (kept.unsendRequests _ (held.each p))
    (Peer.samePieces_of_core (Peer.unsendRequests_core _))

theorem peerOnUnchoke_wp (held : Peerwise t J (everything t) n) :
    (peerOnUnchoke t p).wp k callers (fun _ n' => Peerwise t J (everything t) n') n := by
  have routines := kept.routineKept (everything t)
  unfold peerOnUnchoke
  rw [wp_bind, wp_get, wp_ite]
  split
  · rw [wp_bind, wp_onPeer, ends_ok]
    have unchoked : Peerwise t J (everything t)
        (n.setPeer p { n.peer p with pChoke := false }) :=
      held.setPeer ⟨rfl, rfl⟩ (kept.pChoke false (held.each p))
    exact keeps_get (fun callers n held => keeps_when routines.keeps_dlOnDownload _ _ held)
      _ _ unchoked
  · exact wp_pure.mpr held

/-- A piece of a peer is announced: the peer has the pieces of `peer` from now on. -/
theorem announce_wp {i : Nat} {peer : Peer} {upto' : Nat → Nat}
    (held : Peerwise t J upto n) (mem : p ∈ n.peers) (others : ∀ q, q ≠ p → upto' q = upto q)
    (counted : peer.npieces = (n.peer p).npieces + 1)
    (hadNot : (n.peer p).hasUpto (upto p) i = false)
    (has : i < t.npieces → peer.hasUpto (upto' p) i = true)
    (same : ∀ j, j ≠ i → peer.hasUpto (upto' p) j = (n.peer p).hasUpto (upto p) j)
    (invariant : J (n.view p) peer) (bounded : i < t.npieces ∨ k.allowed .pieceBounds) :
    (dlOnPieceAnn t p i).wp k callers
      (fun _ n' => Peerwise t J upto' n' ∧ n'.peers = n.peers) (n.setPeer p peer) := by
  refine (kept.routineKept_peers upto' n.peers).dlOnPieceAnn_wp bounded fun inside => ?_
  refine ⟨⟨held.toBase.announce mem inside others counted hadNot (has inside) same,
    fun q => ?_⟩, rfl⟩
  show J (n.view q) ((n.setPeer p peer).peer q)
  rw [Net.setPeer_peer]
  split
  · rename_i here
    exact here ▸ invariant
  · exact held.each q

theorem peerOnHave_wp (mem : p ∈ n.peers) (held : Peerwise t J (everything t) n) :
    (peerOnHave t p index).wp k callers (fun _ n' => Peerwise t J (everything t) n') n := by
  refine wp_call.mpr ?_
  have bounds : k.bad ⟨.peerOnHave p index, callers, n⟩ ∨
      (index < t.npieces ∨ k.allowed .fieldBounds) ∧
        (index < t.npieces ∨ k.allowed .pieceBounds) := by
    rcases Nat.lt_or_ge index t.npieces with inside | outside
    · exact .inr ⟨.inl inside, .inl inside⟩
    · exact (kept.bounded callers n p index outside).imp_right fun both =>
        ⟨.inr both.1, .inr both.2⟩
  refine bounds.imp_right fun bounds => ?_
  rw [wp_bind, wp_assert]
  split
  · rw [wp_bind, wp_get, wp_ite]
    split
    · exact wp_pure.mpr held
    rename_i hasNot
    replace hasNot : (n.peer p).pieceField index = false := by simpa using hasNot
    rw [wp_bind, wp_onPeer, ends_ok]
    refine wp_mono (kept.announce_wp held mem (fun _ _ => rfl) rfl ?_ (fun inside => ?_)
      (fun j other => ?_) (kept.setBit index _ (held.each p)) bounds.2) fun _ _ both => both.1
    · simp [Peer.hasUpto, hasNot]
    · simp [Peer.hasUpto, Download.setBit, everything, inside]
    · simp [Peer.hasUpto, Download.setBit, Function.update_of_ne other]
  · rename_i outside
    refine bounds.1.resolve_left fun inside => outside ?_
    unfold Torrent.fieldBytes
    omega

/-- The peer `p` has announced its first `m` pieces, and the others all. -/
def announcedTo (t : Torrent) (p m : Nat) : Nat → Nat := Function.update (everything t) p m

omit kept in
theorem announcedTo_all : announcedTo t p t.npieces = everything t :=
  Function.update_eq_self p (everything t)

/-- The loop of `peer_on_bitfield` from the piece `m` on. -/
theorem announceField_wp (count m : Nat) (last : m + count = t.npieces) (mem : p ∈ n.peers)
    (held : Peerwise t J (announcedTo t p m) n) :
    (Prog.forEach (List.range' m count) fun i => do
      let n ← Prog.get
      Prog.when ((n.peer p).pieceField i = true) do
        onPeer p fun peer => .ok { peer with npieces := peer.npieces + 1 }
        dlOnPieceAnn t p i).wp k callers (fun _ n' => Peerwise t J (everything t) n') n := by
  induction count generalizing m n with
  | zero =>
      rw [Nat.add_zero] at last
      rw [last, announcedTo_all] at held
      exact wp_pure.mpr held
  | succ count ih =>
      have here : announcedTo t p m p = m := Function.update_self _ _ _
      have next : announcedTo t p (m + 1) p = m + 1 := Function.update_self _ _ _
      have others : ∀ q, q ≠ p → announcedTo t p (m + 1) q = announcedTo t p m q := by
        intro q other
        rw [announcedTo, announcedTo, Function.update_of_ne other, Function.update_of_ne other]
      have further : ∀ j, j ≠ m → ((n.peer p).hasUpto (announcedTo t p (m + 1) p) j =
          (n.peer p).hasUpto (announcedTo t p m p) j) := by
        intro j other
        rw [here, next, Peer.hasUpto, Peer.hasUpto]
        congr 1
        rw [decide_eq_decide]
        omega
      refine wp_between (fun _ n' =>
        Peerwise t J (announcedTo t p (m + 1)) n' ∧ n'.peers = n.peers) ?_ fun _ n' held' =>
          ih (m + 1) (by omega) (held'.2 ▸ mem) held'.1
      rw [wp_bind, wp_get, wp_when]
      split
      · rename_i has
        rw [wp_bind, wp_onPeer, ends_ok]
        refine kept.announce_wp held mem others rfl ?_ (fun _ => ?_) further
          (kept.count _ (held.each p)) (.inl (by omega))
        · simp [Peer.hasUpto, here]
        · simp [Peer.hasUpto, next, has]
      · rename_i hasNot
        have base : Base t (announcedTo t p (m + 1)) (n.setPeer p (n.peer p)) := by
          refine held.toBase.replace others rfl fun j _ => ?_
          by_cases last : j = m
          · subst last
            simp [Peer.hasUpto, hasNot]
          · exact further j last
        rw [Net.setPeer_self] at base
        exact ⟨⟨base, held.each⟩, rfl⟩

theorem peerOnBitfield_wp {field : Nat → Bool} (mem : p ∈ n.peers)
    (held : Peerwise t J (everything t) n) :
    (peerOnBitfield t p field).wp k callers (fun _ n' => Peerwise t J (everything t) n') n := by
  refine wp_call.mpr (.inr ?_)
  rw [wp_bind, wp_get, wp_bind, wp_assert]
  split
  · rename_i none
    have lacks : ∀ i < t.npieces, (n.peer p).pieceField i = false :=
      fun i inside => held.none_of_npieces mem none inside
    rw [wp_bind, wp_onPeer, ends_ok, List.range_eq_range']
    refine kept.announceField_wp t.npieces 0 (Nat.zero_add _) mem ⟨?_, fun q => ?_⟩
    · refine held.toBase.replace (fun q other => ?_) rfl fun i inside => ?_
      · rw [announcedTo, Function.update_of_ne other]
      · rw [announcedTo, Function.update_self]
        simp [Peer.hasUpto, lacks i inside]
    · rw [Net.setPeer_peer]
      split
      · rename_i here
        subst here
        exact kept.field _ (held.each q) lacks
      · exact held.each q
  · exact kept.control _ (by decide)

theorem peerOnPiece_wp {begin : Nat} {data : List UInt8}
    (held : Peerwise t J (everything t) n) :
    (peerOnPiece t p index begin data).wp k callers
      (fun _ n' => Peerwise t J (everything t) n') n := by
  have routines := kept.routineKept (everything t)
  unfold peerOnPiece
  rw [wp_bind, wp_get]
  dsimp only
  split
  · exact wp_pure.mpr held
  · rename_i req _
    refine wp_seq (routines.keeps_assert (by decide) _ _ held) fun _ n₁ held => ?_
    rw [wp_bind, wp_onPeer]
    refine ends_mono (routines.unlink req (routines.loosen p held)) fun peer loosened => ?_
    refine wp_seq (routines.checkNoReqs_wp loosened) fun _ n₂ held => ?_
    exact routines.keeps_dlOnBlock _ _ held

theorem netOnRequest_wp {begin length : Nat} (mem : p ∈ n.peers)
    (held : Peerwise t J (everything t) n) :
    (netOnRequest t p index begin length).wp k callers
      (fun _ n' => Peerwise t J (everything t) n') n := by
  unfold netOnRequest
  rw [wp_bind, wp_get, wp_ite]
  split
  · rename_i open_
    rw [wp_ite]
    split
    · exact wp_mono (kept.peerKill_wp mem held) fun _ _ both => both.1
    · rename_i good
      simp only [not_or, Nat.not_lt, Nat.not_le, Int.not_lt, Bool.not_eq_false] at good
      obtain ⟨short, inside, verified, fits⟩ := good
      simp only [Bool.and_eq_true, Bool.not_eq_true'] at open_
      refine wp_call.mpr ((kept.onRequest callers n p index begin length (held.each p) open_.2
        short inside verified fits).imp_right fun ended => ?_)
      rw [wp_onPeer]
      exact held.ends_setPeer ended (Peer.samePieces_of_core Peer.onRequest_core)
  · exact wp_pure.mpr held

theorem netWrite_wp {wmax nwritten : Nat} (here : between n)
    (held : Peerwise t J (everything t) n) :
    (netWrite t p wmax nwritten).wp k callers
      (fun _ n' => Peerwise t J (everything t) n') n := by
  unfold netWrite
  rw [wp_bind, wp_get, wp_bind, wp_ofExcept]
  refine ends_mono (ends_and_returns (kept.write n p wmax nwritten here (held.each p))
    (.of_ends Peer.netWrite_samePieces)) ?_
  rintro ⟨uploaded, peer⟩ ⟨written, same⟩
  have held' : Peerwise t J (everything t) (n.setPeer p peer) := held.setPeer same written
  rw [wp_modify]
  exact ⟨⟨held'.inside, held'.nodup, held'.fresh, held'.got, held'.npieces, held'.pieceCount⟩,
    held'.each⟩

omit kept in
theorem peerOnShake_wp {unwritten : Option (Fin 68)} (shakes : Shakes t k J)
    (held : Peerwise t J (everything t) n) :
    (peerOnShake t unwritten).wp k callers
      (fun _ n' => Peerwise t J (everything t) n') n := by
  unfold peerOnShake
  rw [wp_bind, wp_get, wp_bind, wp_ofExcept]
  refine ends_mono (ends_and_returns (shakes n unwritten held.each held.got)
    (.of_ends Peer.onShake_samePieces)) ?_
  rintro peer ⟨shaken, same⟩
  rw [wp_modify]
  refine ⟨held.toBase.attach same.2 fun i => by rw [same.1]; rfl, fun q => ?_⟩
  by_cases here : q = n.nextPeer
  · subst here
    show J ⟨n.nextPeer, n.nextPeer ∈ n.nextPeer :: n.peers, n.cm.pieceField⟩
      ((n.setPeer n.nextPeer peer).peer n.nextPeer)
    rw [Net.setPeer_peer, if_pos rfl, eq_true (List.mem_cons_self : n.nextPeer ∈ _)]
    exact shaken
  · show J ⟨q, q ∈ n.nextPeer :: n.peers, n.cm.pieceField⟩
      ((n.setPeer n.nextPeer peer).peer q)
    have memEq : (q ∈ n.nextPeer :: n.peers) = (q ∈ n.peers) := by simp [here]
    rw [Net.setPeer_peer, if_neg here, memEq]
    exact held.each q

theorem torrentOnTick_wp (held : Peerwise t J (everything t) n)
    (tick : k.allowed .tickWanted) :
    (torrentOnTick t).wp k callers (fun _ n' => Peerwise t J (everything t) n') n := by
  unfold torrentOnTick
  rw [wp_bind, wp_get, wp_ite]
  split
  · rw [wp_bind, wp_modify]
    have seeding : Peerwise t J (everything t) { n with seed := true } :=
      ⟨⟨held.inside, held.nodup, held.fresh, held.got, held.npieces, held.pieceCount⟩,
        held.each⟩
    -- the peers that are still to be checked are attached
    refine wp_mono (wp_forEach (fun rest n' =>
      Peerwise t J (everything t) n' ∧ rest.Nodup ∧ ∀ p ∈ rest, p ∈ n'.peers) ?_
      ⟨seeding, held.nodup, fun _ mem => mem⟩) fun _ _ both => both.1
    rintro p rest n' - ⟨held', nodup, attached⟩
    obtain ⟨notRest, nodup⟩ := List.nodup_cons.mp nodup
    rw [List.forall_mem_cons] at attached
    rw [wp_bind, wp_get, wp_bind, wp_assert]
    split
    · rw [wp_when]
      split
      · refine wp_mono (kept.peerKill_wp attached.1 held') ?_
        rintro _ n'' ⟨held'', peersEq⟩
        refine ⟨held'', nodup, fun q mem => ?_⟩
        rw [peersEq]
        exact (List.mem_erase_of_ne (ne_of_mem_of_not_mem mem notRest)).mpr (attached.2 q mem)
      · exact ⟨held', nodup, attached.2⟩
    · exact tick
  · exact wp_pure.mpr held

omit kept in
theorem ifAttached_wp {post : Net → Prop} {m : Routine Unit}
    (attached : p ∈ n.peers → m.wp k callers (fun _ n' => post n') n) (held : post n) :
    (ifAttached p m).wp k callers (fun _ n' => post n') n := by
  unfold ifAttached
  rw [wp_bind, wp_get, wp_ite]
  split
  · rename_i mem
    exact attached mem
  · exact wp_pure.mpr held

/-- Every event keeps the invariant. -/
theorem handle_wp (e : Event) (shakes : ∀ unwritten, e = .shake unwritten → Shakes t k J)
    (here : ∀ p wmax nwritten, e = .write p wmax nwritten → between n) (held : Peerwise t J (everything t) n) :
    (handle t e).wp k callers (fun _ n' => Peerwise t J (everything t) n') n := by
  cases e with
  | shake unwritten => exact peerOnShake_wp (shakes unwritten rfl) held
  | kill p =>
      exact ifAttached_wp (fun mem => wp_mono (kept.peerKill_wp mem held) fun _ _ both => both.1)
        held
  | choke p => exact ifAttached_wp (fun _ => kept.peerOnChoke_wp held) held
  | unchoke p => exact ifAttached_wp (fun _ => kept.peerOnUnchoke_wp held) held
  | interest p =>
      refine ifAttached_wp (fun _ => ?_) held
      rw [wp_onPeer, ends_ok]
      exact held.setPeer ⟨rfl, rfl⟩ (kept.pWant true (held.each p))
  | uninterest p =>
      refine ifAttached_wp (fun _ => ?_) held
      rw [wp_onPeer, ends_ok]
      exact held.setPeer ⟨rfl, rfl⟩ (kept.pWant false (held.each p))
  | haveMsg p index => exact ifAttached_wp (fun mem => kept.peerOnHave_wp mem held) held
  | bitfield p field =>
      refine ifAttached_wp (fun mem => ?_) held
      rw [wp_bind, wp_get, wp_ite]
      split
      · exact kept.peerOnBitfield_wp mem held
      · exact wp_mono (kept.peerKill_wp mem held) fun _ _ both => both.1
  | request p index begin length =>
      exact ifAttached_wp (fun mem => kept.netOnRequest_wp mem held) held
  | cancel p index begin length =>
      exact ifAttached_wp (fun _ => keeps_onPeer
        (fun _ _ here => kept.onCancel index begin length here) (fun _ => Peer.onCancel_core) _ _ held) held
  | piece p index begin data =>
      exact ifAttached_wp (fun _ => kept.peerOnPiece_wp held) held
  | write p wmax nwritten => exact ifAttached_wp (fun _ => kept.netWrite_wp (here _ _ _ rfl) held) held
  | keepalive p =>
      exact ifAttached_wp (fun _ => keeps_onPeer (fun _ _ here => kept.keepalive here)
        (fun _ => Peer.send_core) _ _ held) held
  | ulChoke p =>
      exact ifAttached_wp (fun _ => keeps_onPeer (fun _ _ here => kept.choke here)
        (fun _ => Peer.choke_core) _ _ held) held
  | ulUnchoke p =>
      exact ifAttached_wp (fun _ => keeps_onPeer (fun _ _ here => kept.unchoke here)
        (fun _ => Peer.send_core) _ _ held) held
  | tick => exact kept.torrentOnTick_wp held (kept.control _ (by decide))

end PeerKept

/-! ## Runs -/

/-- A torrent starts with the invariant. -/
theorem Peerwise.start {J : View → Peer → Prop}
    (begins : ∀ p held, J ⟨p, False, held⟩ (Peer.create t none))
    (start : (system t).start n) : Peerwise t J (everything t) n := by
  obtain ⟨pieceField, blockField, data, rfl⟩ := start
  refine ⟨⟨by simp [Net.Inside, Net.create], List.nodup_nil, by simp [Net.create], rfl,
    by simp [Net.create], by simp [Net.create]⟩, fun p => ?_⟩
  have viewEq : (Net.create t (startupTestEnd t pieceField blockField data)).view p =
      ⟨p, False, pieceField⟩ := by
    show (⟨p, p ∈ [], pieceField⟩ : View) = _
    rw [eq_false List.not_mem_nil]
  rw [viewEq]
  exact begins p pieceField

section

variable {bad : Call Net Fn → Prop} {allowed : Fault → Prop} {J loose : View → Peer → Prop}
  (kept : PeerKept t ⟨bad, allowed⟩ ((system t).Reachable bad) J loose)
  (shakes : Shakes t ⟨bad, allowed⟩ J)
  (begins : ∀ p held, J ⟨p, False, held⟩ (Peer.create t none))
  (reached : (system t).Reachable bad n)

include kept shakes begins reached

/-- In every state of a run without bad calls the invariant holds. -/
theorem PeerKept.of_reachable : Peerwise t J (everything t) n :=
  reached.invariant _ allowed (fun _ start => Peerwise.start begins start)
    fun _ e before held => kept.handle_wp e (fun _ _ => shakes) (fun _ _ _ _ => before) held

/-- A run without bad calls ends only in a fault that is allowed. -/
theorem PeerKept.fault_allowed {e : Event} {fault : Fault}
    (faults : (system t).Faults bad n e fault) : allowed fault :=
  reached.fault_allowed (fun _ start => Peerwise.start begins start)
    (fun _ e before held => kept.handle_wp e (fun _ _ => shakes) (fun _ _ _ _ => before) held) faults

end

end Btpd.Download
