import Btpd.Download.Interest
import Btpd.Download.Peers

/-!
# What peers are told over a run

The agreement between the flags of a peer, its counters and what it is told is kept by
every event, except where a suspect peer is treated without a look at its deferred
UNINTEREST.
-/

namespace Btpd.Download

open Prog

/-- The peer is suspect and marked for a deferred UNINTEREST, and we want it from now on. -/
def Peer.WantedMarked (peer : Peer) (index : Nat) : Prop :=
  peer.requestable index = true ∧ peer.nwant = 0 ∧ peer.suspect = true ∧ peer.doUnwant = true

/-- The peer is suspect and has requests although we do not want it, and no UNINTEREST is
deferred. -/
def Peer.Unmarked (peer : Peer) : Prop :=
  peer.suspect = true ∧ peer.nwant = 0 ∧ 0 < peer.nreqsOut ∧ peer.doUnwant = false

instance {peer : Peer} {index : Nat} : Decidable (peer.WantedMarked index) :=
  inferInstanceAs (Decidable (_ ∧ _))

instance {peer : Peer} : Decidable peer.Unmarked := inferInstanceAs (Decidable (_ ∧ _))

/-- A call that confuses what a suspect peer is told. -/
def confuses (c : Call Net Fn) : Prop :=
  match c.fn with
  | .peerWant p index => (c.entry.peer p).WantedMarked index
  | .peerGoodPiece p _ => (c.entry.peer p).Unmarked
  | _ => False

instance : DecidablePred confuses
  | ⟨.peerWant p index, _, n⟩ => inferInstanceAs (Decidable ((n.peer p).WantedMarked index))
  | ⟨.peerGoodPiece p _, _, n⟩ => inferInstanceAs (Decidable (n.peer p).Unmarked)
  | ⟨.peerOnHave .., _, _⟩ | ⟨.peerOnBitfield _, _, _⟩ | ⟨.peerOnRequest .., _, _⟩
  | ⟨.dlOnPieceAnn .., _, _⟩ | ⟨.dlEnterEndgame, _, _⟩ | ⟨.dlOnPieceFull _, _, _⟩
  | ⟨.dlOnPieceUnfull _, _, _⟩ | ⟨.dlOnOkPiece _, _, _⟩ | ⟨.pieceLogBad _, _, _⟩ => .isFalse id

/-- The promise that no assertion about our interest fails. -/
def interestContract : Contract Net Fn Fault := ⟨confuses, (· ∉ Peer.interestFaults)⟩

variable {t : Torrent} {n : Net}

theorem settled_peerKept : PeerKept t interestContract ((system t).Reachable confuses)
    (fun _ peer => peer.Settled) fun _ peer => peer.Interested where
  control := by
    show ∀ e ∈ controlFaults, e ∉ Peer.interestFaults
    decide
  bounded _ _ _ _ _ := by
    right
    show Fault.fieldBounds ∉ Peer.interestFaults ∧ Fault.pieceBounds ∉ Peer.interestFaults
    decide
  want callers n p index kept := by
    by_cases marked : (n.peer p).WantedMarked index
    · exact .inl marked
    · exact .inr (Peer.want_settled kept marked)
  unwant _ kept := Peer.unwant_settled kept
  request _ kept engaged := Peer.request_settled kept engaged
  cancel _ _ _ _ kept := Peer.cancel_settled kept
  loosen kept := kept.toInterested
  unlink _ kept := Peer.unlink_interested kept
  tighten kept := Peer.checkNoReqs_settled kept
  badPiece _ kept := Peer.badPiece_settled kept
  goodPiece callers n p index kept := by
    by_cases unmarked : (n.peer p).Unmarked
    · exact .inl unmarked
    · exact .inr (Peer.goodPiece_settled kept unmarked)
  ban kept := kept.congr rfl rfl rfl rfl rfl rfl rfl kept.paired
  announce kept _ _ := by
    split
    · exact kept
    · exact Peer.send_settled kept rfl
  missed _ kept _ := kept
  leave kept := kept
  pWant _ kept := kept.congr rfl rfl rfl rfl rfl rfl rfl kept.paired
  pChoke _ kept := kept.congr rfl rfl rfl rfl rfl rfl rfl kept.paired
  field _ kept _ := kept.congr rfl rfl rfl rfl rfl rfl rfl kept.paired
  setBit _ _ kept := kept.congr rfl rfl rfl rfl rfl rfl rfl kept.paired
  count _ kept := kept.congr rfl rfl rfl rfl rfl rfl rfl kept.paired
  unsendRequests _ kept := Peer.unsendRequests_settled _ _ kept
  keepalive kept := Peer.send_settled kept rfl
  choke kept := Peer.choke_settled kept
  unchoke kept := Peer.unchoke_settled kept
  onRequest _ _ _ _ _ _ kept _ _ _ _ _ := .inr (Peer.onRequest_settled kept)
  onCancel _ _ _ kept := Peer.onCancel_settled kept
  write _ _ _ _ _ kept := Peer.netWrite_settled kept

/-- A peer that has just connected has been told nothing. -/
theorem settled_create (unwritten : Option (Fin 68)) : (Peer.create t unwritten).Settled := by
  have silent : (Peer.create t unwritten).interestLog = [] := by
    cases unwritten with
    | none => rfl
    | some off => rfl
  have empty : Paired [] := by
    intro k index begin length found
    cases found
  have paired : Paired (Peer.create t unwritten).outq := by
    cases unwritten with
    | none => exact empty
    | some off => exact empty.append_plain rfl
  exact
    { wanted := by simp [Peer.create]
      deferred := by simp [Peer.create]
      pending := by simp [Peer.create]
      told := by
        rw [Peer.toldInterest, silent]
        simp [Peer.create]
      alternates := by simp [silent]
      suspicious := by simp [Peer.create]
      paired := paired
      waiting := by simp [Peer.create] }

theorem settled_shakes : Shakes t interestContract fun _ peer => peer.Settled := by
  intro n unwritten _ _
  have created := settled_create (t := t) unwritten
  unfold Peer.onShake
  dsimp only
  split
  · exact created
  split
  · exact Peer.send_settled created rfl
  · exact ends_seq (Peer.send_settled created rfl) fun _ kept => Peer.send_settled kept rfl

/-- The flags of a peer agree with its counters and with the last thing it is told. -/
structure Peer.Informed (peer : Peer) : Prop where
  wanted : peer.iWant = true ↔ 0 < peer.nwant
  deferred : peer.doUnwant = true → peer.nwant = 0 ∧ 0 < peer.nreqsOut
  told : peer.toldInterest = true ↔
    (0 < peer.nwant ∧ peer.suspect = false) ∨ peer.doUnwant = true

/-- As long as no suspect peer is confused, every peer is informed, and no assertion about our
interest fails. -/
theorem informed_of_reachable (reached : (system t).Reachable confuses n) :
    (∀ p, (n.peer p).Informed) ∧ ∀ e fault, (system t).Faults confuses n e fault →
      fault ∉ Peer.interestFaults := by
  have begins : ∀ (p : Nat) (held : Nat → Bool), (Peer.create t none).Settled := fun _ _ =>
    settled_create none
  constructor
  · intro p
    have settled := (settled_peerKept.of_reachable settled_shakes begins reached).each p
    exact ⟨settled.wanted, fun marked => ⟨settled.deferred marked, settled.waiting marked⟩,
      settled.told⟩
  · intro e fault faults
    exact settled_peerKept.fault_allowed settled_shakes begins reached faults

/-- Five pieces of two blocks, of which no data passes its test. -/
def badPieces : Torrent :=
  ⟨5, 16385, [81925], id, Vector.replicate 20 0, Vector.replicate 20 0, fun _ => [7], fun _ => [], 0,
    fun _ => 0⟩

/-- The start with the first block of each piece. -/
def badPiecesStart : Net :=
  Net.create badPieces (startupTestEnd badPieces (fun _ => false) (fun _ i => i == 0) fun _ => 0)

/-- A peer is asked for the rest of the four pieces that it has. -/
def restAsked : List Event :=
  [.shake none, .haveMsg 0 0, .haveMsg 0 1, .haveMsg 0 2, .haveMsg 0 3, .unchoke 0]

theorem informed_of_reachable_restAsked :
    ∃ n, (system badPieces).Reachable confuses n ∧
      ((n.peer 0).nwant = 0 ∧ (n.peer 0).doUnwant = true) ∧
      (∀ p, (n.peer p).Informed) ∧ ∀ e fault, (system badPieces).Faults confuses n e fault →
        fault ∉ Peer.interestFaults := by
  have start : (system badPieces).Reachable confuses badPiecesStart := .start ⟨_, _, _, rfl⟩
  obtain ⟨n, reached, holds⟩ := System.Reachable.of_after
    (P := fun n => (n.peer 0).nwant = 0 ∧ (n.peer 0).doUnwant = true) restAsked start
    (by decide +kernel)
  exact ⟨n, reached, holds, informed_of_reachable reached⟩

/-- Three pieces fail, and the suspect peer announces the last one: it is wanted and still
marked for an UNINTEREST, and the assertion of `peer_on_no_reqs` fails when the last request is
answered. -/
theorem not_informed_of_reachable :
    ¬∀ n, (system badPieces).Reachable (fun _ => False) n →
      (∀ p ∈ n.peers, (n.peer p).Informed) ∧
        ∀ e fault, (system badPieces).Faults (fun _ => False) n e fault →
          fault ∉ Peer.interestFaults := by
  intro claim
  have start : (system badPieces).Reachable (fun _ => False) badPiecesStart :=
    .start ⟨_, _, _, rfl⟩
  obtain ⟨n, e, reached, faults⟩ := System.Reachable.of_outcome
    (restAsked ++ [.piece 0 0 16384 [1], .piece 0 1 16384 [1], .piece 0 2 16384 [1],
      .haveMsg 0 4, .piece 0 3 16384 [1]]) start
    (show (system badPieces).outcome _ _ = some .noReqsWanted by decide +kernel)
  exact (claim n reached).2 e _ faults (by decide)

end Btpd.Download
