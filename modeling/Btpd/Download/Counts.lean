import Btpd.Download.Peers

/-!
# Counting the pieces of the peers

The index of a HAVE message comes from the peer unchecked.  As long as no HAVE
names a piece beyond the torrent, every peer counts the pieces it has,
`piece_count` counts the peers that have a piece, and no cell outside the arrays
is touched.
-/

namespace Btpd.Download

open Prog

/-- A HAVE message names a piece beyond the torrent. -/
def haveBeyond (t : Torrent) (c : Call Net Fn) : Prop :=
  match c.fn with
  | .peerOnHave _ index => t.npieces ≤ index
  | _ => False

/-- The promise that the arrays of pieces are not left, voided by a HAVE beyond
the torrent. -/
def boundsContract (t : Torrent) : Contract Net Fn Fault :=
  ⟨haveBeyond t, (· ∉ [.fieldBounds, .pieceBounds])⟩

variable {t : Torrent} {n : Net}

/-- A routine of a single peer leaves no array of pieces. -/
theorem Peer.Tame.bounds {α : Type} {x : Except Fault α} {post : α → Prop}
    (tame : Peer.Tame x post) : Ends (boundsContract t).allowed x fun _ => True := by
  refine ends_allow (ends_mono tame fun _ _ => trivial) fun e mem => ?_
  have peerFault : ∀ e ∈ Peer.peerFaults, e ∉ [Fault.fieldBounds, Fault.pieceBounds] := by decide
  exact peerFault e mem

/-- Nothing more is asked of a peer: what `Base` says holds on every run. -/
theorem bounds_peerKept (t : Torrent) :
    PeerKept t (boundsContract t) ((system t).Reachable (haveBeyond t)) (fun _ _ => True)
      fun _ _ => True where
  control := by
    show ∀ e ∈ controlFaults, e ∉ [Fault.fieldBounds, Fault.pieceBounds]
    decide
  bounded _ _ _ _ beyond := .inl beyond
  want _ _ _ _ _ := .inr Peer.want_samePieces.bounds
  unwant _ _ := Peer.unwant_samePieces.bounds
  request _ _ _ := Peer.request_samePieces.bounds
  cancel _ _ _ _ _ := Peer.cancel_samePieces.bounds
  loosen _ := trivial
  unlink _ _ := Peer.unlink_samePieces.bounds
  tighten _ := Peer.checkNoReqs_core.bounds
  badPiece _ _ := Peer.badPiece_samePieces.bounds
  goodPiece _ _ _ _ _ := .inr Peer.goodPiece_samePieces.bounds
  ban _ := trivial
  announce _ _ _ := by
    split
    · trivial
    · exact Peer.send_core.bounds
  missed _ _ _ := trivial
  leave _ := trivial
  pWant _ _ := trivial
  pChoke _ _ := trivial
  field _ _ _ := trivial
  setBit _ _ _ := trivial
  count _ _ := trivial
  unsendRequests _ _ := (Peer.unsendRequests_core _).bounds
  keepalive _ := Peer.send_core.bounds
  choke _ := Peer.choke_core.bounds
  unchoke _ := Peer.send_core.bounds
  onRequest _ _ _ _ _ _ _ _ _ _ _ _ := .inr Peer.onRequest_core.bounds
  onCancel _ _ _ _ := Peer.onCancel_core.bounds
  write _ _ _ _ _ _ := Peer.netWrite_core.bounds

theorem bounds_shakes : Shakes t (boundsContract t) fun _ _ => True :=
  fun _ _ _ _ => Peer.onShake_samePieces.bounds

/-- In every run whose HAVE messages name pieces of the torrent, each attached
peer counts its pieces, `piece_count` counts the peers with a piece and does not
underflow when one is lost, and no event leaves the arrays of pieces. -/
theorem pieces_counted (reached : (system t).Reachable (haveBeyond t) n) :
    (∀ p ∈ n.peers,
      (n.peer p).npieces = (List.range t.npieces).countP (n.peer p).pieceField) ∧
    (∀ i < t.npieces, n.pieceCount i = n.peers.countP fun p => (n.peer p).pieceField i) ∧
    (∀ p ∈ n.peers, ∀ i < t.npieces, (n.peer p).pieceField i = true → 0 < n.pieceCount i) ∧
    ∀ e fault, (system t).Faults (haveBeyond t) n e fault →
      fault ≠ .fieldBounds ∧ fault ≠ .pieceBounds := by
  have base := ((bounds_peerKept t).of_reachable bounds_shakes (fun _ _ => trivial) reached).toBase
  have counts : ∀ i < t.npieces,
      n.pieceCount i = n.peers.countP fun p => (n.peer p).pieceField i := by
    intro i inside
    rw [base.pieceCount i inside]
    refine List.countP_congr fun p _ => ?_
    simp [Peer.hasUpto, everything, inside]
  refine ⟨fun p mem => ?_, counts, fun p mem i inside has => ?_, fun e fault faults => ?_⟩
  · rw [base.npieces p mem]
    refine List.countP_congr fun i inside => ?_
    simp [Peer.hasUpto, everything, List.mem_range.mp inside]
  · rw [counts i inside]
    exact List.countP_pos_iff.mpr ⟨p, mem, has⟩
  · have allowed := (bounds_peerKept t).fault_allowed bounds_shakes (fun _ _ => trivial)
      reached faults
    exact ⟨fun same => allowed (by simp [same]), fun same => allowed (by simp [same])⟩

/-- A torrent of nine pieces. -/
def ninePieces : Torrent where
  npieces := 9
  pieceLength := 4
  files := [36]
  inode := id
  hash := Vector.replicate 20 0
  peerId := Vector.replicate 20 1
  pieceHash := fun _ => []
  sha1 := fun data => data
  cmAllocSize := 0
  random := fun _ => 0

/-- The torrent of nine pieces with the pieces of `held`, just started. -/
def ninePieces.started (held : Nat → Bool) : Net :=
  Net.create ninePieces (startupTestEnd ninePieces held (fun _ _ => false) fun _ => 0)

theorem ninePieces.start (held : Nat → Bool) :
    (system ninePieces).start (ninePieces.started held) :=
  ⟨held, _, _, rfl⟩

instance (t : Torrent) : DecidablePred (haveBeyond t) := fun c => by
  unfold haveBeyond
  split <;> infer_instance

theorem pieces_counted_ninePieces : ∃ n, (0 ∈ n.peers ∧ n.pieceCount 8 = 1) ∧
    (∀ p ∈ n.peers, (n.peer p).npieces =
      (List.range ninePieces.npieces).countP (n.peer p).pieceField) ∧
    (∀ i < ninePieces.npieces,
      n.pieceCount i = n.peers.countP fun p => (n.peer p).pieceField i) ∧
    (∀ p ∈ n.peers, ∀ i < ninePieces.npieces,
      (n.peer p).pieceField i = true → 0 < n.pieceCount i) ∧
    ∀ e fault, (system ninePieces).Faults (haveBeyond ninePieces) n e fault →
      fault ≠ .fieldBounds ∧ fault ≠ .pieceBounds := by
  obtain ⟨n, reached, counted⟩ : ∃ n,
      (system ninePieces).Reachable (haveBeyond ninePieces) n ∧
        0 ∈ n.peers ∧ n.pieceCount 8 = 1 :=
    System.Reachable.of_after [.shake none, .haveMsg 0 8] (.start (ninePieces.start fun _ => false))
      (by decide +kernel)
  exact ⟨n, counted, pieces_counted reached⟩

/-- The first HAVE beyond the torrent touches a cell outside `piece_count`. -/
theorem not_pieces_counted : ∃ n e,
    (system ninePieces).Reachable (fun _ => False) n ∧
      (system ninePieces).Faults (fun _ => False) n e .pieceBounds :=
  System.Reachable.of_outcome [.shake none, .haveMsg 0 9]
    (.start (ninePieces.start fun _ => false)) (by decide +kernel)

end Btpd.Download
