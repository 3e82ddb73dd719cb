import Btpd.Download.Events
import Btpd.Wire.RoundTrip
import Mathlib

/-!
# The buffers that the download code queues

In the queue of a peer a buffer is known by what it carries.  The bytes that go out for it
are those that `net_buf.c` writes into the buffer.
-/

namespace Btpd.Wire

open Download (encBe32 fieldByte haveBytes shakeBytes multihavePieces)

variable {t : Download.Torrent} {pieces : List Nat} {fuel : Nat}

/-- The call that creates a buffer of the queue, when the piece field of the content is
`held`. -/
def nbCreate (t : Download.Torrent) (held : Nat → Bool) (fuel : Nat) :
    Download.NetBuf → Option NetBuf
  | .choke => some nbCreateChoke
  | .unchoke => some nbCreateUnchoke
  | .interest => some nbCreateInterest
  | .uninterest => some nbCreateUninterest
  | .haveMsg index => some (nbCreateHave index)
  | .bitfield => some (nbCreateBitfield t.npieces)
  | .request msg => some (nbCreateRequest msg.index msg.begin msg.length)
  | .piece index begin length => some (nbCreatePiece index begin length)
  | .cancel index begin length => some (nbCreateCancel index begin length)
  | .torrentData data => some (nbTorrentdata (data.getD []))
  | .multihave pieces =>
      nbCreateMultihave fuel (fun i => decide (i ∈ pieces)) pieces.length
  | .bitdata nbytes _ =>
      some (nbCreateBitdata t.npieces ((List.range nbytes).map (fieldByte held)))
  | .shake => some (nbCreateShake t.hash.toList t.peerId.toList)
  | .keepalive => some nbCreateKeepalive

/-- What the buffers of the queue have in common with the torrent: a multihave names pieces in
their order, and a bit field is as long as the torrent needs it. -/
def Suits (t : Download.Torrent) : Download.NetBuf → Prop
  | .multihave pieces => pieces.Sublist (List.range t.npieces)
  | .bitdata nbytes _ => nbytes = t.fieldBytes
  | _ => True

/-! ## The pieces of a multihave -/

/-- In a list without repetitions the elements of a sublist come in its order. -/
theorem filter_mem_of_sublist {α : Type} [DecidableEq α] {l l' : List α} (nodup : l.Nodup)
    (sublist : l'.Sublist l) : l.filter (fun a => decide (a ∈ l')) = l' := by
  induction sublist with
  | slnil => rfl
  | @cons l' l a sublist ih =>
      have outside : a ∉ l' := fun mem =>
        (List.nodup_cons.mp nodup).1 (sublist.subset mem)
      rw [List.filter_cons_of_neg (by simpa using outside)]
      exact ih (List.nodup_cons.mp nodup).2
  | @cons_cons l' l a sublist ih =>
      have fresh := List.nodup_cons.mp nodup
      rw [List.filter_cons_of_pos (by simp)]
      congr 1
      refine Eq.trans (List.filter_congr fun b mem => ?_) (ih fresh.2)
      have other : b ≠ a := fun same => fresh.1 (same ▸ mem)
      simp [other]

theorem haves_eq (pieces : List Nat) : haves pieces = pieces.flatMap haveBytes := rfl

theorem multihave_bytes (suits : pieces.Sublist (List.range t.npieces)) (enough : t.npieces < fuel)
    (small : 9 * t.npieces < 2 ^ 32) :
    nbCreateMultihave fuel (fun i => decide (i ∈ pieces)) pieces.length =
      some ⟨.multihave, pieces.flatMap haveBytes⟩ := by
  have same := filter_mem_of_sublist List.nodup_range suits
  have count : cmPieces t.npieces (fun i => decide (i ∈ pieces)) = pieces.length := by
    rw [cmPieces, same]
  rw [← count, nbCreateMultihave_eq _ enough small, held, same, haves_eq]

/-! ## The bytes -/

theorem shake_bytes (t : Download.Torrent) :
    (nbCreateShake t.hash.toList t.peerId.toList).buf = shakeBytes t := by
  rw [nbCreateShake_eq t.hash.length_toList t.peerId.length_toList, shakeBytes]
  simp only [List.append_assoc]
  rfl

/-- A buffer of the queue is created with the bytes that go out for it. -/
theorem bytes_of_nbCreate {nb : Download.NetBuf} (held : Nat → Bool) (suits : Suits t nb)
    (enough : t.npieces < fuel) (small : 9 * t.npieces < 2 ^ 32) :
    (nbCreate t held fuel nb).map NetBuf.buf = some (nb.bytes t held) := by
  cases nb with
  | multihave pieces => rw [nbCreate, multihave_bytes suits enough small]; rfl
  | shake => exact congrArg some (shake_bytes t)
  | bitdata nbytes named =>
      have whole : (List.range nbytes).length ≤ Input.fieldBytes t.npieces := by
        rw [List.length_range]
        exact Nat.le_of_eq suits
      refine congrArg some (List.take_of_length_le ?_)
      rw [List.length_map]
      exact whole
  | _ => rfl

/-- The pieces that `nb_create_multihave` names are of this kind. -/
theorem suits_multihavePieces (t : Download.Torrent) (n : Download.Net) :
    Suits t (.multihave (multihavePieces t n)) :=
  (List.take_sublist _ _).trans List.filter_sublist

/-- As long as the content counts its pieces right, the buffer is the one that
`nb_create_multihave` makes of `cm_has_piece` and `cm_pieces`. -/
theorem nbCreate_multihavePieces {n : Download.Net} (held' : Nat → Bool)
    (counted : n.cm.npiecesGot = (List.range t.npieces).countP n.cm.pieceField)
    (enough : t.npieces < fuel) (small : 9 * t.npieces < 2 ^ 32) :
    nbCreate t held' fuel (.multihave (multihavePieces t n)) =
      nbCreateMultihave fuel n.cm.pieceField n.cm.npiecesGot := by
  have all : multihavePieces t n = held n.cm.pieceField t.npieces := by
    rw [multihavePieces, counted, List.countP_eq_length_filter, List.take_length]
    rfl
  have count : n.cm.npiecesGot = cmPieces t.npieces n.cm.pieceField :=
    counted.trans List.countP_eq_length_filter
  rw [nbCreate, multihave_bytes (suits_multihavePieces t n) enough small, count,
    nbCreateMultihave_eq _ enough small, all, haves_eq]

end Btpd.Wire
