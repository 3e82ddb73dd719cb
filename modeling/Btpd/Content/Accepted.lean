import Btpd.Content.Layout
import Btpd.Content.Machine
import Btpd.Metainfo.Lengths
import Mathlib

/-!
# Torrents that have been accepted

A torrent that `mi_test` accepts has the sizes that the content code relies on, unless the
comparison of its lengths has wrapped; and as long as no piece is too large, the numbers of
its blocks are those that `torrent.c` computes by way of a `double`.
-/

namespace Btpd.Content

open Download (Torrent pieceBlocklen)
open Metainfo (miTest Numbers)

variable {t : Torrent} {i b : Nat}

/-! ## `mi_test` -/

/-- A total that has passed the comparison in words is between the bounds, when it has as many
words below it as the lower one. -/
theorem bounds_of_word {a n total : Int} (positive : 0 < n)
    (low : a % 2 ^ 64 ≤ total % 2 ^ 64) (high : total % 2 ^ 64 ≤ (a + n) % 2 ^ 64)
    (word : total / 2 ^ 64 = a / 2 ^ 64) : a ≤ total ∧ total ≤ a + n := by
  omega

/-- The torrent has the numbers of a metainfo file. -/
structure Loaded (t : Torrent) (npieces : Nat) (pieceLength : Int) (lengths : List Int) :
    Prop where
  npieces : t.npieces = npieces
  pieceLength : (t.pieceLength : Int) = pieceLength
  files : t.files.map Nat.cast = lengths

theorem Loaded.totalLength {npieces : Nat} {pieceLength : Int} {lengths : List Int}
    (loaded : Loaded t npieces pieceLength lengths) : (t.totalLength : Int) = lengths.sum := by
  rw [← loaded.files, Torrent.totalLength, Nat.cast_list_sum]

/-- An accepted torrent is sized when no multiple of the word size lies between its total and
the size of all pieces but the last. -/
theorem sized_of_miTest {buffer : Benc.Buffer} {fuel : Nat}
    (accepts : miTest buffer fuel = .ok true) :
    ∃ npieces pieceLength lengths, Numbers buffer fuel npieces pieceLength lengths ∧
      (lengths.sum / 2 ^ 64 = (npieces - 1) * pieceLength / 2 ^ 64 →
        ∀ t, Loaded t npieces pieceLength lengths → Sized t) := by
  obtain ⟨accepted⟩ := Metainfo.exists_accepted accepts
  obtain ⟨lengths, lengthsEq, -, lengthEq⟩ := accepted.exists_lengths
  refine ⟨accepted.slen / 20, accepted.pieceLength, lengths,
    ⟨accepted.miNpieces_eq, accepted.miPieceLength_eq, lengthsEq⟩, fun word t loaded => ?_⟩
  have positive := accepted.pieceLength_pos
  have tested := accepted.totalTested
  rw [← Metainfo.testTotal_toOff, lengthEq, Metainfo.testTotal_toOff] at tested
  have some := Metainfo.npieces_pos_of_testTotal positive accepted.pieceLength_lt tested
  obtain ⟨low, high⟩ := Metainfo.testTotal_iff.mp tested
  have next : ((accepted.slen / 20 : Nat) : Int) * accepted.pieceLength =
      (((accepted.slen / 20 : Nat) : Int) - 1) * accepted.pieceLength + accepted.pieceLength := by
    ring
  rw [next] at high
  obtain ⟨lower, upper⟩ := bounds_of_word positive low high word
  rw [← next] at upper
  rw [← loaded.totalLength, ← loaded.pieceLength, ← loaded.npieces] at lower upper
  rw [← loaded.npieces] at some
  rw [← loaded.pieceLength] at positive
  refine ⟨some, Int.natCast_pos.mp positive, ?_, ?_⟩
  · have pred : ((t.npieces - 1 : Nat) : Int) = t.npieces - 1 := Int.natCast_pred_of_pos some
    rw [← pred, Int.mul_comm] at lower
    exact_mod_cast lower
  · rw [Int.mul_comm] at upper
    exact_mod_cast upper

/-! ## Machine arithmetic -/

/-- The torrent as `torrent.c` computes with it. -/
def machine (t : Torrent) : Machine.Torrent := ⟨t.totalLength, t.pieceLength, t.npieces⟩

/-- The numbers of the torrent fit an `off_t` and a `uint32_t`. -/
structure Fits (t : Torrent) : Prop extends Measured t where
  total : t.totalLength < 2 ^ 63
  pieces : t.npieces < 2 ^ 32

namespace Fits

variable (fits : Fits t)

include fits

theorem torrentPieceSize_eq (lt : i < t.npieces) :
    (machine t).torrentPieceSize i = t.torrentPieceSize i := by
  have some := fits.npieces_pos
  have pred : Machine.toU32 (((machine t).npieces : Int) - 1) = t.npieces - 1 :=
    Machine.toU32_pred some fits.pieces
  unfold Machine.Torrent.torrentPieceSize
  rw [pred]
  rcases Nat.lt_or_ge (i + 1) t.npieces with inner | last
  · rw [if_pos (Nat.lt_sub_of_add_lt inner), Torrent.torrentPieceSize, if_pos inner]
    rfl
  · have last : i + 1 = t.npieces := Nat.le_antisymm lt last
    have lower := fits.lower
    have total := fits.total
    rw [if_neg (by omega), fits.torrentPieceSize_last last]
    have index : t.npieces - 1 = i := by omega
    rw [index] at lower ⊢
    have product : (machine t).pieceLength * (i : Int) = (t.pieceLength * i : Nat) := by
      push_cast
      rfl
    rw [product, Machine.toOff_of_fits (n := (t.pieceLength * i : Nat)) (by omega) (by omega)]
    show Metainfo.toOff ((t.totalLength : Int) - _) = _
    rw [Machine.toOff_of_fits (by omega) (by omega), Int.natCast_sub lower]

theorem size_eq (lt : i < t.npieces) : (machine t).torrentPieceSize i = pieceSize t i :=
  (fits.torrentPieceSize_eq lt).trans (Sized.torrentPieceSize_eq fits.toSized lt)

theorem pieceSize_le_small (lt : i < t.npieces) : pieceSize t i ≤ 2 ^ 32 := by
  have small := fits.small
  have shorter := fits.pieceSize_le lt
  have within := fits.piece_le lt
  have total : t.totalLength = t.files.sum := rfl
  omega

/-- The conversions lose nothing. -/
theorem torrentPieceBlocks_eq (lt : i < t.npieces) :
    (machine t).torrentPieceBlocks i = some (t.torrentPieceBlocks i) := by
  have small := fits.pieceSize_le_small lt
  have size := fits.size_eq lt
  rw [fits.blocks_eq lt]
  unfold Machine.Torrent.torrentPieceBlocks Machine.doubleToU32 Machine.ceilDiv
    Machine.PIECE_BLOCKLEN pieceBlocklen
  rw [size, Machine.toDouble_of_lt (Int.natCast_nonneg _) (by omega), if_pos (by omega)]
  congr 1
  omega

theorem torrentBlockSize_eq (lt : i < t.npieces) (block : b < t.torrentPieceBlocks i) :
    (machine t).torrentBlockSize i (t.torrentPieceBlocks i) b = blockSize t i b := by
  have small := fits.pieceSize_le_small lt
  have size := fits.size_eq lt
  have start := (fits.lt_blocks_iff lt).mp block
  have positive : 0 < (machine t).torrentPieceSize i := by omega
  rw [fits.blockSize_eq lt block,
    Machine.Torrent.torrentBlockSize_eq positive (by omega) ?_ block, size, Int.toNat_natCast]
  · rfl
  · rw [fits.blocks_eq lt, size, Int.toNat_natCast]
    rfl

/-- A request names the place of its block. -/
theorem requestStart_eq (lt : i < t.npieces) (block : b < t.torrentPieceBlocks i) :
    Machine.Torrent.requestStart b = b * pieceBlocklen := by
  have small := fits.pieceSize_le_small lt
  have start := (fits.lt_blocks_iff lt).mp block
  unfold pieceBlocklen at start
  exact Machine.Torrent.requestStart_eq (by omega)

end Fits

end Btpd.Content
