import Btpd.Content.Effects

/-!
# Pieces and blocks as places of the whole

Where the pieces of a torrent and their blocks lie when its files are put end to end.
The last piece may be short or empty, and the last block of a piece may be short.
-/

namespace Btpd.Content

open Download (Torrent pieceBlocklen)

/-- What `mi_test` sees to, in exact arithmetic. -/
structure Sized (t : Torrent) : Prop where
  npieces_pos : 0 < t.npieces
  pieceLength_pos : 0 < t.pieceLength
  lower : t.pieceLength * (t.npieces - 1) ≤ t.totalLength
  upper : t.totalLength ≤ t.pieceLength * t.npieces

/-- No piece is larger than the offsets in messages reach. -/
structure Measured (t : Torrent) : Prop extends Sized t where
  small : min t.pieceLength t.totalLength ≤ 2 ^ 32

/-- `torrent_piece_size` -/
def pieceSize (t : Torrent) (i : Nat) : Nat := (t.torrentPieceSize i).toNat

/-- `torrent_block_size` for a block of a piece. -/
def blockSize (t : Torrent) (i b : Nat) : Nat :=
  t.torrentBlockSize i (t.torrentPieceBlocks i) b

/-- A place of the whole is in a piece. -/
def InPiece (t : Torrent) (i o : Nat) : Prop :=
  i * t.pieceLength ≤ o ∧ o < i * t.pieceLength + pieceSize t i

/-- A place of the whole is in a block of a piece. -/
def InBlock (t : Torrent) (i b o : Nat) : Prop :=
  i * t.pieceLength + b * pieceBlocklen ≤ o ∧
    o < i * t.pieceLength + b * pieceBlocklen + blockSize t i b

variable {t : Torrent} {i j b c o : Nat}

theorem pieceBlocklen_pos : 0 < pieceBlocklen := by decide

theorem pieceSize_of_lt (lt : i + 1 < t.npieces) : pieceSize t i = t.pieceLength := by
  unfold pieceSize Torrent.torrentPieceSize
  rw [if_pos lt, Int.toNat_natCast]

theorem Sized.torrentPieceSize_last (sized : Sized t) (last : i + 1 = t.npieces) :
    t.torrentPieceSize i = (t.totalLength - t.pieceLength * i : Nat) := by
  have lower := sized.lower
  rw [← last, Nat.add_sub_cancel] at lower
  unfold Torrent.torrentPieceSize
  rw [if_neg (by omega), ← last]
  push_cast [lower]
  rw [Int.add_sub_cancel]

theorem Sized.pieceSize_last (sized : Sized t) (last : i + 1 = t.npieces) :
    pieceSize t i = t.totalLength - t.pieceLength * i := by
  rw [pieceSize, sized.torrentPieceSize_last last, Int.toNat_natCast]

/-- The size of a piece is not negative. -/
theorem Sized.torrentPieceSize_eq (sized : Sized t) (lt : i < t.npieces) :
    t.torrentPieceSize i = pieceSize t i := by
  rcases Nat.lt_or_ge (i + 1) t.npieces with inner | last
  · rw [pieceSize_of_lt inner, Torrent.torrentPieceSize, if_pos inner]
  · have last : i + 1 = t.npieces := Nat.le_antisymm lt last
    rw [sized.pieceSize_last last, sized.torrentPieceSize_last last]

theorem Sized.pieceSize_le (sized : Sized t) (lt : i < t.npieces) :
    pieceSize t i ≤ t.pieceLength := by
  rcases Nat.lt_or_ge (i + 1) t.npieces with inner | last
  · exact Nat.le_of_eq (pieceSize_of_lt inner)
  · have last : i + 1 = t.npieces := Nat.le_antisymm lt last
    have upper := sized.upper
    rw [← last, Nat.mul_add, Nat.mul_one] at upper
    rw [sized.pieceSize_last last]
    omega

/-- The pieces put end to end are the whole. -/
theorem sum_pieceSize (le : i < t.npieces) :
    ((List.range i).map (pieceSize t)).sum = t.pieceLength * i := by
  induction i with
  | zero => rfl
  | succ i ih =>
      rw [List.range_succ, List.map_append, List.sum_append, ih (Nat.lt_of_succ_lt le),
        List.map_singleton, List.sum_singleton, pieceSize_of_lt le, Nat.mul_add, Nat.mul_one]

theorem Sized.sum_pieceSize_eq (sized : Sized t) :
    ((List.range t.npieces).map (pieceSize t)).sum = t.totalLength := by
  obtain ⟨i, eq⟩ := Nat.exists_eq_succ_of_ne_zero (Nat.ne_of_gt sized.npieces_pos)
  have lower := sized.lower
  rw [eq, Nat.succ_sub_one] at lower
  rw [eq, List.range_succ, List.map_append, List.sum_append,
    sum_pieceSize (eq ▸ Nat.lt_succ_self i), List.map_singleton, List.sum_singleton,
    sized.pieceSize_last eq.symm, Nat.add_sub_cancel' lower]

/-- A piece ends within the whole. -/
theorem Sized.piece_le (sized : Sized t) (lt : i < t.npieces) :
    i * t.pieceLength + pieceSize t i ≤ t.files.sum := by
  have lower : t.pieceLength * (t.npieces - 1) ≤ t.files.sum := sized.lower
  rcases Nat.lt_or_ge (i + 1) t.npieces with inner | last
  · have le : t.pieceLength * (i + 1) ≤ t.pieceLength * (t.npieces - 1) :=
      Nat.mul_le_mul_left _ (by omega)
    rw [pieceSize_of_lt inner, Nat.mul_comm i, ← Nat.mul_succ]
    exact Nat.le_trans le lower
  · have last : i + 1 = t.npieces := Nat.le_antisymm lt last
    have total : t.totalLength = t.files.sum := rfl
    rw [← last, Nat.add_sub_cancel] at lower
    rw [sized.pieceSize_last last, Nat.mul_comm i, total]
    exact Nat.le_of_eq (Nat.add_sub_cancel' lower)

/-- A place is in one piece only. -/
theorem Sized.inPiece_iff (sized : Sized t) (lt : i < t.npieces) (within : o < t.files.sum) :
    InPiece t i o ↔ o / t.pieceLength = i := by
  have positive := sized.pieceLength_pos
  unfold InPiece
  rw [Nat.div_eq_iff positive, Nat.mul_comm i]
  have le := sized.pieceSize_le lt
  constructor
  · rintro ⟨lower, upper⟩
    exact ⟨lower, by omega⟩
  · rintro ⟨lower, upper⟩
    refine ⟨lower, ?_⟩
    rcases Nat.lt_or_ge (i + 1) t.npieces with inner | last
    · rw [pieceSize_of_lt inner]
      omega
    · have last : i + 1 = t.npieces := Nat.le_antisymm lt last
      have total : t.totalLength = t.files.sum := rfl
      rw [sized.pieceSize_last last]
      omega

theorem Sized.inPiece_unique (sized : Sized t) (lt : i < t.npieces) (lt' : j < t.npieces)
    (inside : InPiece t i o) (inside' : InPiece t j o) : i = j := by
  have within : o < t.files.sum := Nat.lt_of_lt_of_le inside.2 (sized.piece_le lt)
  rw [sized.inPiece_iff lt within] at inside
  rw [sized.inPiece_iff lt' within] at inside'
  exact inside.symm.trans inside'

/-! ## Blocks -/

theorem Sized.blocks_eq (sized : Sized t) (lt : i < t.npieces) :
    t.torrentPieceBlocks i = (pieceSize t i + (pieceBlocklen - 1)) / pieceBlocklen := by
  unfold Torrent.torrentPieceBlocks
  rw [sized.torrentPieceSize_eq lt]
  rfl

theorem Sized.lt_blocks_iff (sized : Sized t) (lt : i < t.npieces) :
    b < t.torrentPieceBlocks i ↔ b * pieceBlocklen < pieceSize t i := by
  rw [sized.blocks_eq lt, Nat.lt_div_iff_mul_lt pieceBlocklen_pos, Nat.add_sub_cancel]

/-- A block is a full one, or reaches to the end of its piece. -/
theorem Sized.blockSize_eq (sized : Sized t) (lt : i < t.npieces)
    (block : b < t.torrentPieceBlocks i) :
    blockSize t i b = min pieceBlocklen (pieceSize t i - b * pieceBlocklen) := by
  have start := (sized.lt_blocks_iff lt).mp block
  unfold blockSize Torrent.torrentBlockSize
  rcases Nat.lt_or_ge (b + 1) (t.torrentPieceBlocks i) with inner | last
  · have next := (sized.lt_blocks_iff lt).mp inner
    rw [if_pos inner]
    rw [Nat.add_mul, Nat.one_mul] at next
    omega
  · have beyond := mt (sized.lt_blocks_iff lt).mpr (Nat.not_lt.mpr last)
    have blocks : t.torrentPieceBlocks i = b + 1 := Nat.le_antisymm last block
    rw [if_neg (Nat.not_lt.mpr last), blocks, sized.torrentPieceSize_eq lt]
    rw [Nat.add_mul, Nat.one_mul] at beyond
    unfold pieceBlocklen at start beyond ⊢
    omega

theorem Sized.blockSize_pos (sized : Sized t) (lt : i < t.npieces)
    (block : b < t.torrentPieceBlocks i) : 0 < blockSize t i b := by
  have start := (sized.lt_blocks_iff lt).mp block
  have positive := pieceBlocklen_pos
  rw [sized.blockSize_eq lt block]
  omega

theorem Sized.block_le (sized : Sized t) (lt : i < t.npieces)
    (block : b < t.torrentPieceBlocks i) :
    b * pieceBlocklen + blockSize t i b ≤ pieceSize t i := by
  have start := (sized.lt_blocks_iff lt).mp block
  rw [sized.blockSize_eq lt block]
  omega

theorem Sized.inPiece_of_inBlock (sized : Sized t) (lt : i < t.npieces)
    (block : b < t.torrentPieceBlocks i) (inside : InBlock t i b o) : InPiece t i o := by
  have le := sized.block_le lt block
  exact ⟨Nat.le_trans (Nat.le_add_right _ _) inside.1, by
    have upper := inside.2
    omega⟩

/-- A place is in one block of a piece only. -/
theorem Sized.inBlock_unique (sized : Sized t) (lt : i < t.npieces)
    (block : b < t.torrentPieceBlocks i) (block' : c < t.torrentPieceBlocks i)
    (inside : InBlock t i b o) (inside' : InBlock t i c o) : b = c := by
  have size : blockSize t i b ≤ pieceBlocklen := by
    rw [sized.blockSize_eq lt block]
    exact Nat.min_le_left ..
  have size' : blockSize t i c ≤ pieceBlocklen := by
    rw [sized.blockSize_eq lt block']
    exact Nat.min_le_left ..
  unfold InBlock at inside inside'
  have first : b * pieceBlocklen < (c + 1) * pieceBlocklen := by
    rw [Nat.add_mul, Nat.one_mul]
    omega
  have second : c * pieceBlocklen < (b + 1) * pieceBlocklen := by
    rw [Nat.add_mul, Nat.one_mul]
    omega
  have le := Nat.lt_of_mul_lt_mul_right first
  have ge := Nat.lt_of_mul_lt_mul_right second
  omega

/-- The blocks of a piece put end to end are the piece. -/
theorem Sized.sum_blockSize (sized : Sized t) (lt : i < t.npieces) :
    ((List.range (t.torrentPieceBlocks i)).map (blockSize t i)).sum = pieceSize t i := by
  have upto : ∀ n ≤ t.torrentPieceBlocks i,
      ((List.range n).map (blockSize t i)).sum = min (n * pieceBlocklen) (pieceSize t i) := by
    intro n
    induction n with
    | zero => intro _; simp
    | succ n ih =>
        intro le
        have start := (sized.lt_blocks_iff lt).mp le
        rw [List.range_succ, List.map_append, List.sum_append, ih (Nat.le_of_succ_le le),
          List.map_singleton, List.sum_singleton, sized.blockSize_eq lt le, Nat.add_mul,
          Nat.one_mul]
        omega
  rw [upto _ (Nat.le_refl _)]
  have beyond := mt (sized.lt_blocks_iff lt).mpr (Nat.lt_irrefl _)
  exact Nat.min_eq_right (Nat.not_lt.mp beyond)

end Btpd.Content
