import Btpd.Metainfo.Extract
import Mathlib

/-!
# The sizes of pieces and blocks in machine arithmetic

`torrent.c`, `content.c` and `download_subr.c` compute with `off_t`, with
`uint32_t` and with `double`.  Lengths are rounded when they become a `double`,
quotients by powers of two are exact, and a `double` that a `uint32_t` cannot
hold has no value.

A piece is cut into its blocks, with offsets that the wire can carry, as long as
no piece is larger than `2 ^ 32` bytes.  Nothing in `mi_test` sees to that.
-/

namespace Btpd.Machine

open Btpd.Metainfo (toOff)

/-! ## Conversions -/

/-- Conversion to `uint32_t`. -/
def toU32 (n : Int) : Nat := (n % 2 ^ 32).toNat

/-- A number of at least 53 bits as a `double`: the nearest multiple of a power
of two, the even one of two that are as near. -/
def roundBits (n : Nat) : Nat :=
  let unit := 2 ^ (Nat.log2 n - 52)
  let low := n / unit
  let rest := 2 * (n % unit)
  (if rest < unit ∨ (rest = unit ∧ low % 2 = 0) then low else low + 1) * unit

/-- Conversion of an `off_t` to `double`. -/
def toDouble (n : Int) : Int :=
  if n.natAbs < 2 ^ 53 then n else n.sign * roundBits n.natAbs

/-- `ceil(x / d)` for a `double` and a power of two. -/
def ceilDiv (x d : Int) : Int := -((-x) / d)

/-- Conversion of an integral `double` to `uint32_t`, which is not defined for
what that cannot hold. -/
def doubleToU32 (x : Int) : Option Nat :=
  if 0 ≤ x ∧ x < 2 ^ 32 then some x.toNat else none

/-! ## The functions of the source -/

/-- `PIECE_BLOCKLEN` -/
def PIECE_BLOCKLEN : Nat := 2 ^ 14

/-- The fields of `struct torrent` that describe its layout. -/
structure Torrent where
  totalLength : Int
  pieceLength : Int
  npieces : Nat
  deriving DecidableEq, Repr

namespace Torrent

variable (tp : Torrent)

/-- `torrent_piece_size(tp, index)` -/
def torrentPieceSize (index : Nat) : Int :=
  if index < toU32 ((tp.npieces : Int) - 1) then
    tp.pieceLength
  else
    let allbutlast := toOff (tp.pieceLength * toU32 ((tp.npieces : Int) - 1))
    toOff (tp.totalLength - allbutlast)

/-- `torrent_piece_blocks(tp, piece)` -/
def torrentPieceBlocks (piece : Nat) : Option Nat :=
  doubleToU32 (ceilDiv (toDouble (tp.torrentPieceSize piece)) PIECE_BLOCKLEN)

/-- `torrent_block_size(tp, piece, nblocks, block)` -/
def torrentBlockSize (piece nblocks block : Nat) : Nat :=
  if block < toU32 ((nblocks : Int) - 1) then
    PIECE_BLOCKLEN
  else
    let allbutlast := toU32 (PIECE_BLOCKLEN * toU32 ((nblocks : Int) - 1))
    toU32 (tp.torrentPieceSize piece - allbutlast)

/-- `start` in `dl_new_request` -/
def requestStart (block : Nat) : Nat := toU32 (block * PIECE_BLOCKLEN)

/-- `cm->bppbf` as `cm_create` sets it. -/
def bppbf : Nat := (ceilDiv (toDouble tp.pieceLength) (2 ^ 17)).toNat

/-- `cm_get_block_field(tp, piece) - cm->block_field` -/
def cmGetBlockField (piece : Nat) : Nat := (piece * tp.bppbf) % 2 ^ 64

/-- What `mi_test` and the types of the fields see to. -/
structure Accepted : Prop where
  pieceLength_pos : 0 < tp.pieceLength
  pieceLength_fits : tp.pieceLength < 2 ^ 63
  totalLength_fits : tp.totalLength < 2 ^ 63
  npieces_pos : 0 < tp.npieces
  npieces_fits : tp.npieces < 2 ^ 32
  lower : (tp.npieces - 1) * tp.pieceLength < tp.totalLength
  upper : tp.totalLength ≤ tp.npieces * tp.pieceLength

/-- The blocks of a piece partition it, and the wire carries their offsets. -/
structure Partitioned (piece nblocks : Nat) : Prop where
  count : tp.torrentPieceBlocks piece = some nblocks
  sizes : ∀ block < nblocks, 0 < tp.torrentBlockSize piece nblocks block ∧
    tp.torrentBlockSize piece nblocks block ≤ PIECE_BLOCKLEN
  starts : ∀ block < nblocks, requestStart block = block * PIECE_BLOCKLEN
  inside : ∀ block < nblocks, ((block * PIECE_BLOCKLEN +
    tp.torrentBlockSize piece nblocks block : Nat) : Int) ≤ tp.torrentPieceSize piece
  covers : ∀ offset : Nat, (offset : Int) < tp.torrentPieceSize piece →
    ∃! block, block < nblocks ∧ block * PIECE_BLOCKLEN ≤ offset ∧
      offset < block * PIECE_BLOCKLEN + tp.torrentBlockSize piece nblocks block

/-- The bits of a piece fit its slice of the block field, and the slices of two
pieces have no byte in common. -/
structure Sliced : Prop where
  fits : ∀ piece < tp.npieces, ∀ nblocks, tp.torrentPieceBlocks piece = some nblocks →
    nblocks ≤ 8 * tp.bppbf
  apart : ∀ first < tp.npieces, ∀ second < tp.npieces, first ≠ second →
    ∀ i < tp.bppbf, ∀ j < tp.bppbf,
      tp.cmGetBlockField first + i ≠ tp.cmGetBlockField second + j

/-- The pieces put together are the whole, each is cut into its blocks, and the
block fields are apart. -/
structure LaidOut : Prop where
  total : ((List.range tp.npieces).map tp.torrentPieceSize).sum = tp.totalLength
  pieces : ∀ piece < tp.npieces, ∃ nblocks, tp.Partitioned piece nblocks
  fields : tp.Sliced

end Torrent

/-! ## Rounding -/

theorem toU32_pred {n : Nat} (positive : 0 < n) (small : n < 2 ^ 32) :
    toU32 ((n : Int) - 1) = n - 1 := by
  unfold toU32
  omega

theorem toOff_of_fits {n : Int} (low : -2 ^ 63 ≤ n) (high : n < 2 ^ 63) : toOff n = n := by
  unfold toOff
  omega

theorem roundBits_bounds {n : Nat} (large : 2 ^ 53 ≤ n) :
    2 ^ 53 ≤ roundBits n ∧ roundBits n ≤ 2 * n := by
  have nonzero : n ≠ 0 := by omega
  have exponent : 53 ≤ Nat.log2 n := (Nat.le_log2 nonzero).mpr large
  obtain ⟨k, kEq⟩ : ∃ k, Nat.log2 n = k + 1 + 52 := ⟨Nat.log2 n - 53, by omega⟩
  have whole : 2 ^ (k + 1 + 52) ≤ n := by
    rw [← kEq]
    exact Nat.log2_self_le nonzero
  have unitPos : 0 < 2 ^ (k + 1) := Nat.two_pow_pos _
  have lowLarge : 2 ^ 52 ≤ n / 2 ^ (k + 1) := by
    rw [Nat.le_div_iff_mul_le unitPos, ← Nat.pow_add, Nat.add_comm 52]
    exact whole
  have lowMul : n / 2 ^ (k + 1) * 2 ^ (k + 1) ≤ n := Nat.div_mul_le_self _ _
  have unitLarge : 2 ≤ 2 ^ (k + 1) := by
    rw [Nat.pow_succ]
    have : 0 < 2 ^ k := Nat.two_pow_pos _
    omega
  have atLeast : 2 ^ 53 ≤ n / 2 ^ (k + 1) * 2 ^ (k + 1) :=
    Nat.le_trans (by norm_num) (Nat.mul_le_mul lowLarge unitLarge)
  have unitLe : 2 ^ (k + 1) ≤ n :=
    Nat.le_trans (Nat.pow_le_pow_right (by decide) (by omega)) whole
  simp only [roundBits, kEq, Nat.add_sub_cancel]
  split
  · exact ⟨atLeast, by omega⟩
  · rw [Nat.add_mul, Nat.one_mul]
    omega

theorem toDouble_of_lt {n : Int} (nonneg : 0 ≤ n) (small : n < 2 ^ 53) : toDouble n = n := by
  unfold toDouble
  rw [if_pos (by omega)]

theorem toDouble_bounds {n : Int} (large : 2 ^ 53 ≤ n) :
    2 ^ 53 ≤ toDouble n ∧ toDouble n ≤ 2 * n := by
  obtain ⟨m, rfl⟩ : ∃ m : Nat, n = m := ⟨n.toNat, by omega⟩
  have bounds := roundBits_bounds (n := m) (by omega)
  have positive : 0 < (m : Int) := by omega
  unfold toDouble
  rw [if_neg (by omega), Int.natAbs_natCast, Int.sign_eq_one_of_pos positive, Int.one_mul]
  omega

namespace Torrent

variable {tp : Torrent}

/-! ## Pieces -/

/-- The size of a piece, without the conversions. -/
theorem Accepted.torrentPieceSize_eq (accepted : tp.Accepted) {i : Nat} (lt : i < tp.npieces) :
    tp.torrentPieceSize i = if i + 1 < tp.npieces then tp.pieceLength
      else tp.totalLength - (tp.npieces - 1) * tp.pieceLength := by
  obtain ⟨positive, plFits, totalFits, some_piece, few, lower, upper⟩ := accepted
  have nonneg : 0 ≤ ((tp.npieces : Int) - 1) * tp.pieceLength :=
    Int.mul_nonneg (by omega) (Int.le_of_lt positive)
  have swapped : tp.pieceLength * ((tp.npieces - 1 : Nat) : Int) =
      ((tp.npieces : Int) - 1) * tp.pieceLength := by
    rw [Int.mul_comm]
    congr 1
    omega
  simp only [torrentPieceSize, toU32_pred some_piece few, swapped]
  generalize ((tp.npieces : Int) - 1) * tp.pieceLength = allbutlast at nonneg lower
  rw [toOff_of_fits (n := allbutlast) (by omega) (by omega),
    toOff_of_fits (n := tp.totalLength - allbutlast) (by omega) (by omega)]
  by_cases inner : i + 1 < tp.npieces
  · rw [if_pos inner, if_pos (by omega)]
  · rw [if_neg inner, if_neg (by omega)]

theorem Accepted.torrentPieceSize_bounds (accepted : tp.Accepted) {i : Nat}
    (lt : i < tp.npieces) :
    0 < tp.torrentPieceSize i ∧ tp.torrentPieceSize i ≤ tp.pieceLength := by
  rw [accepted.torrentPieceSize_eq lt]
  obtain ⟨positive, plFits, totalFits, some_piece, few, lower, upper⟩ := accepted
  have split : (tp.npieces : Int) * tp.pieceLength =
      (tp.npieces - 1) * tp.pieceLength + tp.pieceLength := by ring
  split <;> omega

/-- The sizes of the first pieces. -/
theorem Accepted.sum_torrentPieceSize_lt (accepted : tp.Accepted) {n : Nat}
    (lt : n < tp.npieces) :
    ((List.range n).map tp.torrentPieceSize).sum = n * tp.pieceLength := by
  induction n with
  | zero => simp
  | succ n ih =>
      rw [List.range_succ, List.map_append, List.sum_append, ih (Nat.lt_of_succ_lt lt),
        List.map_singleton, List.sum_singleton,
        accepted.torrentPieceSize_eq (Nat.lt_of_succ_lt lt), if_pos lt]
      push_cast
      ring

theorem Accepted.sum_torrentPieceSize (accepted : tp.Accepted) :
    ((List.range tp.npieces).map tp.torrentPieceSize).sum = tp.totalLength := by
  obtain ⟨n, nEq⟩ := Nat.exists_eq_succ_of_ne_zero (Nat.ne_of_gt accepted.npieces_pos)
  have last := accepted.torrentPieceSize_eq (i := n) (by omega)
  rw [if_neg (by omega)] at last
  rw [nEq, List.range_succ, List.map_append, List.sum_append,
    accepted.sum_torrentPieceSize_lt (by omega), List.map_singleton, List.sum_singleton, last, nEq]
  push_cast
  ring

/-- A piece larger than `2 ^ 32` bytes shows in the lengths. -/
theorem Accepted.exists_large_iff (accepted : tp.Accepted) :
    (∀ i < tp.npieces, tp.torrentPieceSize i ≤ 2 ^ 32) ↔
      min tp.pieceLength tp.totalLength ≤ 2 ^ 32 := by
  have first := accepted.torrentPieceSize_eq accepted.npieces_pos
  have bounds := fun i lt => (accepted.torrentPieceSize_bounds (i := i) lt).2
  obtain ⟨positive, plFits, totalFits, some_piece, few, lower, upper⟩ := accepted
  rcases Nat.lt_or_ge 1 tp.npieces with many | one
  · -- the first of several pieces has the piece length
    rw [if_pos many] at first
    have longer : tp.pieceLength ≤ (tp.npieces - 1) * tp.pieceLength := by
      have atLeast : 1 ≤ (tp.npieces : Int) - 1 := by omega
      have scaled := Int.mul_le_mul_of_nonneg_right atLeast (Int.le_of_lt positive)
      omega
    rw [Int.min_eq_left (by omega)]
    constructor
    · intro small
      rw [← first]
      exact small 0 some_piece
    · intro small i lt
      exact Int.le_trans (bounds i lt) small
  · -- the only piece is the whole
    have single : tp.npieces = 1 := Nat.le_antisymm one some_piece
    have whole : tp.torrentPieceSize 0 = tp.totalLength := by
      rw [first, if_neg (by omega), single]
      omega
    have shorter : tp.totalLength ≤ tp.pieceLength := by
      rw [single] at upper
      omega
    rw [Int.min_eq_right shorter, ← whole]
    constructor
    · intro small
      exact small 0 some_piece
    · intro small i lt
      obtain rfl : i = 0 := by omega
      exact small

/-! ## Blocks -/

theorem torrentPieceBlocks_small {i : Nat} (positive : 0 < tp.torrentPieceSize i)
    (small : tp.torrentPieceSize i ≤ 2 ^ 32) :
    tp.torrentPieceBlocks i =
      some (((tp.torrentPieceSize i).toNat + (PIECE_BLOCKLEN - 1)) / PIECE_BLOCKLEN) := by
  unfold torrentPieceBlocks doubleToU32 ceilDiv PIECE_BLOCKLEN
  rw [toDouble_of_lt (by omega) (by omega)]
  push_cast
  rw [if_pos (by omega)]
  congr 1
  omega

theorem lt_of_torrentPieceBlocks_large {i nblocks : Nat} (large : 2 ^ 32 < tp.torrentPieceSize i)
    (blocks : tp.torrentPieceBlocks i = some nblocks) : 2 ^ 18 < nblocks := by
  have atLeast : 2 ^ 32 < toDouble (tp.torrentPieceSize i) := by
    by_cases exact_ : tp.torrentPieceSize i < 2 ^ 53
    · rwa [toDouble_of_lt (by omega) exact_]
    · have bounds := toDouble_bounds (Int.not_lt.mp exact_)
      omega
  unfold torrentPieceBlocks doubleToU32 ceilDiv PIECE_BLOCKLEN at blocks
  push_cast at blocks
  split at blocks
  · cases blocks
    omega
  · cases blocks

/-- A block is a full one, or reaches to the end of its piece. -/
theorem torrentBlockSize_eq {i nblocks block : Nat} (positive : 0 < tp.torrentPieceSize i)
    (small : tp.torrentPieceSize i ≤ 2 ^ 32)
    (count : nblocks = ((tp.torrentPieceSize i).toNat + (PIECE_BLOCKLEN - 1)) / PIECE_BLOCKLEN)
    (lt : block < nblocks) :
    tp.torrentBlockSize i nblocks block =
      min PIECE_BLOCKLEN ((tp.torrentPieceSize i).toNat - block * PIECE_BLOCKLEN) := by
  unfold PIECE_BLOCKLEN at count
  have few : nblocks ≤ 2 ^ 18 := by omega
  have pred := toU32_pred (n := nblocks) (by omega) (by omega)
  simp only [torrentBlockSize, pred]
  by_cases inner : block < nblocks - 1
  · rw [if_pos inner]
    unfold PIECE_BLOCKLEN
    omega
  · rw [if_neg inner]
    simp only [PIECE_BLOCKLEN, toU32]
    push_cast
    omega

theorem requestStart_eq {block : Nat} (small : block < 2 ^ 18) :
    requestStart block = block * PIECE_BLOCKLEN := by
  unfold requestStart toU32 PIECE_BLOCKLEN
  omega

/-- A piece of at most `2 ^ 32` bytes is partitioned. -/
theorem partitioned_of_small {i : Nat} (positive : 0 < tp.torrentPieceSize i)
    (small : tp.torrentPieceSize i ≤ 2 ^ 32) :
    tp.Partitioned i (((tp.torrentPieceSize i).toNat + (PIECE_BLOCKLEN - 1)) / PIECE_BLOCKLEN) := by
  have size : ∀ block, block < _ → tp.torrentBlockSize i _ block = _ :=
    fun block => torrentBlockSize_eq positive small rfl
  generalize countEq : ((tp.torrentPieceSize i).toNat + (PIECE_BLOCKLEN - 1)) / PIECE_BLOCKLEN =
    nblocks at size
  have bounds : (nblocks - 1) * PIECE_BLOCKLEN < (tp.torrentPieceSize i).toNat ∧
      (tp.torrentPieceSize i).toNat ≤ nblocks * PIECE_BLOCKLEN ∧ nblocks ≤ 2 ^ 18 := by
    unfold PIECE_BLOCKLEN at countEq ⊢
    omega
  obtain ⟨lastStarts, allCovered, few⟩ := bounds
  have started : ∀ block < nblocks, block * PIECE_BLOCKLEN < (tp.torrentPieceSize i).toNat := by
    intro block lt
    have le : block * PIECE_BLOCKLEN ≤ (nblocks - 1) * PIECE_BLOCKLEN :=
      Nat.mul_le_mul_right _ (by omega)
    omega
  refine ⟨?_, ?_, ?_, ?_, ?_⟩
  · rw [torrentPieceBlocks_small positive small, countEq]
  · intro block lt
    have begins := started block lt
    rw [size block lt]
    unfold PIECE_BLOCKLEN at begins ⊢
    omega
  · intro block lt
    exact requestStart_eq (by omega)
  · intro block lt
    have begins := started block lt
    rw [size block lt]
    omega
  · intro offset inside
    have quotient : offset / PIECE_BLOCKLEN < nblocks := by
      rw [Nat.div_lt_iff_lt_mul (by decide)]
      omega
    refine ⟨offset / PIECE_BLOCKLEN, ⟨quotient, Nat.div_mul_le_self _ _, ?_⟩, ?_⟩
    · rw [size _ quotient]
      unfold PIECE_BLOCKLEN
      omega
    · rintro block ⟨lt, atLeast, below⟩
      rw [size block lt] at below
      unfold PIECE_BLOCKLEN at atLeast below ⊢
      omega

/-- A larger piece has a block whose offset the wire does not carry. -/
theorem not_partitioned_of_large {i nblocks : Nat} (large : 2 ^ 32 < tp.torrentPieceSize i) :
    ¬ tp.Partitioned i nblocks := by
  intro partitioned
  have many := lt_of_torrentPieceBlocks_large large partitioned.count
  have start := partitioned.starts (2 ^ 18) many
  exact absurd start (by decide)

/-! ## Block fields -/

/-- The bytes of a block field: at least one bit for each block that a request
can name, and not too many. -/
theorem Accepted.bppbf_bounds (accepted : tp.Accepted) :
    min tp.pieceLength (2 ^ 53) ≤ (tp.bppbf * 2 ^ 17 : Nat) ∧
      (tp.bppbf * 2 ^ 17 : Nat) ≤ 2 * tp.pieceLength + 2 ^ 17 := by
  have positive := accepted.pieceLength_pos
  have rounded : min tp.pieceLength (2 ^ 53) ≤ toDouble tp.pieceLength ∧
      toDouble tp.pieceLength ≤ 2 * tp.pieceLength := by
    by_cases small : tp.pieceLength < 2 ^ 53
    · rw [toDouble_of_lt (Int.le_of_lt positive) small]
      omega
    · have bounds := toDouble_bounds (Int.not_lt.mp small)
      omega
  unfold bppbf ceilDiv
  omega

theorem Accepted.fieldsFit (accepted : tp.Accepted) : tp.npieces * tp.bppbf < 2 ^ 49 := by
  have upper := accepted.bppbf_bounds.2
  obtain ⟨positive, plFits, totalFits, some_piece, few, lower, -⟩ := accepted
  have whole : (tp.npieces : Int) * tp.pieceLength < 2 ^ 64 := by
    have split : (tp.npieces : Int) * tp.pieceLength =
        (tp.npieces - 1) * tp.pieceLength + tp.pieceLength := by ring
    omega
  have scaled : (tp.npieces : Int) * (tp.bppbf * 2 ^ 17 : Nat) ≤
      tp.npieces * (2 * tp.pieceLength + 2 ^ 17) :=
    Int.mul_le_mul_of_nonneg_left upper (Int.natCast_nonneg _)
  have expanded : (tp.npieces : Int) * (2 * tp.pieceLength + 2 ^ 17) =
      2 * (tp.npieces * tp.pieceLength) + tp.npieces * 2 ^ 17 := by ring
  have gathered : (tp.npieces : Int) * (tp.bppbf * 2 ^ 17 : Nat) =
      (tp.npieces * tp.bppbf : Nat) * 2 ^ 17 := by
    push_cast
    ring
  omega

theorem Accepted.cmGetBlockField_eq (accepted : tp.Accepted) {i : Nat} (lt : i < tp.npieces) :
    tp.cmGetBlockField i = i * tp.bppbf := by
  have fits := accepted.fieldsFit
  have le : i * tp.bppbf ≤ tp.npieces * tp.bppbf := Nat.mul_le_mul_right _ (Nat.le_of_lt lt)
  exact Nat.mod_eq_of_lt (by omega)

/-- A byte of the block field says whose it is. -/
theorem Accepted.div_bppbf (accepted : tp.Accepted) {piece i : Nat} (lt : piece < tp.npieces)
    (inside : i < tp.bppbf) : (tp.cmGetBlockField piece + i) / tp.bppbf = piece := by
  rw [accepted.cmGetBlockField_eq lt, Nat.mul_comm, Nat.mul_add_div (by omega),
    Nat.div_eq_of_lt inside, Nat.add_zero]

theorem Accepted.sliced (accepted : tp.Accepted)
    (small : ∀ i < tp.npieces, tp.torrentPieceSize i ≤ 2 ^ 32) : tp.Sliced := by
  refine ⟨?_, ?_⟩
  · intro piece lt nblocks blocks
    obtain ⟨positive, le⟩ := accepted.torrentPieceSize_bounds lt
    have lower := accepted.bppbf_bounds.1
    have few := small piece lt
    rw [torrentPieceBlocks_small positive few] at blocks
    cases blocks
    unfold PIECE_BLOCKLEN
    omega
  · intro first lt second lt' different i inside j inside' same
    apply different
    rw [← accepted.div_bppbf lt inside, ← accepted.div_bppbf lt' inside', same]

/-- The exact condition: no piece is larger than `2 ^ 32` bytes. -/
theorem laidOut_iff (accepted : tp.Accepted) :
    tp.LaidOut ↔ min tp.pieceLength tp.totalLength ≤ 2 ^ 32 := by
  rw [← accepted.exists_large_iff]
  constructor
  · intro laidOut i lt
    by_contra large
    obtain ⟨nblocks, partitioned⟩ := laidOut.pieces i lt
    exact not_partitioned_of_large (Int.not_le.mp large) partitioned
  · intro small
    exact {
      total := accepted.sum_torrentPieceSize
      pieces := fun i lt => ⟨_, partitioned_of_small (accepted.torrentPieceSize_bounds lt).1
        (small i lt)⟩
      fields := accepted.sliced small
    }

/-- Three pieces, of which the last is short and has a short block. -/
def threePieces : Torrent := { totalLength := 100000, pieceLength := 40000, npieces := 3 }

theorem laidOut_iff_threePieces :
    threePieces.LaidOut ↔ min threePieces.pieceLength threePieces.totalLength ≤ 2 ^ 32 :=
  laidOut_iff ⟨by decide, by decide, by decide, by decide, by decide, by decide, by decide⟩

/-- One piece of a byte more than `2 ^ 32`. -/
def hugePiece : Torrent :=
  { totalLength := 2 ^ 32 + 1, pieceLength := 2 ^ 32 + 1, npieces := 1 }

/-- The last block of the huge piece is requested at the offset zero. -/
theorem not_laidOut : hugePiece.Accepted ∧
    hugePiece.torrentPieceBlocks 0 = some (2 ^ 18 + 1) ∧ requestStart (2 ^ 18) = 0 ∧
    ¬ hugePiece.LaidOut := by
  refine ⟨⟨by decide, by decide, by decide, by decide, by decide, by decide, by decide⟩,
    by decide, by decide, ?_⟩
  intro laidOut
  obtain ⟨nblocks, partitioned⟩ := laidOut.pieces 0 (by decide)
  exact not_partitioned_of_large (by decide) partitioned

end Torrent

end Btpd.Machine
