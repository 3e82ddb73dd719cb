import Btpd.Metainfo.Accepted

/-!
# Piece sizes of an accepted torrent

`mi_test` compares the total length with the number of pieces in 64-bit words.
The comparison is read back in exact arithmetic here: which sizes the pieces of
an accepted torrent have, and on which torrents the comparison says less than
it seems to.
-/

namespace Btpd.Metainfo

open Btpd.Benc

variable {buffer : Buffer} {fuel : Nat}

/-- The lengths of the files, or the single length, as exact integers. -/
def fileLengths (buffer : Buffer) (fuel p : Nat) : Exec (List Int) := do
  let info ← miInfo buffer fuel p
  match ← bencDgetLst buffer fuel info (literal "files") with
  | some files => do
      let elems ← bencElems buffer fuel files
      elems.mapM fun fdct => bencDgetInt buffer fuel fdct (literal "length")
  | none => do
      let length ← bencDgetInt buffer fuel info (literal "length")
      pure [length]

/-- `torrent_piece_size(tp, index)` in exact arithmetic. -/
def torrentPieceSize (npieces : Nat) (pieceLength totalLength : Int) (index : Nat) : Int :=
  if (index : Int) < npieces - 1 then
    pieceLength
  else
    totalLength - pieceLength * (npieces - 1)

/-- The numbers that a torrent is started with. -/
structure Numbers (buffer : Buffer) (fuel : Nat) (npieces : Nat) (pieceLength : Int)
    (lengths : List Int) : Prop where
  npiecesEq : miNpieces buffer fuel buffer.base = .ok npieces
  pieceLengthEq : miPieceLength buffer fuel buffer.base = .ok pieceLength
  lengthsEq : fileLengths buffer fuel buffer.base = .ok lengths

/-- Every piece, the last one included, has between one and `pieceLength`
bytes. -/
structure PiecesSized (npieces : Nat) (pieceLength : Int) (lengths : List Int) : Prop where
  lengths_nonneg : ∀ length ∈ lengths, 0 ≤ length
  pieceLength_pos : 0 < pieceLength
  npieces_pos : 1 ≤ npieces
  above : (npieces - 1) * pieceLength < lengths.sum
  below : lengths.sum ≤ npieces * pieceLength
  sized : ∀ index < npieces, 1 ≤ torrentPieceSize npieces pieceLength lengths.sum index ∧
    torrentPieceSize npieces pieceLength lengths.sum index ≤ pieceLength

/-- The total is not the size of all pieces but the last, and the two have the
same number of 64-bit words below them. -/
def TotalInWord (npieces : Nat) (pieceLength : Int) (lengths : List Int) : Prop :=
  lengths.sum ≠ (npieces - 1) * pieceLength ∧
    lengths.sum / 2 ^ 64 = (npieces - 1) * pieceLength / 2 ^ 64

/-! ## The comparison in words -/

theorem toSize_cast (n : Int) : (toSize n : Int) = n % 2 ^ 64 :=
  Int.toNat_of_nonneg (Int.emod_nonneg _ (by decide))

/-- The last check of `mi_test` compares the residues of the exact numbers. -/
theorem testTotal_iff {length pieceLength : Int} {npieces : Nat} :
    testTotal length npieces pieceLength = true ↔
      (npieces - 1) * pieceLength % 2 ^ 64 ≤ length % 2 ^ 64 ∧
      length % 2 ^ 64 ≤ npieces * pieceLength % 2 ^ 64 := by
  have word : ((wordSize : Nat) : Int) = 2 ^ 64 := by decide
  have low : ((toSize (npieces - 1) * toSize pieceLength % wordSize : Nat) : Int) =
      (npieces - 1) * pieceLength % 2 ^ 64 := by
    rw [Int.natCast_emod, Int.natCast_mul, word, toSize_cast, toSize_cast, ← Int.mul_emod]
  have high : ((npieces * toSize pieceLength % wordSize : Nat) : Int) =
      npieces * pieceLength % 2 ^ 64 := by
    rw [Int.natCast_emod, Int.natCast_mul, word, toSize_cast, Int.mul_emod, Int.emod_emod,
      ← Int.mul_emod]
  rw [← low, ← high, ← toSize_cast]
  simp only [testTotal, decide_eq_true_eq, not_or, Nat.not_lt]
  omega

/-- The comparison in words, for the bounds `a` and `a + n` of the total `t`. -/
theorem word_comparison {a n t : Int} (nPos : 0 < n) (nSmall : n < 2 ^ 64)
    (low : a % 2 ^ 64 ≤ t % 2 ^ 64) (high : t % 2 ^ 64 ≤ (a + n) % 2 ^ 64) :
    (a < t ∧ t ≤ a + n) ↔ (t ≠ a ∧ t / 2 ^ 64 = a / 2 ^ 64) := by
  omega

/-- Without any piece hash, the lower bound of the total wraps. -/
theorem npieces_pos_of_testTotal {length pieceLength : Int} {npieces : Nat}
    (positive : 0 < pieceLength) (small : pieceLength < 2 ^ 64)
    (tested : testTotal length npieces pieceLength = true) : 1 ≤ npieces := by
  obtain ⟨low, high⟩ := testTotal_iff.mp tested
  by_contra none
  have zero : npieces = 0 := by omega
  subst zero
  simp only [Int.natCast_zero, Int.zero_mul, Int.zero_sub, Int.neg_mul, Int.one_mul] at low high
  omega

theorem testTotal_toOff {total pieceLength : Int} {npieces : Nat} :
    testTotal (toOff total) npieces pieceLength = testTotal total npieces pieceLength := by
  have same : toOff total % 2 ^ 64 = total % 2 ^ 64 := by
    simp only [toOff]
    omega
  rw [Bool.eq_iff_iff, testTotal_iff, testTotal_iff, same]

/-- For a total that passed the last check, the exact bounds hold except on the
lower bound itself and across a multiple of the word size. -/
theorem bounds_iff_totalInWord {pieceLength : Int} {npieces : Nat} {lengths : List Int}
    (positive : 0 < pieceLength) (small : pieceLength < 2 ^ 64)
    (tested : testTotal lengths.sum npieces pieceLength = true) :
    ((npieces - 1) * pieceLength < lengths.sum ∧ lengths.sum ≤ npieces * pieceLength) ↔
      TotalInWord npieces pieceLength lengths := by
  obtain ⟨low, high⟩ := testTotal_iff.mp tested
  have next : (npieces : Int) * pieceLength = (npieces - 1) * pieceLength + pieceLength := by
    rw [Int.sub_mul, Int.one_mul, Int.sub_add_cancel]
  rw [next] at high ⊢
  exact word_comparison positive small low high

/-- The sizes of the pieces follow from the bounds of the total. -/
theorem torrentPieceSize_bounds {npieces index : Nat} {pieceLength total : Int}
    (positive : 0 < pieceLength) (above : (npieces - 1) * pieceLength < total)
    (below : total ≤ npieces * pieceLength) :
    1 ≤ torrentPieceSize npieces pieceLength total index ∧
      torrentPieceSize npieces pieceLength total index ≤ pieceLength := by
  have next : (npieces : Int) * pieceLength = (npieces - 1) * pieceLength + pieceLength := by
    rw [Int.sub_mul, Int.one_mul, Int.sub_add_cancel]
  rw [torrentPieceSize]
  split
  · omega
  · rw [Int.mul_comm pieceLength]
    omega

/-! ## The numbers of an accepted torrent -/

theorem toOff_add (m n : Int) : toOff (toOff m + n) = toOff (m + n) := by
  simp only [toOff]
  omega

/-- The wrapping sum of `mi_test`, over files whose lengths were tested. -/
theorem exists_lengths_of_foldElems {elems : List Nat} {start length : Int} (total : Int)
    (startEq : start = toOff total)
    (tested : ∀ fdct ∈ elems, FileTested buffer fuel fdct)
    (summed : foldElems (addLength buffer fuel) elems start = .ok (some length)) :
    ∃ lengths : List Int,
      elems.mapM (fun fdct => bencDgetInt buffer fuel fdct (literal "length")) =
        .ok lengths ∧
      (∀ n ∈ lengths, 0 ≤ n) ∧ length = toOff (total + lengths.sum) := by
  induction elems generalizing start total with
  | nil =>
      simp only [foldElems, Exec.pure_eq, Except.ok.injEq, Option.some.injEq] at summed
      exact ⟨[], rfl, by simp, by rw [← summed, startEq, List.sum_nil, Int.add_zero]⟩
  | cons fdct elems ih =>
      obtain ⟨middle, added, summed⟩ := foldElems_cons summed
      obtain ⟨n, nEq, added⟩ := Exec.bind_eq_ok.mp added
      obtain ⟨n', nEq', nonneg⟩ := (tested fdct (by simp)).lengthTested
      rw [nEq] at nEq'
      cases nEq'
      simp only [Exec.pure_eq, Except.ok.injEq, Option.some.injEq] at added
      rw [startEq, toOff_add] at added
      obtain ⟨lengths, lengthsEq, nonnegs, lengthEq⟩ :=
        ih _ added.symm (fun fdct mem => tested fdct (List.mem_cons_of_mem _ mem)) summed
      refine ⟨n :: lengths, ?_, List.forall_mem_cons.mpr ⟨nonneg, nonnegs⟩, ?_⟩
      · rw [List.mapM_cons, nEq, Exec.bind_ok, lengthsEq]
        rfl
      · rw [lengthEq, List.sum_cons, Int.add_assoc]

namespace Accepted

variable (accepted : Accepted buffer fuel)

include accepted

theorem miNpieces_eq : miNpieces buffer fuel buffer.base = .ok (accepted.slen / 20) := by
  rw [miNpieces, accepted.miInfo_eq, Exec.bind_ok, accepted.piecesEq]
  rfl

theorem miPieceLength_eq :
    miPieceLength buffer fuel buffer.base = .ok accepted.pieceLength := by
  rw [miPieceLength, accepted.miInfo_eq, Exec.bind_ok, accepted.pieceLengthEq]

theorem pieceLength_lt : accepted.pieceLength < 2 ^ 64 := by
  have atMost := bencDgetInt_le accepted.pieceLengthEq
  simp only [LLONG_MAX] at atMost
  omega

/-- The length that `mi_test` compares is the exact total, wrapped to an
`off_t`. -/
theorem exists_lengths : ∃ lengths, fileLengths buffer fuel buffer.base = .ok lengths ∧
    (∀ n ∈ lengths, 0 ≤ n) ∧ toOff accepted.length = toOff lengths.sum := by
  rw [fileLengths, accepted.miInfo_eq, Exec.bind_ok]
  cases files_of_testLength accepted.lengthTested with
  | single lengthEq positive noFiles =>
      refine ⟨[accepted.length], ?_, by simpa using Int.le_of_lt positive, by simp⟩
      rw [noFiles, Exec.bind_ok]
      simp only [lengthEq, Exec.bind_ok, Exec.pure_eq]
  | many files first elems filesEq firstEq visits turns tested counted summed =>
      obtain ⟨lengths, lengthsEq, nonneg, lengthEq⟩ :=
        exists_lengths_of_foldElems 0 (by decide) tested summed
      refine ⟨lengths, ?_, nonneg, ?_⟩
      · rw [filesEq, Exec.bind_ok]
        simp only [bencElems_of_visits firstEq visits turns, Exec.bind_ok, lengthsEq]
      · rw [lengthEq, Int.zero_add]
        simp only [toOff]
        omega

end Accepted

/-- An accepted torrent has pieces of one to `pieceLength` bytes exactly when
its total length is not the size of all pieces but the last and the comparison
of `mi_test` did not cross a multiple of the word size. -/
theorem miTest_piecesSized_iff (accepts : miTest buffer fuel = .ok true) :
    ∃ npieces pieceLength lengths, Numbers buffer fuel npieces pieceLength lengths ∧
      (PiecesSized npieces pieceLength lengths ↔
        TotalInWord npieces pieceLength lengths) := by
  obtain ⟨accepted⟩ := exists_accepted accepts
  obtain ⟨lengths, lengthsEq, nonneg, lengthEq⟩ := accepted.exists_lengths
  refine ⟨accepted.slen / 20, accepted.pieceLength, lengths,
    ⟨accepted.miNpieces_eq, accepted.miPieceLength_eq, lengthsEq⟩, ?_⟩
  have positive := accepted.pieceLength_pos
  have small := accepted.pieceLength_lt
  have tested := accepted.totalTested
  rw [← testTotal_toOff, lengthEq, testTotal_toOff] at tested
  have bounds := bounds_iff_totalInWord positive small tested
  constructor
  · intro sized
    exact bounds.mp ⟨sized.above, sized.below⟩
  · intro inWord
    obtain ⟨above, below⟩ := bounds.mpr inWord
    exact ⟨nonneg, positive, npieces_pos_of_testTotal positive small tested, above, below,
      fun index _ => torrentPieceSize_bounds positive above below⟩

/-- Two pieces of ten bytes for eleven bytes. -/
def elevenBytes : Buffer where
  base := 4096
  bytes := literal ("d8:announce1:a4:infod6:lengthi11e12:piece lengthi10e6:pieces40:" ++
    "0123456789012345678901234567890123456789ee")
  base_pos := page_pos
  fits := by decide +kernel

theorem miTest_piecesSized_iff_elevenBytes : miTest elevenBytes 200 = .ok true ∧
    ∃ npieces pieceLength lengths, Numbers elevenBytes 200 npieces pieceLength lengths ∧
      (PiecesSized npieces pieceLength lengths ↔
        TotalInWord npieces pieceLength lengths) := by
  have accepts : miTest elevenBytes 200 = .ok true := by decide +kernel
  exact ⟨accepts, miTest_piecesSized_iff accepts⟩

/-- Two pieces of ten bytes for ten bytes. -/
def tenBytes : Buffer where
  base := 4096
  bytes := literal ("d8:announce1:a4:infod6:lengthi10e12:piece lengthi10e6:pieces40:" ++
    "0123456789012345678901234567890123456789ee")
  base_pos := page_pos
  fits := by decide +kernel

/-- A last piece without any byte is accepted. -/
theorem tenBytes_not_piecesSized : miTest tenBytes 200 = .ok true ∧
    ¬ ∃ npieces pieceLength lengths, Numbers tenBytes 200 npieces pieceLength lengths ∧
      PiecesSized npieces pieceLength lengths := by
  refine ⟨by decide +kernel, ?_⟩
  rintro ⟨npieces, pieceLength, lengths, numbers, sized⟩
  have npiecesEq : miNpieces tenBytes 200 tenBytes.base = .ok 2 := by decide +kernel
  have pieceLengthEq : miPieceLength tenBytes 200 tenBytes.base = .ok 10 := by decide +kernel
  have lengthsEq : fileLengths tenBytes 200 tenBytes.base = .ok [10] := by decide +kernel
  obtain rfl := Except.ok.inj (numbers.npiecesEq.symm.trans npiecesEq)
  obtain rfl := Except.ok.inj (numbers.pieceLengthEq.symm.trans pieceLengthEq)
  obtain rfl := Except.ok.inj (numbers.lengthsEq.symm.trans lengthsEq)
  exact absurd sized.above (by decide)

end Btpd.Metainfo
