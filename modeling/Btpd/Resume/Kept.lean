import Btpd.Resume.File
import Mathlib

/-!
# What the resume file keeps

Its bytes stand for the verified pieces, the stored blocks and what was noted of the files: each
operation changes the one of them that it is about, and a file that is opened again is as it was
left.
-/

namespace Btpd.Resume

open Bits
open Input (decBe32)
open Download (encBe32)
open Machine (toDouble ceilDiv)

variable {l : Layout} {mem file : List UInt8} {p i : Nat}

/-- What the file stands for. -/
structure Saved where
  pieces : Nat → Bool
  blocks : Nat → Nat → Bool
  fts : Nat → FileTimeSize

/-- What an operation does to it. -/
def Op.apply (s : Saved) : Op → Saved
  | .setPiece piece => { s with pieces := Function.update s.pieces piece true }
  | .clearPiece piece => { s with pieces := Function.update s.pieces piece false }
  | .setBlock piece block =>
      let field := Function.update (s.blocks piece) block true
      { s with blocks := Function.update s.blocks piece field }
  | .clearBlocks piece => { s with blocks := Function.update s.blocks piece fun _ => false }
  | .setFts i fts => { s with fts := Function.update s.fts i fts }
  | .reopen _ => s

/-- The mapped file has its size and its header, and reads as what it stands for. -/
structure Shows (l : Layout) (mem : List UInt8) (s : Saved) : Prop where
  length : mem.length = l.size
  magic : mem.take 4 = magic
  version : decBe32 (mem.drop 4) = 2
  pieces : ∀ piece < l.npieces, hasBit mem l.pcField piece = some (s.pieces piece)
  blocks : ∀ piece < l.npieces, ∀ block < l.blocks,
    hasBit mem (l.cmGetBlockField piece) block = some (s.blocks piece block)
  fts : ∀ i < l.nfiles, resumeGetFts mem i = some (s.fts i)

/-! ## Places -/

theorem Layout.piece_lt {piece : Nat} (inside : piece < l.npieces) :
    l.pcField + piece / 8 < l.blkField := by
  unfold blkField pfsize
  omega

namespace Layout.Fits

variable (fits : l.Fits)

include fits

theorem bppbf_eq : l.bppbf = (l.pieceLength + (2 ^ 17 - 1)) / 2 ^ 17 := by
  have same : toDouble l.pieceLength = l.pieceLength := by
    rcases Nat.lt_or_eq_of_le fits.length with small | largest
    · exact Machine.toDouble_of_lt (Int.natCast_nonneg _) (by omega)
    · rw [largest]
      decide
  unfold bppbf ceilDiv
  rw [same]
  omega

theorem pcField_eq : l.pcField = 8 + l.nfiles * 16 := by
  have few := fits.files
  unfold pcField
  omega

theorem size_eq : l.size = 8 + l.nfiles * 16 + l.pfsize + l.bppbf * l.npieces := by
  have few := fits.files
  have whole := fits.whole
  unfold size bfsize
  generalize l.bppbf * l.npieces = fields at *
  omega

theorem cmGetBlockField_eq {piece : Nat} (inside : piece < l.npieces) :
    l.cmGetBlockField piece = l.blkField + piece * l.bppbf := by
  have below : piece * l.bppbf ≤ l.npieces * l.bppbf := Nat.mul_le_mul_right _ inside.le
  have whole := fits.whole
  rw [Nat.mul_comm l.bppbf] at whole
  unfold cmGetBlockField
  rw [Nat.mod_eq_of_lt (by omega)]

/-- A block field has a bit for each block of its piece. -/
theorem block_lt {block : Nat} (inside : block < l.blocks) : block / 8 < l.bppbf := by
  rw [fits.bppbf_eq]
  unfold blocks at inside
  omega

theorem field_le {piece : Nat} (inside : piece < l.npieces) :
    l.blkField ≤ l.cmGetBlockField piece ∧ l.cmGetBlockField piece + l.bppbf ≤ l.size := by
  have room : (piece + 1) * l.bppbf ≤ l.npieces * l.bppbf := Nat.mul_le_mul_right _ inside
  rw [Nat.succ_mul, Nat.mul_comm l.npieces] at room
  rw [fits.cmGetBlockField_eq inside, fits.size_eq]
  unfold blkField
  rw [fits.pcField_eq]
  omega

theorem pieces_le : l.blkField ≤ l.size := by
  rw [fits.size_eq]
  unfold blkField
  rw [fits.pcField_eq]
  omega

/-- The block fields of two pieces are apart. -/
theorem field_apart {piece piece' r r' : Nat} (inside : piece < l.npieces)
    (inside' : piece' < l.npieces) (lt : r < l.bppbf) (lt' : r' < l.bppbf) :
    l.cmGetBlockField piece + r = l.cmGetBlockField piece' + r' ↔ piece = piece' ∧ r = r' := by
  rw [fits.cmGetBlockField_eq inside, fits.cmGetBlockField_eq inside']
  constructor
  · intro same
    have sums : r + l.bppbf * piece = r' + l.bppbf * piece' := by
      rw [Nat.mul_comm _ piece, Nat.mul_comm _ piece']
      omega
    have quotients := congrArg (· / l.bppbf) sums
    have remainders := congrArg (· % l.bppbf) sums
    simp only [Nat.add_mul_div_left _ _ (Nat.zero_lt_of_lt lt), Nat.div_eq_of_lt lt,
      Nat.div_eq_of_lt lt', Nat.zero_add] at quotients
    simp only [Nat.add_mul_mod_self_left, Nat.mod_eq_of_lt lt,
      Nat.mod_eq_of_lt lt'] at remainders
    exact ⟨quotients, remainders⟩
  · rintro ⟨rfl, rfl⟩
    rfl

/-- The notes of a file stand before the fields. -/
theorem note_le (inside : i < l.nfiles) : resumeFileTime i + 8 ≤ l.pcField := by
  rw [fits.pcField_eq]
  unfold resumeFileTime
  omega

end Layout.Fits

/-- A torrent that `mi_test` has read as its lengths are written fits, unless it has more files
than an `int` can place or a piece length that is no `double`. -/
theorem Layout.fits_of_accepted {tp : Machine.Torrent} (accepted : tp.Accepted) {nfiles : Nat}
    (files : nfiles ≤ 2 ^ 27) (length : tp.pieceLength ≤ 2 ^ 53) :
    (Layout.mk nfiles tp.npieces tp.pieceLength.toNat).Fits := by
  have positive := accepted.pieceLength_pos
  have few := accepted.npieces_fits
  have fields := accepted.fieldsFit
  have same : (tp.pieceLength.toNat : Int) = tp.pieceLength := Int.toNat_of_nonneg positive.le
  have bytes : (Layout.mk nfiles tp.npieces tp.pieceLength.toNat).bppbf = tp.bppbf := by
    unfold bppbf Machine.Torrent.bppbf
    rw [same]
  constructor
  · exact files
  · exact Int.toNat_le.mpr length
  · rw [bytes]
    dsimp only [pfsize]
    rw [Nat.mul_comm tp.bppbf]
    omega

/-! ## Reading -/

theorem hasBit_eq (inside : p + i / 8 < mem.length) : hasBit mem p i = some (has mem p i) := by
  unfold hasBit has hasIn
  rw [List.getElem?_eq_getElem inside, List.getD_eq_getElem?_getD, List.getElem?_eq_getElem inside]
  rfl

theorem setBit_eq (inside : p + i / 8 < mem.length) :
    setBit mem p i = some (mem.set (p + i / 8) (mem.getD (p + i / 8) 0 ||| mask i)) := by
  unfold setBit
  rw [List.getElem?_eq_getElem inside, List.getD_eq_getElem?_getD, List.getElem?_eq_getElem inside]
  rfl

theorem clearBit_eq (inside : p + i / 8 < mem.length) :
    clearBit mem p i = some (mem.set (p + i / 8) (mem.getD (p + i / 8) 0 &&& ~~~mask i)) := by
  unfold clearBit
  rw [List.getElem?_eq_getElem inside, List.getD_eq_getElem?_getD, List.getElem?_eq_getElem inside]
  rfl

/-- The first bytes of a place depend on them only. -/
theorem take_drop_eq {mem' : List UInt8} {n : Nat} (length : mem'.length = mem.length)
    (same : ∀ q, p ≤ q → q < p + n → mem'.getD q 0 = mem.getD q 0) :
    (mem'.drop p).take n = (mem.drop p).take n := by
  apply List.ext_getElem
  · simp [length]
  · intro k inside _
    simp only [List.length_take, List.length_drop] at inside
    have here := same (p + k) (by omega) (by omega)
    rw [List.getD_eq_getElem?_getD, List.getD_eq_getElem?_getD,
      List.getElem?_eq_getElem (by omega), List.getElem?_eq_getElem (by omega)] at here
    simpa using here

/-! ## Steps -/

variable {mem' : List UInt8} {s : Saved}

/-- The header reads as before when its bytes stay. -/
theorem Shows.header (shows_ : Shows l mem s) (length : mem'.length = mem.length)
    (same : ∀ q < 8, mem'.getD q 0 = mem.getD q 0) :
    mem'.take 4 = Resume.magic ∧ decBe32 (mem'.drop 4) = 2 := by
  constructor
  · have bytes := take_drop_eq (p := 0) (n := 4) length fun q _ below => same q (by omega)
    rw [List.drop_zero, List.drop_zero] at bytes
    rw [bytes]
    exact shows_.magic
  · have bytes := take_drop_eq (p := 4) (n := 4) length fun q _ below => same q (by omega)
    have version := shows_.version
    unfold decBe32 at version ⊢
    rw [bytes]
    exact version

/-- What is noted of a file reads as before when its bytes stay. -/
theorem Shows.note (shows_ : Shows l mem s) (length : mem'.length = mem.length)
    (inside : i < l.nfiles)
    (same : ∀ q, resumeFileSize i ≤ q → q < resumeFileTime i + 8 →
      mem'.getD q 0 = mem.getD q 0) :
    resumeGetFts mem' i = some (s.fts i) := by
  have place : resumeFileTime i = resumeFileSize i + 8 := by
    unfold resumeFileTime resumeFileSize
    omega
  have size := take_drop_eq (p := resumeFileSize i) (n := 8) length fun q above below =>
    same q above (by omega)
  have time := take_drop_eq (p := resumeFileTime i) (n := 8) length fun q above below =>
    same q (by omega) below
  have before := shows_.fts i inside
  unfold resumeGetFts decBe64 at before ⊢
  rw [length, size, time]
  exact before

/-- What stands before the fields reads as before when its bytes stay. -/
theorem Shows.front (shows_ : Shows l mem s) (fits : l.Fits) (length : mem'.length = mem.length)
    (same : ∀ q < l.pcField, mem'.getD q 0 = mem.getD q 0) :
    mem'.take 4 = Resume.magic ∧ decBe32 (mem'.drop 4) = 2 ∧
      ∀ i < l.nfiles, resumeGetFts mem' i = some (s.fts i) := by
  have head : 8 ≤ l.pcField := Nat.le_add_right _ _
  rcases shows_.header length (fun q below => same q (by omega)) with ⟨magic, version⟩
  refine ⟨magic, version, fun i inside => shows_.note length inside fun q _ below => ?_⟩
  have place := fits.note_le inside
  exact same q (by omega)

/-- One byte of the fields is written. -/
theorem Shows.bit (shows_ : Shows l mem s) (fits : l.Fits) {q : Nat} {byte : UInt8}
    (behind : l.pcField ≤ q)
    (inside : q < mem.length) {s' : Saved} (fts : s'.fts = s.fts)
    (pieces : ∀ piece < l.npieces, has (mem.set q byte) l.pcField piece = s'.pieces piece)
    (blocks : ∀ piece < l.npieces, ∀ block < l.blocks,
      has (mem.set q byte) (l.cmGetBlockField piece) block = s'.blocks piece block) :
    Shows l (mem.set q byte) s' := by
  have length : (mem.set q byte).length = mem.length := List.length_set
  have size : (mem.set q byte).length = l.size := length.trans shows_.length
  rcases shows_.front fits length (fun x below => by rw [getD_set inside, if_neg (by omega)]) with
    ⟨magic, version, notes⟩
  refine ⟨size, magic, version, ?_, ?_, ?_⟩
  · intro piece inside'
    rw [hasBit_eq, pieces piece inside']
    have here := l.piece_lt inside'
    have whole := fits.pieces_le
    omega
  · intro piece inside' block inside''
    rw [hasBit_eq, blocks piece inside' block inside'']
    have here := fits.block_lt inside''
    have whole := fits.field_le inside'
    omega
  · rw [fts]
    exact notes

/-- What the bits of the fields say before a step. -/
theorem Shows.has (shows_ : Shows l mem s) (fits : l.Fits) :
    (∀ piece < l.npieces, Bits.has mem l.pcField piece = s.pieces piece) ∧
    ∀ piece < l.npieces, ∀ block < l.blocks,
      Bits.has mem (l.cmGetBlockField piece) block = s.blocks piece block := by
  constructor
  · intro piece inside
    have read := shows_.pieces piece inside
    rw [hasBit_eq] at read
    · exact Option.some.inj read
    · have here := l.piece_lt inside
      have whole := fits.pieces_le
      have length := shows_.length
      omega
  · intro piece inside block inside'
    have read := shows_.blocks piece inside block inside'
    rw [hasBit_eq] at read
    · exact Option.some.inj read
    · have here := fits.block_lt inside'
      have whole := fits.field_le inside
      have length := shows_.length
      omega

theorem same_bit {p i j : Nat} : (p + i / 8 = p + j / 8 ∧ i % 8 = j % 8) ↔ j = i := by omega

theorem update_eq_or {f : Nat → Bool} {i j : Nat} :
    (f j || decide (j = i)) = Function.update f i true j := by
  rw [Function.update_apply]
  by_cases same : j = i
  · simp [same]
  · simp [same]

theorem update_eq_and {f : Nat → Bool} {i j : Nat} :
    (f j && !decide (j = i)) = Function.update f i false j := by
  rw [Function.update_apply]
  by_cases same : j = i
  · simp [same]
  · simp [same]

theorem update_update_eq_or {f : Nat → Nat → Bool} {i j b c : Nat} :
    (f j c || decide (j = i ∧ c = b)) = Function.update f i (Function.update (f i) b true) j c := by
  by_cases here : j = i
  · subst here
    rw [Function.update_self, ← update_eq_or]
    simp
  · rw [Function.update_of_ne here]
    simp [here]

/-- A bit of the piece field is no bit of a block field. -/
theorem Layout.Fits.apart (fits : l.Fits) {piece piece' block : Nat}
    (inside : piece < l.npieces) (inside' : piece' < l.npieces) :
    l.pcField + piece / 8 ≠ l.cmGetBlockField piece' + block / 8 := by
  have here := l.piece_lt inside
  have there := fits.field_le inside'
  omega

theorem Shows.setPiece (shows_ : Shows l mem s) (fits : l.Fits) {piece : Nat}
    (inside : piece < l.npieces) :
    ∃ mem', (Op.setPiece piece).run l mem = some mem' ∧
      Shows l mem' ((Op.setPiece piece).apply s) := by
  have room : l.pcField + piece / 8 < mem.length := by
    have here := l.piece_lt inside
    have whole := fits.pieces_le
    have length := shows_.length
    omega
  refine ⟨_, setBit_eq room, ?_⟩
  apply shows_.bit fits (Nat.le_add_right _ _) room
  · rfl
  · intro piece' inside'
    rw [has_set room, (shows_.has fits).1 piece' inside', decide_eq_decide.mpr same_bit,
      update_eq_or]
    rfl
  · intro piece' inside' block inside''
    rw [has_set room, (shows_.has fits).2 piece' inside' block inside'',
      decide_eq_false (fun same => fits.apart inside inside' same.1), Bool.or_false]
    rfl

theorem Shows.clearPiece (shows_ : Shows l mem s) (fits : l.Fits) {piece : Nat}
    (inside : piece < l.npieces) :
    ∃ mem', (Op.clearPiece piece).run l mem = some mem' ∧
      Shows l mem' ((Op.clearPiece piece).apply s) := by
  have room : l.pcField + piece / 8 < mem.length := by
    have here := l.piece_lt inside
    have whole := fits.pieces_le
    have length := shows_.length
    omega
  refine ⟨_, clearBit_eq room, ?_⟩
  apply shows_.bit fits (Nat.le_add_right _ _) room
  · rfl
  · intro piece' inside'
    rw [has_clear room, (shows_.has fits).1 piece' inside', decide_eq_decide.mpr same_bit,
      update_eq_and]
    rfl
  · intro piece' inside' block inside''
    rw [has_clear room, (shows_.has fits).2 piece' inside' block inside'',
      decide_eq_false (fun same => fits.apart inside inside' same.1), Bool.not_false,
      Bool.and_true]
    rfl

theorem Shows.setBlock (shows_ : Shows l mem s) (fits : l.Fits) {piece block : Nat}
    (inside : piece < l.npieces) (inside' : block < l.blocks) :
    ∃ mem', (Op.setBlock piece block).run l mem = some mem' ∧
      Shows l mem' ((Op.setBlock piece block).apply s) := by
  have place := fits.field_le inside
  have byte := fits.block_lt inside'
  have room : l.cmGetBlockField piece + block / 8 < mem.length := by
    have length := shows_.length
    omega
  refine ⟨_, setBit_eq room, ?_⟩
  apply shows_.bit fits _ room
  · rfl
  · intro piece' inside''
    rw [has_set room, (shows_.has fits).1 piece' inside'',
      decide_eq_false (fun same => fits.apart inside'' inside same.1.symm), Bool.or_false]
    rfl
  · intro piece' inside'' block' within'
    have same : (l.cmGetBlockField piece + block / 8 = l.cmGetBlockField piece' + block' / 8 ∧
        block % 8 = block' % 8) ↔ piece' = piece ∧ block' = block := by
      rw [fits.field_apart inside inside'' byte (fits.block_lt within')]
      omega
    rw [has_set room, (shows_.has fits).2 piece' inside'' block' within',
      decide_eq_decide.mpr same]
    exact update_update_eq_or
  · have behind : l.pcField ≤ l.blkField := Nat.le_add_right _ _
    omega

theorem put_eq {bytes : List UInt8} (room : p + bytes.length ≤ mem.length) :
    put mem p bytes = some (overwrite mem p bytes) := if_pos room

/-- Bits of which the byte stays. -/
theorem has_eq {mem' : List UInt8} (same : mem'.getD (p + i / 8) 0 = mem.getD (p + i / 8) 0) :
    has mem' p i = has mem p i := by
  unfold has
  rw [same]

/-- Bits of a byte that is cleared. -/
theorem has_zero (zero : mem.getD (p + i / 8) 0 = 0) : has mem p i = false := by
  unfold has
  rw [zero]
  exact hasIn_zero

theorem Shows.clearBlocks (shows_ : Shows l mem s) (fits : l.Fits) {piece : Nat}
    (inside : piece < l.npieces) :
    ∃ mem', (Op.clearBlocks piece).run l mem = some mem' ∧
      Shows l mem' ((Op.clearBlocks piece).apply s) := by
  have place := fits.field_le inside
  have size := shows_.length
  have room : l.cmGetBlockField piece + (List.replicate l.bppbf (0 : UInt8)).length ≤
      mem.length := by
    rw [List.length_replicate, size]
    exact place.2
  have written : ∀ q, (overwrite mem (l.cmGetBlockField piece)
      (List.replicate l.bppbf 0)).getD q 0 =
      if l.cmGetBlockField piece ≤ q ∧ q < l.cmGetBlockField piece + l.bppbf then 0
      else mem.getD q 0 := by
    intro q
    rw [getD_overwrite room, List.length_replicate, getD_replicate_zero]
  have length := (length_overwrite room).trans size
  have behind : l.pcField ≤ l.blkField := Nat.le_add_right _ _
  refine ⟨_, put_eq room, ?_⟩
  rcases shows_.front fits (length_overwrite room) (fun q below => by
    rw [written, if_neg (by omega)]) with ⟨magic, version, notes⟩
  constructor
  · exact length
  · exact magic
  · exact version
  · intro piece' inside'
    have here := l.piece_lt inside'
    have whole := fits.pieces_le
    have same := has_eq (p := l.pcField) (i := piece')
      ((written (l.pcField + piece' / 8)).trans (if_neg (by omega)))
    rw [hasBit_eq (by omega), same, (shows_.has fits).1 piece' inside']
    rfl
  · intro piece' inside' block within
    have here := fits.block_lt within
    have there := fits.field_le inside'
    rw [hasBit_eq (by omega)]
    refine congrArg some ?_
    have byte := written (l.cmGetBlockField piece' + block / 8)
    by_cases same : piece' = piece
    · subst same
      rw [has_zero (byte.trans (if_pos (by omega)))]
      simp [Op.apply]
    · -- the byte is one of another field
      have other : ¬ (l.cmGetBlockField piece ≤ l.cmGetBlockField piece' + block / 8 ∧
          l.cmGetBlockField piece' + block / 8 < l.cmGetBlockField piece + l.bppbf) := by
        rintro ⟨low, high⟩
        rcases Nat.exists_eq_add_of_le low with ⟨r, eq⟩
        exact same ((fits.field_apart inside' inside here (by omega)).mp eq).1
      rw [has_eq (byte.trans (if_neg other)), (shows_.has fits).2 piece' inside' block within]
      simp [Op.apply, Function.update_of_ne same]
  · exact notes

/-! ## Notes -/

theorem decBe64_encBe64 {num : Nat} (lt : num < 2 ^ 64) {rest : List UInt8} :
    decBe64 (encBe64 num ++ rest) = num := by
  unfold decBe64 encBe64
  simp only [List.cons_append, List.nil_append, List.take_succ_cons, List.take_zero,
    List.foldl_cons, List.foldl_nil, UInt8.toNat_ofNat']
  omega

/-- A number that was written is read. -/
theorem decBe64_written {num : Nat} (lt : num < 2 ^ 64) (room : p + 8 ≤ mem.length) :
    decBe64 ((overwrite mem p (encBe64 num)).drop p) = num := by
  have written : encBe64 num <+: (overwrite mem p (encBe64 num)).drop p := prefix_overwrite room
  rcases written with ⟨rest, eq⟩
  rw [← eq]
  exact decBe64_encBe64 lt

theorem toInt64_written {n : Int64} (room : p + 8 ≤ mem.length) :
    (UInt64.ofNat (decBe64 ((overwrite mem p (encBe64 n.toUInt64.toNat)).drop p))).toInt64 = n := by
  rw [decBe64_written (UInt64.toNat_lt _) room, UInt64.ofNat_toNat]
  rfl

theorem Shows.setFts (shows_ : Shows l mem s) (fits : l.Fits) (inside : i < l.nfiles)
    (fts : FileTimeSize) :
    ∃ mem', (Op.setFts i fts).run l mem = some mem' ∧
      Shows l mem' ((Op.setFts i fts).apply s) := by
  have place := fits.note_le inside
  have behind : l.pcField ≤ l.blkField := Nat.le_add_right _ _
  have whole := fits.pieces_le
  have total := shows_.length
  have next : resumeFileTime i = resumeFileSize i + 8 := by
    unfold resumeFileTime resumeFileSize
    omega
  have first : resumeFileSize i + (encBe64 fts.size.toUInt64.toNat).length ≤ mem.length := by
    change resumeFileSize i + 8 ≤ _
    omega
  have length := length_overwrite first
  have second : resumeFileTime i + (encBe64 fts.mtime.toUInt64.toNat).length ≤
      (overwrite mem (resumeFileSize i) (encBe64 fts.size.toUInt64.toNat)).length := by
    change resumeFileTime i + 8 ≤ _
    omega
  have length' := (length_overwrite second).trans length
  refine ⟨_, (congrArg (Option.bind · _) (put_eq first)).trans (put_eq second), ?_⟩
  have read := fun q => getD_overwrite (q := q) second
  have read' := fun q => getD_overwrite (q := q) first
  generalize written : overwrite mem (resumeFileSize i) (encBe64 fts.size.toUInt64.toNat) = mem₁
    at *
  generalize written' : overwrite mem₁ (resumeFileTime i) (encBe64 fts.mtime.toUInt64.toNat) =
    mem₂ at *
  change ∀ q, _ = if _ ∧ q < resumeFileTime i + 8 then _ else _ at read
  change ∀ q, _ = if _ ∧ q < resumeFileSize i + 8 then _ else _ at read'
  -- the bytes of other files, of the header and of the fields stay
  have same : ∀ q, q < resumeFileSize i ∨ resumeFileTime i + 8 ≤ q →
      mem₂.getD q 0 = mem.getD q 0 := by
    intro q outside
    rw [read, if_neg (by omega), read', if_neg (by omega)]
  have head : 8 ≤ resumeFileSize i := Nat.le_add_right _ _
  rcases shows_.header length' (fun q below => same q (.inl (by omega))) with ⟨magic, version⟩
  constructor
  · exact length'.trans total
  · exact magic
  · exact version
  · intro piece inside'
    have here := l.piece_lt inside'
    have stays := has_eq (p := l.pcField) (i := piece) (same _ (.inr (by omega)))
    rw [hasBit_eq (by omega), stays, (shows_.has fits).1 piece inside']
    rfl
  · intro piece inside' block within
    have here := fits.block_lt within
    have there := fits.field_le inside'
    have stays := has_eq (p := l.cmGetBlockField piece) (i := block) (same _ (.inr (by omega)))
    rw [hasBit_eq (by omega), stays, (shows_.has fits).2 piece inside' block within]
    rfl
  · intro j inside'
    by_cases other : j = i
    · subst other
      have kept : (mem₂.drop (resumeFileSize j)).take 8 = (mem₁.drop (resumeFileSize j)).take 8 :=
        take_drop_eq (by omega) fun q above below => by rw [read, if_neg (by omega)]
      have size : (UInt64.ofNat (decBe64 (mem₂.drop (resumeFileSize j)))).toInt64 = fts.size := by
        unfold decBe64
        rw [kept, ← written]
        exact toInt64_written first
      have time : (UInt64.ofNat (decBe64 (mem₂.drop (resumeFileTime j)))).toInt64 =
          fts.mtime := by
        rw [← written']
        exact toInt64_written second
      unfold resumeGetFts
      rw [if_pos (by omega), size, time]
      simp [Op.apply]
    · have apart : resumeFileTime j + 8 ≤ resumeFileSize i ∨
          resumeFileTime i + 8 ≤ resumeFileSize j := by
        unfold resumeFileTime resumeFileSize
        omega
      rw [shows_.note length' inside' fun q above below => same q (by omega)]
      simp [Op.apply, Function.update_of_ne other]

end Btpd.Resume
