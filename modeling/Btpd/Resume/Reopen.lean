import Btpd.Resume.Kept
import Mathlib

/-!
# The resume file over its uses

A file that is not one of this torrent is written afresh when it is opened.  Whatever is then done
with it, also ending and starting again, it stands for all of what was done.
-/

namespace Btpd.Resume

open Bits
open Input (decBe32)
open Download (encBe32)

variable {l : Layout} {mem file : List UInt8} {takes : Nat → Nat}

/-- A file in which nothing is noted. -/
def fresh (l : Layout) : List UInt8 := magic ++ (encBe32 2 ++ List.replicate (l.size - 8) 0)

/-- The file is taken as it is. -/
def Usable (l : Layout) (file : List UInt8) : Prop :=
  file.length = l.size ∧ file.take 4 = magic ∧ decBe32 (file.drop 4) = 2

instance : Decidable (Usable l file) := inferInstanceAs (Decidable (_ ∧ _))

/-- What a file stands for that is taken as it is. -/
def Saved.read (l : Layout) (file : List UInt8) : Saved where
  pieces := has file l.pcField
  blocks piece := has file (l.cmGetBlockField piece)
  fts i := (resumeGetFts file i).getD ⟨0, 0⟩

/-- What a file stands for in which nothing is noted. -/
def Saved.nothing : Saved where
  pieces _ := false
  blocks _ _ := false
  fts _ := ⟨0, 0⟩

/-- What a torrent starts from. -/
def Saved.initially (l : Layout) (file : List UInt8) : Saved :=
  if Usable l file then .read l file else .nothing

/-! ## Writing afresh -/

/-- The bytes after the loop: what stood before its place, then zeros. -/
theorem bytes_initZeros {turns size : Nat} {fd : Fd} (enough : size ≤ turns)
    (inside : fd.pos ≤ fd.bytes.length) (room : fd.bytes.length ≤ fd.pos + size) :
    (initZeros takes turns size fd).bytes = fd.bytes.take fd.pos ++ List.replicate size 0 := by
  induction turns generalizing size fd with
  | zero =>
      have none_left : size = 0 := by omega
      subst none_left
      have whole : fd.bytes.length ≤ fd.pos := room
      rw [List.replicate_zero, List.append_nil, List.take_of_length_le whole]
      rfl
  | succ turns ih =>
      unfold initZeros
      split
      case isTrue none_left =>
        subst none_left
        have whole : fd.bytes.length ≤ fd.pos := room
        rw [List.replicate_zero, List.append_nil, List.take_of_length_le whole]
      case isFalse some_left =>
        dsimp only
        generalize count : min (max 1 (takes size)) (min 1024 size) = nw
        have pos : 0 < nw := by omega
        have le : nw ≤ size := by omega
        have start : (fd.bytes.take fd.pos).length = fd.pos := List.length_take_of_le inside
        have bytes : (fd.write (List.replicate nw 0)).bytes =
            fd.bytes.take fd.pos ++ (List.replicate nw 0 ++ fd.bytes.drop (fd.pos + nw)) := by
          simp [Fd.write, overwrite]
        have place : (fd.write (List.replicate nw 0)).pos = fd.pos + nw := by
          simp [Fd.write]
        rw [ih (by omega) (by rw [bytes, place]; simp; omega)
          (by rw [bytes, place]; simp; omega), bytes, place, ← List.append_assoc,
          List.take_left' (by simp [start]), List.append_assoc, ← List.replicate_add,
          Nat.add_sub_cancel' le]

theorem header_le (fits : l.Fits) : 8 ≤ l.size := by
  rw [fits.size_eq]
  omega

theorem bytes_initResume (fits : l.Fits) (room : file.length ≤ l.size) :
    (initResume takes l.size ⟨file, 0⟩).bytes = fresh l := by
  have header := header_le fits
  have bytes : ((Fd.write ⟨file, 0⟩ magic).write (encBe32 2)).bytes =
      (magic ++ encBe32 2) ++ file.drop 8 := by
    simp [Fd.write, overwrite, magic, encBe32]
  have place : ((Fd.write ⟨file, 0⟩ magic).write (encBe32 2)).pos = 8 := rfl
  have length : (magic ++ encBe32 2).length = 8 := rfl
  unfold initResume
  rw [bytes_initZeros le_rfl, bytes, place, List.take_left' length, List.append_assoc]
  · rfl
  · rw [bytes, place, List.length_append, length]
    omega
  · rw [bytes, place, List.length_append, length, List.length_drop]
    omega

theorem length_fresh {n : Nat} (header : 8 ≤ n) :
    (magic ++ (encBe32 2 ++ List.replicate (n - 8) 0)).length = n := by
  simp [magic, encBe32]
  omega

/-- Behind the header there are zeros. -/
theorem drop_fresh {n q : Nat} (behind : 8 ≤ q) :
    (magic ++ (encBe32 2 ++ List.replicate (n - 8) 0)).drop q = List.replicate (n - q) 0 := by
  have eq : q = 8 + (q - 8) := by omega
  rw [eq, ← List.drop_drop]
  change (List.replicate (n - 8) 0).drop (q - 8) = _
  rw [List.drop_replicate]
  congr 1
  omega

theorem usable_fresh (fits : l.Fits) : Usable l (fresh l) := by
  constructor
  · exact length_fresh (header_le fits)
  · constructor
    · rfl
    · simp [fresh, magic, encBe32, decBe32]

/-- Opening a file takes it as it is or writes it afresh. -/
theorem tlibOpenResume_eq (fits : l.Fits) :
    tlibOpenResume l takes file = if Usable l file then file else fresh l := by
  have header : ∀ fd : Fd, fd.bytes.length = l.size →
      ((fd.bytes.take 4 ≠ magic ∨ decBe32 (fd.bytes.drop 4) ≠ 2) ↔ ¬ Usable l fd.bytes) := by
    intro fd length
    unfold Usable
    tauto
  unfold tlibOpenResume
  by_cases length : file.length = l.size
  · rw [if_neg (not_not.mpr length)]
    dsimp only
    by_cases usable : Usable l file
    · rw [if_neg (fun wrong => (header ⟨file, 0⟩ length).mp wrong usable), if_pos usable]
    · rw [if_pos ((header ⟨file, 0⟩ length).mpr usable), if_neg usable,
        bytes_initResume fits length.le]
  · have empty : ([] : List UInt8).length ≤ l.size := Nat.zero_le _
    have written : (initResume takes l.size ⟨[], 0⟩).bytes = fresh l :=
      bytes_initResume fits empty
    have other : ¬ Usable l file := fun usable => length usable.1
    rw [if_pos length, if_neg other]
    dsimp only
    rw [written]
    apply if_neg
    rintro (wrong | wrong)
    · exact wrong (usable_fresh fits).2.1
    · exact wrong (usable_fresh fits).2.2

/-- A file that shows something is taken as it is. -/
theorem Shows.reopen {s : Saved} (shows_ : Shows l mem s) (fits : l.Fits) :
    tlibOpenResume l takes mem = mem := by
  rw [tlibOpenResume_eq fits, if_pos ⟨shows_.length, shows_.magic, shows_.version⟩]

/-! ## Starting -/

theorem shows_read (fits : l.Fits) (usable : Usable l mem) : Shows l mem (.read l mem) := by
  have length := usable.1
  constructor
  · exact length
  · exact usable.2.1
  · exact usable.2.2
  · intro piece inside
    have here := l.piece_lt inside
    have whole := fits.pieces_le
    exact hasBit_eq (by omega)
  · intro piece inside block within
    have here := fits.block_lt within
    have whole := fits.field_le inside
    exact hasBit_eq (by omega)
  · intro i inside
    have here := fits.note_le inside
    have behind : l.pcField ≤ l.blkField := Nat.le_add_right _ _
    have whole := fits.pieces_le
    have room : resumeFileTime i + 8 ≤ mem.length := by omega
    unfold Saved.read resumeGetFts
    simp [room]

theorem decBe64_zeros {n : Nat} {zeros : List UInt8} (only : ∀ byte ∈ zeros, byte = 0) :
    (zeros.take n).foldl (fun n b => n * 256 + b.toNat) 0 = 0 := by
  induction n generalizing zeros with
  | zero => rfl
  | succ n ih =>
      cases zeros with
      | nil => rfl
      | cons byte zeros =>
          have zero := only byte (.head _)
          subst zero
          exact ih fun byte member => only byte (.tail _ member)

theorem shows_fresh (fits : l.Fits) : Shows l (fresh l) .nothing := by
  have behind : ∀ {q}, 8 ≤ q → (fresh l).drop q = List.replicate (l.size - q) 0 := drop_fresh
  have read := shows_read fits (usable_fresh fits)
  have zero : ∀ {q}, 8 ≤ q → (fresh l).getD q 0 = 0 := by
    intro q above
    have same := congrArg (List.getD · 0 0) (behind above)
    simpa [List.getD_eq_getElem?_getD, getD_replicate_zero] using same
  have head : 8 ≤ l.pcField := Nat.le_add_right _ _
  constructor
  · exact read.length
  · exact read.magic
  · exact read.version
  · intro piece inside
    rw [read.pieces piece inside]
    exact congrArg some (has_zero (zero (by omega)))
  · intro piece inside block within
    have place := fits.field_le inside
    have first : l.pcField ≤ l.blkField := Nat.le_add_right _ _
    rw [read.blocks piece inside block within]
    exact congrArg some (has_zero (zero (by omega)))
  · intro i inside
    have number : ∀ {q}, 8 ≤ q → decBe64 ((fresh l).drop q) = 0 := by
      intro q above
      rw [behind above]
      exact decBe64_zeros fun byte member => List.eq_of_mem_replicate member
    have room : resumeFileTime i + 8 ≤ (fresh l).length := by
      have here := fits.note_le inside
      have first : l.pcField ≤ l.blkField := Nat.le_add_right _ _
      have whole := fits.pieces_le
      rw [read.length]
      omega
    unfold resumeGetFts
    have size : 8 ≤ resumeFileSize i := Nat.le_add_right _ _
    have time : 8 ≤ resumeFileTime i := Nat.le_add_right_of_le (by decide)
    rw [if_pos room, number size, number time]
    simp [Saved.nothing]

theorem shows_initially (fits : l.Fits) :
    Shows l (tlibOpenResume l takes file) (.initially l file) := by
  rw [tlibOpenResume_eq fits]
  unfold Saved.initially
  split
  case isTrue usable => exact shows_read fits usable
  case isFalse => exact shows_fresh fits

/-! ## Runs -/

/-- One operation. -/
theorem Shows.run {s : Saved} (shows_ : Shows l mem s) (fits : l.Fits) {op : Op}
    (inside : op.Inside l) :
    ∃ mem', op.run l mem = some mem' ∧ Shows l mem' (op.apply s) := by
  cases op with
  | setPiece piece => exact shows_.setPiece fits inside
  | clearPiece piece => exact shows_.clearPiece fits inside
  | setBlock piece block => exact shows_.setBlock fits inside.1 inside.2
  | clearBlocks piece => exact shows_.clearBlocks fits inside
  | setFts i fts => exact shows_.setFts fits inside fts
  | reopen takes => exact ⟨_, congrArg some (shows_.reopen fits), shows_⟩

theorem Shows.runs {s : Saved} (shows_ : Shows l mem s) (fits : l.Fits) {ops : List Op}
    (inside : ∀ op ∈ ops, op.Inside l) :
    ∃ mem', ops.foldlM (Op.run l) mem = some mem' ∧ Shows l mem' (ops.foldl Op.apply s) := by
  induction ops generalizing mem s with
  | nil => exact ⟨mem, rfl, shows_⟩
  | cons op ops ih =>
      rcases shows_.run fits (inside op (.head _)) with ⟨mem₁, ran, shows₁⟩
      rcases ih shows₁ fun op member => inside op (.tail _ member) with ⟨mem₂, ran', shows₂⟩
      refine ⟨mem₂, ?_, shows₂⟩
      rw [List.foldlM_cons, ran]
      exact ran'

/-- As long as no size wraps: whatever the file held, no operation on a piece, a block or a file
of the torrent leaves the mapping, and what is then read of the pieces, the blocks and the files
is what all of them did to what the file held at first, if it was one of this torrent, and to
nothing otherwise.  Opening it again leaves every byte as it is. -/
theorem shows_of_run (l : Layout) (fits : l.Fits) (takes : Nat → Nat) (file : List UInt8)
    (ops : List Op) (inside : ∀ op ∈ ops, op.Inside l) :
    ∃ mem, ops.foldlM (Op.run l) (tlibOpenResume l takes file) = some mem ∧
      Shows l mem (ops.foldl Op.apply (.initially l file)) ∧
      ∀ takes', tlibOpenResume l takes' mem = mem := by
  rcases (shows_initially fits).runs fits inside with ⟨mem, ran, shows_⟩
  exact ⟨mem, ran, shows_, fun _ => shows_.reopen fits⟩

/-- The second block of the last piece of nine is stored, the files are noted, and the program
ends and starts again. -/
theorem shows_of_run_lastPiece :
    ∃ mem, [Op.setBlock 8 1, .setFts 0 ⟨294912, 1700000000⟩, .setPiece 8, .reopen fun _ => 1,
        .clearBlocks 7, .clearPiece 0].foldlM (Op.run ⟨1, 9, 32768⟩)
          (tlibOpenResume ⟨1, 9, 32768⟩ (fun _ => 1) []) = some mem ∧
      hasBit mem 24 8 = some true ∧ hasBit mem 34 1 = some true ∧
      hasBit mem 34 0 = some false ∧ resumeGetFts mem 0 = some ⟨294912, 1700000000⟩ := by
  rcases shows_of_run ⟨1, 9, 32768⟩ ⟨by decide, by decide, by decide⟩ (fun _ => 1) []
    [.setBlock 8 1, .setFts 0 ⟨294912, 1700000000⟩, .setPiece 8, .reopen fun _ => 1,
      .clearBlocks 7, .clearPiece 0]
    (by simp [Op.Inside, Layout.blocks]) with ⟨mem, ran, shows_, -⟩
  refine ⟨mem, ran, ?_, ?_, ?_, ?_⟩
  · exact shows_.pieces 8 (by decide)
  · exact shows_.blocks 8 (by decide) 1 (by decide)
  · exact shows_.blocks 8 (by decide) 0 (by decide)
  · exact shows_.fts 0 (by decide)

end Btpd.Resume
