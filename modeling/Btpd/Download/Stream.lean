import Mathlib

/-!
# The files of a torrent as one stream

`stream.c` reads the files of a torrent as if they were one.  A stream keeps its
place twice: as an offset in the whole and as a file with an offset in it.  The
model has the lengths of the files and the places, and reports an access outside
the array of files and the failed assertion of `bts_get`.  A read of a file gives
all the bytes that are asked for.
-/

namespace Btpd.Download

/-- `struct bt_stream`; `isOpen` says that `fd` is a file. -/
structure Stream where
  files : List Nat
  tOff : Nat
  index : Nat
  fOff : Nat
  isOpen : Bool
  deriving DecidableEq

/-- How reading a stream fails. -/
inductive StreamFault
  /-- `off + len <= totlen` in `bts_get` -/
  | totlen
  /-- A file outside the array is looked at. -/
  | bounds
  deriving DecidableEq

namespace Stream

/-- `bts_open` -/
def btsOpen (files : List Nat) : Stream := ⟨files, 0, 0, 0, false⟩

/-- `bts->totlen` -/
def totlen (bts : Stream) : Nat := bts.files.sum

/-- The search loop of `bts_seek`, from the file `i` on. -/
def seekFile : (files : List Nat) → (i off : Nat) → Except StreamFault (Nat × Nat)
  | [], _, _ => .error .bounds
  | length :: files, i, off =>
      if length ≤ off then seekFile files (i + 1) (off - length) else .ok (i, off)

/-- `bts_seek` -/
def btsSeek (bts : Stream) (off : Nat) : Except StreamFault Stream :=
  if bts.tOff = off then .ok bts
  else do
    let (i, fOff) ← seekFile bts.files 0 off
    .ok { bts with
      tOff := off
      index := i
      fOff := fOff
      isOpen := bts.isOpen && i == bts.index }

/-- The loop of `bts_get` from the file `index` on, with `rest` bytes to read.  It
gives the file, the offset in it and whether it is open at the end. -/
def readFiles : (files : List Nat) → (index fOff : Nat) → (isOpen : Bool) → (rest : Nat) →
    Except StreamFault (Nat × Nat × Bool)
  | [], index, fOff, isOpen, rest =>
      if rest = 0 then .ok (index, fOff, isOpen) else .error .bounds
  | length :: files, index, fOff, isOpen, rest =>
      if rest = 0 then .ok (index, fOff, isOpen)
      else if isOpen = false ∧ length = 0 then readFiles files (index + 1) fOff false rest
      else
        let wantread := min rest (length - fOff)
        if fOff + wantread = length then
          readFiles files (index + 1) 0 false (rest - wantread)
        else .ok (index, fOff + wantread, true)

/-- `bts_get` -/
def btsGet (bts : Stream) (off len : Nat) : Except StreamFault Stream :=
  if bts.totlen < off + len then .error .totlen
  else do
    let bts ← bts.btsSeek off
    let (index, fOff, isOpen) ←
      readFiles (bts.files.drop bts.index) bts.index bts.fOff bts.isOpen len
    .ok { bts with tOff := off + len, index := index, fOff := fOff, isOpen := isOpen }

/-! ## Reads inside the files -/

/-- The two places of a stream are the same. -/
structure Sound (bts : Stream) : Prop where
  place : bts.tOff = (bts.files.take bts.index).sum + bts.fOff
  inFile : bts.fOff ≤ (bts.files.drop bts.index).headD 0

theorem sound_btsOpen {files : List Nat} : (btsOpen files).Sound :=
  ⟨rfl, Nat.zero_le _⟩

/-- The search stays within the files when the offset does. -/
theorem seekFile_ok {files : List Nat} {off : Nat} (i : Nat) (inside : off < files.sum) :
    ∃ k fOff, seekFile files i off = .ok (i + k, fOff) ∧ k < files.length ∧
      off = (files.take k).sum + fOff ∧ fOff ≤ (files.drop k).headD 0 := by
  induction files generalizing i off with
  | nil => cases inside
  | cons length files ih =>
      rw [List.sum_cons] at inside
      unfold seekFile
      split
      · rename_i beyond
        obtain ⟨k, fOff, found, within, place, inFile⟩ := ih (i + 1) (by omega :
          off - length < files.sum)
        refine ⟨k + 1, fOff, ?_, Nat.succ_lt_succ within, ?_, inFile⟩
        · rw [found, Nat.add_right_comm, Nat.add_assoc]
        · rw [List.take_succ_cons, List.sum_cons]
          omega
      · rename_i here
        exact ⟨0, off, rfl, Nat.zero_lt_succ _, (Nat.zero_add off).symm,
          Nat.le_of_lt (Nat.lt_of_not_le here)⟩

/-- Reading stays within the files when enough bytes are left. -/
theorem readFiles_ok {files : List Nat} {fOff rest : Nat} (index : Nat) (isOpen : Bool)
    (inFile : fOff ≤ files.headD 0) (fits : fOff + rest ≤ files.sum) :
    ∃ k fOff' isOpen', readFiles files index fOff isOpen rest = .ok (index + k, fOff', isOpen') ∧
      fOff + rest = (files.take k).sum + fOff' ∧ fOff' ≤ (files.drop k).headD 0 := by
  induction files generalizing index fOff isOpen rest with
  | nil =>
      obtain ⟨rfl, rfl⟩ := Nat.add_eq_zero_iff.mp (Nat.le_zero.mp fits)
      exact ⟨0, 0, isOpen, rfl, rfl, inFile⟩
  | cons length files ih =>
      rw [List.sum_cons] at fits
      rw [List.headD_cons] at inFile
      unfold readFiles
      split
      · rename_i none
        exact ⟨0, fOff, isOpen, rfl, by rw [none]; simp, inFile⟩
      split
      · rename_i empty
        obtain ⟨-, empty⟩ := empty
        obtain ⟨k, fOff', isOpen', read, place, inFile'⟩ := ih (index + 1) false
          (show fOff ≤ files.headD 0 by omega) (show fOff + rest ≤ files.sum by omega)
        refine ⟨k + 1, fOff', isOpen', ?_, ?_, inFile'⟩
        · rw [read, Nat.add_right_comm, Nat.add_assoc]
        · rw [List.take_succ_cons, List.sum_cons]
          omega
      dsimp only
      split
      · rename_i ends
        obtain ⟨k, fOff', isOpen', read, place, inFile'⟩ := ih (index + 1) false
          (Nat.zero_le _) (show 0 + (rest - min rest (length - fOff)) ≤ files.sum by omega)
        refine ⟨k + 1, fOff', isOpen', ?_, ?_, inFile'⟩
        · rw [read, Nat.add_right_comm, Nat.add_assoc]
        · rw [List.take_succ_cons, List.sum_cons]
          omega
      · refine ⟨0, _, true, rfl, ?_, ?_⟩
        · simp
          omega
        · rw [List.drop_zero, List.headD_cons]
          omega

theorem Sound.seek {bts : Stream} {off : Nat} (sound : bts.Sound) (inside : off < bts.totlen) :
    ∃ bts', bts.btsSeek off = .ok bts' ∧ bts'.Sound ∧ bts'.files = bts.files ∧ bts'.tOff = off := by
  unfold btsSeek
  split
  · rename_i here
    exact ⟨bts, rfl, sound, rfl, here⟩
  · obtain ⟨k, fOff, found, -, place, inFile⟩ := seekFile_ok 0 inside
    rw [found, Nat.zero_add]
    exact ⟨_, rfl, ⟨place, inFile⟩, rfl, rfl⟩

/-- Bytes that lie in the files are read without leaving the array. -/
theorem Sound.get {bts : Stream} {off len : Nat} (sound : bts.Sound) (some : 0 < len)
    (fits : off + len ≤ bts.totlen) :
    ∃ bts', bts.btsGet off len = .ok bts' ∧ bts'.Sound ∧ bts'.files = bts.files := by
  obtain ⟨bts₁, sought, sound₁, filesEq, tOffEq⟩ :=
    sound.seek (by omega : off < bts.totlen)
  have left : (bts₁.files.take bts₁.index).sum + (bts₁.files.drop bts₁.index).sum = bts.totlen := by
    rw [← List.sum_append, List.take_append_drop, filesEq]
    rfl
  have place := sound₁.place
  obtain ⟨k, fOff, isOpen, read, place', inFile⟩ := readFiles_ok bts₁.index bts₁.isOpen
    sound₁.inFile (show bts₁.fOff + len ≤ (bts₁.files.drop bts₁.index).sum by omega)
  refine ⟨{ bts₁ with tOff := off + len, index := bts₁.index + k, fOff := fOff, isOpen := isOpen },
    ?_, ⟨?_, ?_⟩, filesEq⟩
  · rw [btsGet, if_neg (by omega), sought]
    show (readFiles (bts₁.files.drop bts₁.index) bts₁.index bts₁.fOff bts₁.isOpen len >>= _) = _
    rw [read]
    rfl
  · show off + len = (bts₁.files.take (bts₁.index + k)).sum + fOff
    rw [List.take_add, List.sum_append]
    omega
  · show fOff ≤ (bts₁.files.drop (bts₁.index + k)).headD 0
    rw [← List.drop_drop]
    exact inFile

end Stream

end Btpd.Download
