import Btpd.Input.Parser
import Btpd.Download.State
import Btpd.Library.Bits
import Btpd.Content.Machine
import Mathlib

/-!
# The resume file

What is known of the content of a torrent survives in `torrents/<hash>/resume`: the size and the
time of each file, the field of the pieces, and for each piece a field of its blocks.  The file is
mapped into memory, so its bytes are the memory; an access outside the mapping is `none`.

The sizes are computed in `unsigned` and in `size_t`, and the length of a block field in `double`.
Nothing in `mi_test` keeps them in range: a piece length of `2 ^ 63 - 1` with `2 ^ 18` hashes
passes it, and the block fields of that torrent take no byte of the file.
-/

namespace Btpd.Resume

open Bits
open Input (decBe32)
open Download (encBe32)
open Machine (toDouble ceilDiv)

/-- `struct file_time_size` -/
structure FileTimeSize where
  size : Int64
  mtime : Int64
  deriving DecidableEq, Repr

/-- What `cm_create` opens the file for. -/
structure Layout where
  nfiles : Nat
  npieces : Nat
  pieceLength : Nat

namespace Layout

variable (l : Layout)

/-- `ceil(npieces / 8.0)` -/
def pfsize : Nat := (l.npieces + 7) / 8

/-- `cm->bppbf`, the bytes of a block field -/
def bppbf : Nat := (ceilDiv (toDouble l.pieceLength) (2 ^ 17)).toNat

/-- `cm->bppbf * tp->npieces` -/
def bfsize : Nat := l.bppbf * l.npieces % 2 ^ 64

/-- `resd->size`; the number of files is an `unsigned`. -/
def size : Nat := ((8 + l.nfiles * 16) % 2 ^ 32 + l.pfsize + l.bfsize) % 2 ^ 64

/-- `resd->pc_field` -/
def pcField : Nat := 8 + l.nfiles * 16 % 2 ^ 32

/-- `resd->blk_field` -/
def blkField : Nat := l.pcField + l.pfsize

/-- `cm_get_block_field` -/
def cmGetBlockField (piece : Nat) : Nat := l.blkField + piece * l.bppbf % 2 ^ 64

/-- No size wraps, no place of a file is too large for an `int`, and the piece length is a
`double`. -/
structure Fits : Prop where
  files : l.nfiles ≤ 2 ^ 27
  length : l.pieceLength ≤ 2 ^ 53
  whole : 8 + l.nfiles * 16 + l.pfsize + l.bppbf * l.npieces < 2 ^ 64

-- the mapping ends with the piece field, whose bits are all that the file has room for
example : Layout.size ⟨1, 2 ^ 18, 2 ^ 63 - 1⟩ = 8 + 16 + 2 ^ 15 := by decide

end Layout

/-- `resume_file_size` -/
def resumeFileSize (i : Nat) : Nat := 8 + 16 * i

/-- `resume_file_time` -/
def resumeFileTime (i : Nat) : Nat := 16 + 16 * i

/-! ## subr.c -/

/-- `enc_be64` -/
def encBe64 (num : Nat) : List UInt8 :=
  [.ofNat (num / 2 ^ 56), .ofNat (num / 2 ^ 48), .ofNat (num / 2 ^ 40), .ofNat (num / 2 ^ 32),
    .ofNat (num / 2 ^ 24), .ofNat (num / 2 ^ 16), .ofNat (num / 2 ^ 8), .ofNat num]

/-- `dec_be64` -/
def decBe64 (buf : List UInt8) : Nat :=
  (buf.take 8).foldl (fun n b => n * 256 + b.toNat) 0

/-- `set_bit` -/
def setBit (mem : List UInt8) (bits index : Nat) : Option (List UInt8) :=
  (mem[bits + index / 8]?).map fun byte => mem.set (bits + index / 8) (byte ||| mask index)

/-- `clear_bit` -/
def clearBit (mem : List UInt8) (bits index : Nat) : Option (List UInt8) :=
  (mem[bits + index / 8]?).map fun byte => mem.set (bits + index / 8) (byte &&& ~~~mask index)

/-- `has_bit` -/
def hasBit (mem : List UInt8) (bits index : Nat) : Option Bool :=
  (mem[bits + index / 8]?).map fun byte => byte &&& mask index != 0

/-- A write of some bytes. -/
def put (mem : List UInt8) (p : Nat) (bytes : List UInt8) : Option (List UInt8) :=
  if p + bytes.length ≤ mem.length then some (overwrite mem p bytes) else none

/-- `bzero` -/
def bzero (mem : List UInt8) (p n : Nat) : Option (List UInt8) := put mem p (List.replicate n 0)

/-! ## tlib.c -/

/-- A file with the place at which it is written. -/
structure Fd where
  bytes : List UInt8
  pos : Nat

/-- `write` -/
def Fd.write (fd : Fd) (buf : List UInt8) : Fd :=
  ⟨overwrite fd.bytes fd.pos buf, fd.pos + buf.length⟩

/-- The loop of `init_resume`.  Each `write` takes some of the bytes that it is given, at least
one of them, so there are no more turns than bytes. -/
def initZeros (takes : Nat → Nat) : (turns size : Nat) → Fd → Fd
  | 0, _, fd => fd
  | turns + 1, size, fd =>
      if size = 0 then fd
      else
        let nw := min (max 1 (takes size)) (min 1024 size)
        initZeros takes turns (size - nw) (fd.write (List.replicate nw 0))

/-- `"RESD"` -/
def magic : List UInt8 := [82, 69, 83, 68]

/-- `init_resume` -/
def initResume (takes : Nat → Nat) (size : Nat) (fd : Fd) : Fd :=
  initZeros takes (size - 8) (size - 8) ((fd.write magic).write (encBe32 2))

/-- `tlib_open_resume`: what the file holds when it is mapped.  It is empty when there is none. -/
def tlibOpenResume (l : Layout) (takes : Nat → Nat) (file : List UInt8) : List UInt8 :=
  let fd := if file.length ≠ l.size then initResume takes l.size ⟨[], 0⟩ else ⟨file, 0⟩
  if fd.bytes.take 4 ≠ magic ∨ decBe32 (fd.bytes.drop 4) ≠ 2 then
    (initResume takes l.size fd).bytes
  else fd.bytes

/-- `resume_set_fts` -/
def resumeSetFts (mem : List UInt8) (i : Nat) (fts : FileTimeSize) : Option (List UInt8) := do
  let mem ← put mem (resumeFileSize i) (encBe64 fts.size.toUInt64.toNat)
  put mem (resumeFileTime i) (encBe64 fts.mtime.toUInt64.toNat)

/-- `resume_get_fts` -/
def resumeGetFts (mem : List UInt8) (i : Nat) : Option FileTimeSize :=
  if resumeFileTime i + 8 ≤ mem.length then
    some ⟨(UInt64.ofNat (decBe64 (mem.drop (resumeFileSize i)))).toInt64,
      (UInt64.ofNat (decBe64 (mem.drop (resumeFileTime i)))).toInt64⟩
  else none

/-! ## content.c -/

/-- What the content of a torrent does with its resume data: it marks a piece as verified or not,
a block as stored, forgets the blocks of a piece, and notes what it has seen of a file.  It also
ends and starts again. -/
inductive Op
  | setPiece (piece : Nat)
  | clearPiece (piece : Nat)
  | setBlock (piece block : Nat)
  | clearBlocks (piece : Nat)
  | setFts (i : Nat) (fts : FileTimeSize)
  | reopen (takes : Nat → Nat)

/-- The bytes after an operation. -/
def Op.run (l : Layout) (mem : List UInt8) : Op → Option (List UInt8)
  | .setPiece piece => setBit mem l.pcField piece
  | .clearPiece piece => clearBit mem l.pcField piece
  | .setBlock piece block => setBit mem (l.cmGetBlockField piece) block
  | .clearBlocks piece => bzero mem (l.cmGetBlockField piece) l.bppbf
  | .setFts i fts => resumeSetFts mem i fts
  | .reopen takes => some (tlibOpenResume l takes mem)

/-- The number of blocks in a piece of full length. -/
def Layout.blocks (l : Layout) : Nat := (l.pieceLength + (2 ^ 14 - 1)) / 2 ^ 14

/-- The operation is about a piece, a block or a file of the torrent. -/
def Op.Inside (l : Layout) : Op → Prop
  | .setPiece piece | .clearPiece piece | .clearBlocks piece => piece < l.npieces
  | .setBlock piece block => piece < l.npieces ∧ block < l.blocks
  | .setFts i _ => i < l.nfiles
  | .reopen _ => True

end Btpd.Resume
