import Btpd.Content.Transfers
import Btpd.Download.State

/-!
# The content of the torrents

`struct content` with what it uses of the torrent, of the resume file and of the
download code, for every torrent of the daemon, and the queue of the torrents that are
tested.  The bit fields of pieces and blocks are those of the resume file, which stays
when the torrent is killed.
-/

namespace Btpd.Content

open Download (Torrent pieceBlocklen setBit clearBit)

/-- `struct file_time_size` -/
structure FileTimeSize where
  mtime : Nat
  size : Nat
  deriving DecidableEq, Repr

/-- `CM_INACTIVE`, `CM_STARTING` and `CM_ACTIVE` -/
inductive CmState
  | inactive | starting | active
  deriving DecidableEq, Repr

/-- A pointer to a stream: `NULL`, or to a stream that is open or has been freed. -/
inductive Ptr
  | null | live | freed
  deriving DecidableEq, Repr

/-- `struct content`.  `ptr` is the fields `rds` and `wrs`, and `resd` the sizes and
times in the resume file. -/
structure Cm where
  state : CmState
  error : Bool
  npiecesGot : Nat
  ncontentBytes : Int
  pieceField : Nat → Bool
  blockField : Nat → Nat → Bool
  posField : Nat → Bool
  ptr : Name → Ptr
  resd : Nat → FileTimeSize
  /-- What `cm_start` found of the files.  No routine reads it. -/
  found : List FileTimeSize
  /-- What was in the resume file then.  No routine reads it. -/
  recorded : Nat → FileTimeSize
  /-- How often `test_piece` has been called for a piece since the start.  No routine
  reads it. -/
  tested : Nat → Nat
  /-- How often a piece has been filled with zeros since the start.  No routine reads
  it. -/
  filled : Nat → Nat

/-- `T_STARTING`, `T_LEECH` or `T_SEED`, `T_STOPPING`, and `T_GHOST` or no torrent. -/
inductive TorrentState
  | starting | running | stopping | ghost
  deriving DecidableEq, Repr

/-- `struct piece`; of its logs only the number of those with hashes. -/
structure Piece where
  ngot : Nat
  hashed : Nat

/-- What belongs to one torrent: its state, `n->active` and `getlst` of the download
code, `struct content`, and the files with the streams. -/
structure Item where
  state : TorrentState
  active : Bool
  piece : Nat → Option Piece
  cm : Cm
  disk : Streams

/-- `struct start_test_data` -/
structure StartTestData where
  tp : Nat
  start : Nat
  fts : List FileTimeSize

/-- All torrents, `m_startq`, and whether `m_workev` is waiting. -/
structure Contents where
  item : Nat → Item
  startq : List StartTestData
  workev : Bool

/-- The ways in which the content code stops. -/
inductive CmFault
  /-- A stream stops. -/
  | stream (e : Fault)
  /-- `NULL` is used as a stream. -/
  | nullStream
  /-- A stream is used after it has been closed. -/
  | usedClosed
  /-- A stream is closed twice. -/
  | closedTwice
  /-- `cm_stop` calls itself for ever. -/
  | stuck
  /-- `m_startq` is empty in `startup_test_end`. -/
  | emptyQueue
  /-- the block is not stored yet in `cm_put_bytes` -/
  | putBlock
  /-- the piece is not verified yet in `cm_put_bytes` -/
  | putPiece
  /-- a piece that is filled with zeros in `cm_put_bytes` is not verified -/
  | putZero
  /-- `npieces_got < npieces` in `cm_test_piece` -/
  | testFull
  /-- `ngot < nblocks` in `piece_alloc` -/
  | allocFull
  /-- A number is divided by zero. -/
  | divideByZero
  deriving DecidableEq, Repr

/-- The routines whose calls are recorded. -/
inductive Fn
  | cmStop (n : Nat)
  | cmWriteDone (n : Nat)
  | cmTestPiece (n piece : Nat)
  deriving DecidableEq, Repr

/-- A routine of the content code. -/
abbrev Action := Prog Contents Fn CmFault

/-! ## Changes of the state -/

/-- Change what belongs to a torrent. -/
def Contents.setItem (s : Contents) (n : Nat) (x : Item) : Contents :=
  { s with item := Function.update s.item n x }

/-- Read what belongs to a torrent. -/
def item (n : Nat) : Action Item := do
  let s ← Prog.get
  pure (s.item n)

/-- Change what belongs to a torrent. -/
def setItem (n : Nat) (f : Item → Item) : Action Unit :=
  Prog.modify fun s => s.setItem n (f (s.item n))

/-- Read `tp->cm`. -/
def content (n : Nat) : Action Cm := do
  let x ← item n
  pure x.cm

/-- Change `tp->cm`. -/
def setContent (n : Nat) (f : Cm → Cm) : Action Unit :=
  setItem n fun x => { x with cm := f x.cm }

/-- Run a routine on the files and the streams of a torrent. -/
def onDisk {α : Type} (n : Nat) (m : Routine α) : Action α :=
  Prog.zoom (fun s => (s.item n).disk) (fun s d => s.setItem n { s.item n with disk := d })
    .stream m

section

variable {s : Contents} {n m : Nat} {x y : Item}

@[simp]
theorem Contents.setItem_self : (s.setItem n x).item n = x := Function.update_self ..

@[simp]
theorem Contents.setItem_of_ne (other : m ≠ n) : (s.setItem n x).item m = s.item m :=
  Function.update_of_ne other ..

@[simp]
theorem Contents.setItem_startq : (s.setItem n x).startq = s.startq := rfl

@[simp]
theorem Contents.setItem_workev : (s.setItem n x).workev = s.workev := rfl

@[simp]
theorem Contents.setItem_setItem : (s.setItem n x).setItem n y = s.setItem n y := by
  simp [setItem]

end

end Btpd.Content
