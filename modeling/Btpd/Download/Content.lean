import Btpd.Download.Peer

/-!
# The content of the torrent

What the download code does to the stored content: the bit fields of the
verified pieces, the stored blocks and the allocated pieces, and the bytes
themselves.  No operation fails with an I/O error here.
-/

namespace Btpd.Download

namespace Content

/-- What `bts_get` reads. -/
def read (cm : Content) (t : Torrent) (off len : Nat) : List UInt8 :=
  (List.range len).map fun k => cm.data (t.place (off + k))

/-- What `bts_put` writes, byte after byte, to the files at whose paths the bytes are. -/
def write (cm : Content) (t : Torrent) (off : Nat) : List UInt8 → Content
  | [] => cm
  | b :: buf => write { cm with data := Function.update cm.data (t.place off) b } t (off + 1) buf

/-- What `cm_get_bytes` reads, when the read does not fail. -/
def readBlock (cm : Content) (t : Torrent) (piece begin len : Nat) : List UInt8 :=
  cm.read t (piece * t.pieceLength + begin) len

@[simp]
theorem write_npiecesGot {cm : Content} {t : Torrent} {off : Nat} {buf : List UInt8} :
    (cm.write t off buf).npiecesGot = cm.npiecesGot := by
  induction buf generalizing cm off with
  | nil => rfl
  | cons b buf ih => exact ih

@[simp]
theorem write_pieceField {cm : Content} {t : Torrent} {off : Nat} {buf : List UInt8} :
    (cm.write t off buf).pieceField = cm.pieceField := by
  induction buf generalizing cm off with
  | nil => rfl
  | cons b buf ih => exact ih

/-- The number of stored blocks among the first `nblocks` of a piece. -/
def blocksGot (cm : Content) (piece nblocks : Nat) : Nat :=
  (List.range nblocks).countP (cm.blockField piece)

end Content

/-- The content after `startup_test_end`, given the bit fields the tests and the
resume data leave: a piece whose blocks are all stored and that is not verified
loses them, and a piece with a stored block or a verified piece is allocated. -/
def startupTestEnd (t : Torrent) (pieceField : Nat → Bool) (blockField : Nat → Nat → Bool)
    (data : Option Nat × Nat → UInt8) : Content :=
  let got piece := (List.range (t.torrentPieceBlocks piece)).countP (blockField piece)
  let whole piece := got piece = t.torrentPieceBlocks piece
  { npiecesGot := (List.range t.npieces).countP pieceField
    pieceField := pieceField
    blockField := fun piece block =>
      blockField piece block &&
        !decide (piece < t.npieces ∧ pieceField piece = false ∧ whole piece)
    posField := fun piece =>
      decide (piece < t.npieces ∧
        (pieceField piece = true ∨ (¬ whole piece ∧ 0 < got piece)))
    data := data }

/-- `cm_prealloc` -/
def cmPrealloc (t : Torrent) (piece : Nat) : Routine Unit :=
  Prog.modify fun n =>
    if t.cmAllocSize = 0 then { n with cm.posField := setBit n.cm.posField piece } else n

/-- One turn of the loop of `cm_put_bytes` that fills the pieces allocated
together with zeros. -/
def cmFillZeros (t : Torrent) (start : Nat) : Routine Unit := do
  let n ← Prog.get
  if n.cm.posField start then pure ()
  else do
    Prog.assert (n.cm.pieceField start = false) .putZero
    Prog.modify fun n => { n with
      cm := n.cm.write t (t.pieceLength * start)
        (List.replicate (t.torrentPieceSize start).toNat 0) }
    Prog.modify fun n => { n with cm.posField := setBit n.cm.posField start }

/-- The part of `cm_put_bytes` that fills the pieces around `piece` with zeros. -/
def cmAllocate (t : Torrent) (piece : Nat) : Routine Unit := do
  let npieces := (t.cmAllocSize + (t.pieceLength - 1)) / t.pieceLength
  Prog.assert (npieces ≠ 0) .divideByZero
  let start := piece - piece % npieces
  let stop := min (start + npieces) t.npieces
  Prog.forEach (List.range' start (stop - start)) (cmFillZeros t)

/-- `cm_put_bytes` -/
def cmPutBytes (t : Torrent) (piece begin : Nat) (buf : List UInt8) : Routine Unit := do
  let n ← Prog.get
  Prog.assert (n.cm.blockField piece (begin / pieceBlocklen) = false) .putBlock
  Prog.assert (n.cm.pieceField piece = false) .putPiece
  Prog.when (n.cm.posField piece = false) (cmAllocate t piece)
  Prog.modify fun n => { n with cm := n.cm.write t (piece * t.pieceLength + begin) buf }
  Prog.modify fun n => { n with
    cm.blockField := Function.update n.cm.blockField piece
      (setBit (n.cm.blockField piece) (begin / pieceBlocklen)) }

end Btpd.Download
