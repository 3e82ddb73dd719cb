import Btpd.Content.State

/-!
# The content code

The routines of `content.c`, with what calls them: the start, the ticks and the stop of
a torrent, the timer that tests pieces, and of the download code a new piece, a block
that has arrived and a block that is asked for.
-/

namespace Btpd.Content

open Prog
open Download (Torrent pieceBlocklen setBit clearBit)

variable (t : Nat → Torrent)

/-! ## Streams and files -/

/-- The file system answers for one file: the file is created if it is absent, and cut
off if it is too long. -/
def statFile (i length : Nat) : Routine (Except Errno FileTimeSize) := do
  let c ← choose
  if c.fails then pure (.error c.errno)
  else do
    let s ← get
    let f := (s.file i).truncate length
    modify fun s => s.setFile i f
    pure (.ok ⟨c.count, f.size⟩)

/-- `stat_and_adjust`: what has been found, and the error that ended it. -/
def statAndAdjust : List Nat → Nat → Routine (List FileTimeSize × Option Errno)
  | [], _ => pure ([], none)
  | length :: lengths, i => do
      let r ← statFile i length
      match r with
      | .error e => pure ([], some e)
      | .ok fts => do
          let r ← statAndAdjust lengths (i + 1)
          pure (fts :: r.1, r.2)

/-- What an array holds where nothing has been written. -/
def junk : Routine FileTimeSize := do
  let c ← choose
  pure ⟨c.errno, c.count⟩

/-- Change `rds` or `wrs`. -/
def setPtr (n : Nat) (b : Name) (p : Ptr) : Action Unit :=
  setContent n fun cm => { cm with ptr := Function.update cm.ptr b p }

/-- Open a stream. -/
def openStream (n : Nat) (b : Name) : Action (Option Errno) := do
  let err ← onDisk n (btsOpen b)
  match err with
  | some e => pure (some e)
  | none => do
      setPtr n b .live
      pure none

/-- Close a stream. -/
def closeStream (n : Nat) (b : Name) : Action (Option Errno) := do
  let cm ← content n
  match cm.ptr b with
  | .null => fault .nullStream
  | .freed => fault .closedTwice
  | .live => do
      let err ← onDisk n (btsClose b)
      setPtr n b .freed
      pure err

/-- Use a stream. -/
def useStream {α : Type} (n : Nat) (b : Name) (m : Routine α) : Action α := do
  let cm ← content n
  match cm.ptr b with
  | .null => fault .nullStream
  | .freed => fault .usedClosed
  | .live => onDisk n m

/-! ## Stopping -/

/-- `cm_save` -/
def cmSave (n : Nat) : Action Unit := do
  let fts ← onDisk n (statAndAdjust (t n).files 0)
  let rest ← onDisk n junk
  setContent n fun cm => { cm with
    resd := fun i => if i < (t n).files.length then fts.1.getD i rest else cm.resd i }

/-- `cm_on_error`, where `stop` is `cm_stop`. -/
def cmOnErrorBy (stop : Action Unit) (n : Nat) : Action Unit := do
  let cm ← content n
  when (cm.error = false) do
    setContent n fun cm => { cm with error := true }
    stop

/-- `cm_write_done`, where `stop` is `cm_stop`. -/
def cmWriteDoneBy (stop : Action Unit) (n : Nat) : Action Unit :=
  call (.cmWriteDone n) do
    let err ← closeStream n .wrs
    setPtr n .wrs .null
    let cm ← content n
    when (err.isSome ∧ cm.error = false) (cmOnErrorBy stop n)
    let cm ← content n
    when (cm.error = false) (cmSave t n)

/-- Take the torrent off `m_startq`. -/
def dequeue (n : Nat) : Action Unit :=
  modify fun s => { s with startq := s.startq.eraseP fun std => std.tp = n }

/-- `cm_stop` calls itself through `cm_write_done` and `cm_on_error`, so many times at
most. -/
def cmStopBy : Nat → Nat → Action Unit
  | 0, _ => fault .stuck
  | depth + 1, n => call (.cmStop n) do
      let cm ← content n
      when (cm.state ≠ .inactive) do
        when (cm.state = .starting) (dequeue n)
        when (cm.ptr .rds ≠ .null) do
          let _ ← closeStream n .rds
        when (cm.ptr .wrs ≠ .null) (cmWriteDoneBy t (cmStopBy depth n) n)
        setContent n fun cm => { cm with state := .inactive }

/-- `cm_stop`.  Inside itself it finds the error set, and does not come back again. -/
def cmStop (n : Nat) : Action Unit := cmStopBy t 2 n

/-- `cm_on_error` -/
def cmOnError (n : Nat) : Action Unit := cmOnErrorBy (cmStop t n) n

/-- `cm_write_done` -/
def cmWriteDone (n : Nat) : Action Unit := cmWriteDoneBy t (cmStop t n) n

/-! ## Reading, testing and writing -/

/-- `test_piece` -/
def testPiece (n piece : Nat) : Action (Except Errno Bool) := do
  setContent n fun cm => { cm with
    tested := Function.update cm.tested piece (cm.tested piece + 1) }
  let r ← useStream n .rds (btsSha (t n).files (t n).sha1 .rds (piece * (t n).pieceLength)
    ((t n).torrentPieceSize piece).toNat)
  pure (r.map fun hash => hash = (t n).pieceHash piece)

/-- `cm_get_bytes` -/
def cmGetBytes (n piece begin len : Nat) : Action (Except Errno (List UInt8)) := do
  let cm ← content n
  if cm.error then pure (.error eio)
  else do
    let r ← useStream n .rds
      (btsGet (t n).files .rds (piece * (t n).pieceLength + begin) len)
    match r with
    | .ok buf => pure (.ok buf)
    | .error e => do
        cmOnError t n
        pure (.error e)

/-- `cm_full` -/
def Cm.full (cm : Cm) (npieces : Nat) : Prop := cm.npiecesGot = npieces

instance (cm : Cm) (npieces : Nat) : Decidable (cm.full npieces) :=
  inferInstanceAs (Decidable (_ = _))

/-- `piece_log_hashes` -/
def pieceLogHashes (n piece : Nat) : Action Unit := do
  let nblocks := (t n).torrentPieceBlocks piece
  forEach (List.range nblocks) fun i => do
    let _ ← cmGetBytes t n piece (i * pieceBlocklen) ((t n).torrentBlockSize piece nblocks i)

/-- Replace the `struct piece` of an index. -/
def setPiece (n piece : Nat) (pc : Option Piece) : Action Unit :=
  setItem n fun x => { x with piece := Function.update x.piece piece pc }

/-- Change the `struct piece` of an index. -/
def changePiece (n piece : Nat) (f : Piece → Piece) : Action Unit :=
  setItem n fun x => { x with
    piece := Function.update x.piece piece ((x.piece piece).map f) }

/-- Of `dl_on_ok_piece`: the blocks are hashed when there are logs of bad ones, and
`struct piece` is freed. -/
def dlOnOkPiece (n piece : Nat) : Action Unit := do
  let x ← item n
  when (∃ pc ∈ x.piece piece, pc.hashed ≠ 0) (pieceLogHashes t n piece)
  setPiece n piece none

/-- Of `dl_on_bad_piece`: all blocks are asked for again, and those that have come are
hashed unless one peer has sent them all. -/
def dlOnBadPiece (n piece : Nat) (sole : Bool) : Action Unit := do
  changePiece n piece fun pc => { pc with ngot := 0 }
  when (sole = false) do
    pieceLogHashes t n piece
    changePiece n piece fun pc => { pc with hashed := pc.hashed + 1 }

/-- The piece has passed its test in `cm_test_piece`. -/
def cmPieceOk (n piece : Nat) : Action Unit := do
  let cm ← content n
  assert (cm.npiecesGot < (t n).npieces) .testFull
  setContent n fun cm => { cm with
    npiecesGot := cm.npiecesGot + 1
    pieceField := setBit cm.pieceField piece }
  let x ← item n
  when x.active (dlOnOkPiece t n piece)
  let cm ← content n
  when (cm.full (t n).npieces) (cmWriteDone t n)

/-- The piece has not passed its test in `cm_test_piece`. -/
def cmPieceBad (n piece : Nat) (sole : Bool) : Action Unit := do
  setContent n fun cm => { cm with
    ncontentBytes := cm.ncontentBytes - (t n).torrentPieceSize piece
    blockField := Function.update cm.blockField piece fun _ => false }
  let x ← item n
  when x.active (dlOnBadPiece t n piece sole)

/-- `cm_test_piece` -/
def cmTestPiece (n piece : Nat) (sole : Bool) : Action Unit :=
  call (.cmTestPiece n piece) do
    let r ← testPiece t n piece
    match r with
    | .error _ => cmOnError t n
    | .ok true => cmPieceOk t n piece
    | .ok false => cmPieceBad t n piece sole

/-- `ZEROBUFLEN` -/
def zeroBufLen : Nat := 2 ^ 14

/-- The loop of `cm_put_bytes` that writes zeros. -/
def zeroLoop (lengths : List Nat) : Nat → Nat → Nat → Routine (Option Errno)
  | 0, _, len => if len = 0 then pure none else fault .stuck
  | turns + 1, off, len =>
      if len = 0 then pure none
      else do
        let wlen := min zeroBufLen len
        let err ← btsPut lengths .wrs off (List.replicate wlen 0)
        match err with
        | some e => pure (some e)
        | none => zeroLoop lengths turns (off + wlen) (len - wlen)

/-- Fill a piece with zeros in `cm_put_bytes`. -/
def fillPiece (n start : Nat) : Action (Option Errno) := do
  let cm ← content n
  assert (cm.pieceField start = false) .putZero
  let len := ((t n).torrentPieceSize start).toNat
  setContent n fun cm => { cm with
    filled := Function.update cm.filled start (cm.filled start + 1) }
  let err ← useStream n .wrs (zeroLoop (t n).files len ((t n).pieceLength * start) len)
  match err with
  | some e => do
      cmOnError t n
      pure (some e)
  | none => do
      setContent n fun cm => { cm with posField := setBit cm.posField start }
      pure none

/-- One turn of the loop of `cm_put_bytes` over the pieces allocated together. -/
def fillTurn (n start : Nat) : Action (Option Errno) := do
  let cm ← content n
  if cm.posField start then pure none else fillPiece t n start

/-- The loop of `cm_put_bytes` over the pieces allocated together. -/
def fillLoop (n : Nat) : List Nat → Action (Option Errno)
  | [] => pure none
  | start :: rest => do
      let err ← fillTurn t n start
      match err with
      | some e => pure (some e)
      | none => fillLoop n rest

/-- The part of `cm_put_bytes` that fills the pieces around `piece` with zeros. -/
def allocate (n piece : Nat) : Action (Option Errno) := do
  let npieces := ((t n).cmAllocSize + ((t n).pieceLength - 1)) / (t n).pieceLength
  assert (npieces ≠ 0) .divideByZero
  let start := piece - piece % npieces
  let stop := min (start + npieces) (t n).npieces
  fillLoop t n (List.range' start (stop - start))

/-- The piece is allocated in `cm_put_bytes` unless it has been. -/
def allocateNew (n piece : Nat) : Action (Option Errno) := do
  let cm ← content n
  if cm.posField piece then pure none else allocate t n piece

/-- The end of `cm_put_bytes`. -/
def storeBlock (n piece begin : Nat) (buf : List UInt8) : Action (Option Errno) := do
  let err ← useStream n .wrs (btsPut (t n).files .wrs (piece * (t n).pieceLength + begin) buf)
  match err with
  | some e => do
      cmOnError t n
      pure (some e)
  | none => do
      setContent n fun cm => { cm with
        ncontentBytes := cm.ncontentBytes + buf.length
        blockField := Function.update cm.blockField piece
          (setBit (cm.blockField piece) (begin / pieceBlocklen)) }
      pure none

/-- `cm_put_bytes` when no error has been met before. -/
def putBytes (n piece begin : Nat) (buf : List UInt8) : Action (Option Errno) := do
  let cm ← content n
  assert (cm.blockField piece (begin / pieceBlocklen) = false) .putBlock
  assert (cm.pieceField piece = false) .putPiece
  let err ← allocateNew t n piece
  match err with
  | some e => pure (some e)
  | none => storeBlock t n piece begin buf

/-- `cm_put_bytes` -/
def cmPutBytes (n piece begin : Nat) (buf : List UInt8) : Action (Option Errno) := do
  let cm ← content n
  if cm.error then pure (some eio) else putBytes t n piece begin buf

/-! ## Starting -/

/-- The piece in the loop of `startup_test_end`. -/
def Cm.endPiece (t : Torrent) (piece : Nat) (cm : Cm) : Cm :=
  if cm.pieceField piece then { cm with
    ncontentBytes := cm.ncontentBytes + t.torrentPieceSize piece
    npiecesGot := cm.npiecesGot + 1
    posField := setBit cm.posField piece }
  else
    let nblocks := t.torrentPieceBlocks piece
    let got := (List.range nblocks).filter (cm.blockField piece)
    let bytes := cm.ncontentBytes + (got.map fun i => (t.torrentBlockSize piece nblocks i : Int)).sum
    if got.length = nblocks then { cm with
      ncontentBytes := bytes - t.torrentPieceSize piece
      blockField := Function.update cm.blockField piece fun _ => false }
    else if 0 < got.length then { cm with
      ncontentBytes := bytes
      posField := setBit cm.posField piece }
    else { cm with ncontentBytes := bytes }

/-- The loop of `startup_test_end`. -/
def endPieces (n : Nat) : Action Unit :=
  forEach (List.range (t n).npieces) fun piece =>
    setContent n (Cm.endPiece (t n) piece)

/-- The entry of the torrent that has been tested, which is the first one. -/
def popTested (n : Nat) : Action Unit := do
  let s ← get
  match s.startq with
  | [] => fault .emptyQueue
  | std :: startq => do
      modify fun s => { s with startq := startq }
      setContent n fun cm => { cm with
        resd := fun i => if i < (t n).files.length then std.fts.getD i (cm.resd i)
          else cm.resd i }

/-- The end of `startup_test_end`. -/
def activate (n : Nat) : Action Unit := do
  let cm ← content n
  if cm.full (t n).npieces then setContent n fun cm => { cm with state := .active }
  else do
    let err ← openStream n .wrs
    match err with
    | some _ => cmOnError t n
    | none => setContent n fun cm => { cm with state := .active }

/-- `startup_test_end` -/
def startupTestEnd (n : Nat) (unclean : Bool) : Action Unit := do
  setContent n fun cm => { cm with posField := fun _ => false }
  endPieces t n
  when unclean (popTested t n)
  activate t n

/-- The next piece whose bit is set, or the place after the last piece. -/
def nextSet (bits : Nat → Bool) : Nat → Nat → Nat
  | 0, i => i
  | left + 1, i => if bits i then i else nextSet bits left (i + 1)

/-- The test of one piece has ended in `startup_test_run`. -/
def testedPiece (std : StartTestData) (ok : Bool) : Action Unit := do
  let n := std.tp
  setContent n fun cm => { cm with
    pieceField := if ok then setBit cm.pieceField std.start
      else clearBit cm.pieceField std.start }
  let cm ← content n
  let start := nextSet cm.posField ((t n).npieces - (std.start + 1)) (std.start + 1)
  modify fun s => { s with startq := { std with start := start } :: s.startq.tail }
  when ((t n).npieces ≤ start) (startupTestEnd t n true)
  modify fun s => { s with workev := s.workev || !s.startq.isEmpty }

/-- `startup_test_run` -/
def startupTestRun : Action Unit := do
  let s ← get
  match s.startq with
  | [] => pure ()
  | std :: _ => do
      let r ← testPiece t std.tp std.start
      match r with
      | .error _ => cmOnError t std.tp
      | .ok ok => testedPiece t std ok

/-- `startup_test_begin` -/
def startupTestBegin (n : Nat) (fts : List FileTimeSize) : Action Unit := do
  let cm ← content n
  let piece := nextSet cm.posField (t n).npieces 0
  if piece < (t n).npieces then
    modify fun s => { s with
      startq := s.startq ++ [⟨n, piece, fts⟩]
      workev := s.workev || s.startq.isEmpty }
  else startupTestEnd t n false

/-- The pieces of the missing tail of a file that starts at `off`. -/
def missingPieces (pieceLength off length size : Nat) : List Nat :=
  let start := (off + size) / pieceLength
  let stop := (off + length - 1) / pieceLength
  List.range' start (stop + 1 - start)

/-- What `cm_start` clears for a piece. -/
def Cm.clearPiece (cm : Cm) (piece : Nat) : Cm := { cm with
  posField := clearBit cm.posField piece
  pieceField := clearBit cm.pieceField piece
  blockField := Function.update cm.blockField piece fun _ => false }

/-- The loop of `cm_start` over the files. -/
def clearTails (n : Nat) : List (Nat × FileTimeSize) → Nat → Action Unit
  | [], _ => pure ()
  | (length, fts) :: files, off => do
      when (fts.size ≠ length)
        (forEach (missingPieces (t n).pieceLength off length fts.size) fun piece =>
          setContent n (·.clearPiece piece))
      clearTails n files (off + length)

/-- Some size or time is not the one in the resume file. -/
def Differs (resd : Nat → FileTimeSize) (fts : List FileTimeSize) : Prop :=
  ∃ i < fts.length, fts[i]? ≠ some (resd i)

instance (resd : Nat → FileTimeSize) (fts : List FileTimeSize) : Decidable (Differs resd fts) :=
  inferInstanceAs (Decidable (∃ i < fts.length, _))

/-- `cm_start` after `stat_and_adjust`. -/
def cmTest (n : Nat) (forceTest : Bool) (fts : List FileTimeSize) : Action Unit := do
  setContent n fun cm => { cm with found := fts, recorded := cm.resd }
  let cm ← content n
  when (forceTest ∨ Differs cm.resd fts) do
    setContent n fun cm => { cm with posField := fun _ => true }
    clearTails t n ((t n).files.zip fts) 0
  startupTestBegin t n fts

/-- `cm_start` -/
def cmStart (n : Nat) (forceTest : Bool) : Action Unit := do
  setContent n fun cm => { cm with state := .starting }
  let err ← openStream n .rds
  match err with
  | some _ => cmOnError t n
  | none => do
      let r ← onDisk n (statAndAdjust (t n).files 0)
      match r.2 with
      | some _ => cmOnError t n
      | none => cmTest t n forceTest r.1

/-! ## Torrents -/

/-- `cm_create`: what is not in the resume file is new. -/
def Cm.create (cm : Cm) : Cm := { cm with
  state := .inactive
  error := false
  npiecesGot := 0
  ncontentBytes := 0
  posField := fun _ => false
  ptr := fun _ => .null
  found := []
  tested := fun _ => 0
  filled := fun _ => 0 }

/-- `torrent_start` -/
def torrentStart (n : Nat) (forceTest : Bool) : Action Unit := do
  setItem n fun x => { x with
    state := .starting
    active := false
    piece := fun _ => none
    cm := x.cm.create }
  cmStart t n forceTest

/-- `torrent_stop` -/
def torrentStop (n : Nat) : Action Unit := do
  let x ← item n
  when (x.state = .starting ∨ x.state = .running) do
    setItem n fun x => { x with state := .stopping, active := false, piece := fun _ => none }
    let cm ← content n
    when (cm.state ≠ .inactive) (cmStop t n)
    let cm ← content n
    when (cm.state = .inactive) (setItem n fun x => { x with state := .ghost })

/-- The rest of `torrent_on_tick`. -/
def tickState (n : Nat) : Action Unit := do
  let x ← item n
  match x.state with
  | .starting => do
      when (x.cm.state = .active) do
        setItem n fun x => { x with state := .running, active := true }
  | .stopping => do
      when (x.cm.state = .inactive) do
        setItem n fun x => { x with state := .ghost }
  | _ => pure ()

/-- `torrent_on_tick` -/
def torrentOnTick (n : Nat) : Action Unit := do
  let x ← item n
  when (x.state ≠ .stopping ∧ x.cm.error) (torrentStop t n)
  tickState n

/-- `dl_new_piece` -/
def dlNewPiece (n index : Nat) : Action Unit := do
  when ((t n).cmAllocSize = 0)
    (setContent n fun cm => { cm with posField := setBit cm.posField index })
  let cm ← content n
  let nblocks := (t n).torrentPieceBlocks index
  let ngot := (List.range nblocks).countP (cm.blockField index)
  assert (ngot < nblocks) .allocFull
  setPiece n index (some ⟨ngot, 0⟩)

/-- The end of `dl_on_block`: another block has come. -/
def countBlock (n index : Nat) (sole : Bool) : Action Unit := do
  changePiece n index fun pc => { pc with ngot := pc.ngot + 1 }
  let x ← item n
  when (∃ pc ∈ x.piece index, pc.ngot = (t n).torrentPieceBlocks index)
    (cmTestPiece t n index sole)

/-- `dl_on_block`, which does not look at what `cm_put_bytes` gives back. -/
def dlOnBlock (n index block : Nat) (buf : List UInt8) (sole : Bool) : Action Unit := do
  let _ ← cmPutBytes t n index (block * pieceBlocklen) buf
  countBlock t n index sole

/-! ## Events -/

/-- What happens: a torrent is started or stopped, the clock ticks for it, the timer of
the tests expires, the download code starts a piece, a block that it has asked for has
arrived (from the peer that has sent all blocks of the piece, or not), or bytes are
read for a peer. -/
inductive CmEvent
  | start (n : Nat) (forceTest : Bool)
  | stop (n : Nat)
  | tick (n : Nat)
  | work
  | newPiece (n index : Nat)
  | block (n index i : Nat) (buf : List UInt8) (sole : Bool)
  | read (n index begin len : Nat)

/-- What the callers see to: a torrent is started when it is not there or a ghost, and
pieces and blocks come from a download that is active. -/
def CmEvent.Allowed (s : Contents) : CmEvent → Prop
  | .start n _ => (s.item n).state = .ghost
  | .stop _ => True
  | .tick _ => True
  | .work => s.workev
  | .newPiece n index => (s.item n).active ∧ index < (t n).npieces ∧
      (s.item n).piece index = none ∧ (s.item n).cm.pieceField index = false
  | .block n index i buf _ => (s.item n).active ∧ index < (t n).npieces ∧
      (s.item n).piece index ≠ none ∧ i < (t n).torrentPieceBlocks index ∧
      buf.length = (t n).torrentBlockSize index ((t n).torrentPieceBlocks index) i
  | .read n index begin len => (s.item n).active ∧ index < (t n).npieces ∧ 0 < len ∧
      ((begin + len : Nat) : Int) ≤ (t n).torrentPieceSize index

instance (s : Contents) (e : CmEvent) : Decidable (e.Allowed t s) := by
  cases e <;> unfold CmEvent.Allowed <;> infer_instance

/-- What is done. -/
def CmEvent.act : CmEvent → Action Unit
  | .start n forceTest => torrentStart t n forceTest
  | .stop n => torrentStop t n
  | .tick n => torrentOnTick t n
  | .work => do
      modify fun s => { s with workev := false }
      startupTestRun t
  | .newPiece n index => dlNewPiece t n index
  | .block n index i buf sole => dlOnBlock t n index i buf sole
  | .read n index begin len => do
      let _ ← cmGetBytes t n index begin len

/-- One event. -/
def cmHandle (e : CmEvent) : Action Unit := do
  let s ← get
  when (e.Allowed t s) (e.act t)

/-- No torrent has been started yet; whatever is on the disk and in the resume files. -/
structure Contents.Init (s : Contents) : Prop where
  inode : ∀ n, (s.item n).disk.inode = (t n).inode
  ghost : ∀ n, (s.item n).state = .ghost
  active : ∀ n, (s.item n).active = false
  piece : ∀ n i, (s.item n).piece i = none
  inactive : ∀ n, (s.item n).cm.state = .inactive
  filled : ∀ n i, (s.item n).cm.filled i = 0
  ptr : ∀ n b, (s.item n).cm.ptr b = .null
  bts : ∀ n b, (s.item n).disk.bts b = .opened
  startq : s.startq = []

/-- The content code of a daemon with these torrents. -/
def daemon : System Contents Fn CmFault CmEvent := ⟨Contents.Init t, cmHandle t⟩

end Btpd.Content
