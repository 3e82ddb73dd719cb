import Btpd.Download.Requests

/-!
# Download events

The routines of `download.c`, with the block logs of `download_subr.c` and the
piece test of `content.c` that they call.
-/

namespace Btpd.Download

variable (t : Torrent)

/-- `dl_on_download` -/
def dlOnDownload (p : Nat) : Routine Unit := do
  let n ← Prog.get
  if n.endgame then dlAssignRequestsEg t p else dlAssignRequests t p

/-- `dl_on_undownload` -/
def dlOnUndownload (p : Nat) : Routine Unit := do
  let n ← Prog.get
  if n.endgame = false then dlUnassignRequests t p else dlUnassignRequestsEg p

/-- `peer_good_piece` -/
def peerGoodPiece (p index : Nat) : Routine Unit := Prog.call (.peerGoodPiece p index) do
  let n ← Prog.get
  let (wasSuspect, peer) ← Prog.ofExcept ((n.peer p).goodPiece index)
  Prog.modify (·.setPeer p peer)
  Prog.when (wasSuspect = true ∧ peer.leechOk) (dlOnDownload t p)

/-- `net_ban_peer` -/
def netBanPeer (mp : Nat) : Routine Unit :=
  onPeer mp fun peer => .ok { peer with banned := true }

/-! ## Block logs -/

/-- Change the newest log of a piece. -/
def onFirstLog (index : Nat) (f : BlockLog → BlockLog) : Routine Unit :=
  onPiece index fun pc =>
    match pc.logs with
    | [] => .error .nullDeref
    | log :: logs => .ok { pc with logs := f log :: logs }

/-- `piece_log_hashes` -/
def pieceLogHashes (index : Nat) : Routine Unit := do
  let n ← Prog.get
  let nblocks := (n.piece index).nblocks
  onFirstLog index fun log => { log with
    hashes := some fun block => t.sha1
      (n.cm.read t (index * t.pieceLength + block * pieceBlocklen % 2 ^ 32)
        (t.torrentBlockSize index nblocks block)) }

/-- `piece_log_block` -/
def pieceLogBlock (index p begin : Nat) : Routine Unit :=
  onFirstLog index fun log =>
    let record := (log.records.find? fun r => r.mp = p).getD ⟨p, fun _ => false⟩
    { log with
      records := { record with
        downField := setBit record.downField (begin / pieceBlocklen) } ::
          log.records.eraseP fun r => r.mp = p }

/-- The one peer that sent every block of a log, if there is one. -/
def LogRecord.culprit (nblocks : Nat) : List LogRecord → Option Nat
  | [r] => if ∀ i < nblocks, r.downField i = true then some r.mp else none
  | _ => none

/-- What `piece_log_bad` does to a peer that sent some of the blocks. -/
def pieceLogSuspect (index : Nat) (r : LogRecord) : Routine Unit := do
  let n ← Prog.get
  Prog.when (r.mp ∈ n.peers) do
    Prog.when (n.endgame = true) (peerUnwant r.mp index)
    onPeer r.mp (·.badPiece index)

/-- The part of `piece_log_bad` that deals with the newest log. -/
def pieceLogBlame (index : Nat) (log : BlockLog) (logs : List BlockLog) : Routine Unit := do
  let n ← Prog.get
  match LogRecord.culprit (n.piece index).nblocks log.records with
  | some mp => do
      Prog.when (n.endgame = true ∧ mp ∈ n.peers) (peerUnwant mp index)
      netBanPeer mp
      onPiece index fun pc => .ok { pc with logs := logs }
  | none => do
      Prog.forEach log.records (pieceLogSuspect index)
      pieceLogHashes t index

/-- `piece_log_bad` -/
def pieceLogBad (index : Nat) : Routine Unit := Prog.call (.pieceLogBad index) do
  let n ← Prog.get
  match (n.piece index).logs with
  | [] => Prog.fault .nullDeref
  | log :: logs => do
      Prog.assert (log.records ≠ []) .nullDeref
      pieceLogBlame t index log logs
      onPiece index fun pc => .ok pc.newLog

/-- What `piece_log_good` does to the records of an older log, when the newest
one has the hashes `good`. -/
def clearOldLog (index : Nat) (good : Nat → List UInt8) (bad : BlockLog) : Routine Unit := do
  let n ← Prog.get
  let nblocks := (n.piece index).nblocks
  Prog.forEach bad.records fun r =>
    match bad.hashes with
    | none => Prog.fault .nullDeref
    | some hashes =>
        if ∃ i < nblocks, r.downField i = true ∧ good i ≠ hashes i then netBanPeer r.mp
        else Prog.when (r.mp ∈ n.peers) (peerGoodPiece t r.mp index)

/-- `piece_log_good` -/
def pieceLogGood (index : Nat) : Routine Unit := do
  let n ← Prog.get
  match (n.piece index).logs with
  | [] => Prog.fault .nullDeref
  | log :: bads => do
      Prog.forEach log.records fun r =>
        Prog.when (r.mp ∈ n.peers) (peerGoodPiece t r.mp index)
      if bads = [] then pure ()
      else do
        pieceLogHashes t index
        let n ← Prog.get
        match (n.piece index).logs.head?.bind (·.hashes) with
        | none => Prog.fault .nullDeref
        | some good => Prog.forEach bads (clearOldLog t index good)

/-! ## Tested pieces -/

/-- `dl_on_ok_piece` -/
def dlOnOkPiece (piece : Nat) : Routine Unit := Prog.call (.dlOnOkPiece piece) do
  let _ ← dlFindPiece piece
  let n ← Prog.get
  Prog.forEach n.peers fun p => onPeer p fun peer =>
    if peer.pieceField piece then .ok peer else peer.send (.haveMsg piece)
  Prog.when (n.endgame = true) (Prog.forEach n.peers (peerUnwant · piece))
  pieceLogGood t piece
  let n ← Prog.get
  Prog.assert ((n.piece piece).nreqs = 0) .okPieceReqs
  pieceFree piece

/-- `dl_on_bad_piece` -/
def dlOnBadPiece (piece : Nat) : Routine Unit := do
  let _ ← dlFindPiece piece
  onPiece piece fun pc => .ok { pc with
    downField := fun block => if block < pc.nblocks then false else pc.downField block
    ngot := 0
    nbusy := 0 }
  pieceLogBad t piece
  let n ← Prog.get
  if n.endgame then
    Prog.forEach n.peers fun p => do
      let n ← Prog.get
      Prog.when ((n.peer p).leechOk ∧ (n.peer p).requestable piece = true)
        (dlAssignRequestsEg t p)
  else dlOnPieceUnfull t piece

/-- `cm_test_piece`.  The torrent is active. -/
def cmTestPiece (piece : Nat) : Routine Unit := do
  let n ← Prog.get
  let hash := t.sha1
    (n.cm.read t (piece * t.pieceLength) (t.torrentPieceSize piece).toNat)
  if hash = t.pieceHash piece then do
    Prog.assert (n.cm.npiecesGot < t.npieces) .testFull
    Prog.modify fun n => { n with
      cm.npiecesGot := n.cm.npiecesGot + 1
      cm.pieceField := setBit n.cm.pieceField piece }
    dlOnOkPiece t piece
  else do
    Prog.modify fun n => { n with
      cm.blockField := Function.update n.cm.blockField piece fun _ => false }
    dlOnBadPiece t piece

/-! ## Blocks -/

/-- The request after `req` in a list. -/
def nextRequest (req : BlockRequest) (reqs : List BlockRequest) : Option BlockRequest :=
  (reqs.dropWhile (· ≠ req)).tail.head?

/-- The first loop of `dl_on_block` in end game: the other peers' requests for
the block are cancelled. -/
def cancelOthers (index p begin length : Nat) (req : BlockRequest) : Routine Unit :=
  Prog.when (req.msg.begin = begin) do
    Prog.when (req.p ≠ p) (onPeer req.p (·.cancel req (.cancel index begin length)))
    onPiece index fun pc => .ok { pc with nreqs := pc.nreqs - 1 }

/-- One turn of the second loop of `dl_on_block` in end game, for a request for
the block.  The request is freed at the end, and no peer may link it then. -/
def dropRequest (index : Nat) (req : BlockRequest) : Routine Unit := do
  onPiece index (·.unlink req)
  let n ← Prog.get
  Prog.assert (req ∉ (n.peer req.p).myReqs) .dangling
  Prog.when (n.peer req.p).leechOk (dlAssignRequestsEg t req.p)

/-- The second loop of `dl_on_block` in end game, from the request `req` on: the
requests for the block are freed, and the peers that had them are given new
ones. -/
def dropRequests (index begin : Nat) : Nat → Option BlockRequest → Routine Unit
  | _, none => pure ()
  | 0, some _ => Prog.fault .diverge
  | fuel + 1, some req => do
      let n ← Prog.get
      let next := nextRequest req (n.piece index).reqs
      Prog.when (req.msg.begin = begin) (dropRequest t index req)
      dropRequests index begin fuel next

/-- `dl_on_block` -/
def dlOnBlock (p : Nat) (req : BlockRequest) (index begin length : Nat) (data : List UInt8) :
    Routine Unit := do
  let _ ← dlFindPiece index
  pieceLogBlock index p begin
  cmPutBytes t index begin data
  onPiece index fun pc => .ok { pc with ngot := pc.ngot + 1 }
  let n ← Prog.get
  if n.endgame then do
    let reqs := (n.piece index).reqs
    Prog.forEach reqs (cancelOthers index p begin length)
    dlPieceReorderEg index
    dropRequests t index begin ((maxPipedRequests + 1) * reqs.length) reqs.head?
    let n ← Prog.get
    Prog.when ((n.piece index).ngot = (n.piece index).nblocks) (cmTestPiece t index)
  else do
    onPiece index (·.unlink req)
    onPiece index fun pc => .ok { pc with
      nreqs := pc.nreqs - 1
      downField := clearBit pc.downField (begin / pieceBlocklen)
      nbusy := pc.nbusy - 1 }
    let n ← Prog.get
    Prog.when ((n.piece index).ngot = (n.piece index).nblocks) (cmTestPiece t index)
    let n ← Prog.get
    Prog.when (n.peer p).leechOk (dlAssignRequests t p)

/-! ## Peers that come, announce, choke and go -/

/-- `dl_on_piece_ann` -/
def dlOnPieceAnn (p index : Nat) : Routine Unit := Prog.call (.dlOnPieceAnn p index) do
  Prog.assert (index < t.npieces) .pieceBounds
  Prog.modify fun n => { n with
    pieceCount := Function.update n.pieceCount index (n.pieceCount index + 1) }
  let n ← Prog.get
  if n.cm.pieceField index then pure ()
  else if n.endgame then do
    Prog.assert (index ∈ n.getlst) .annNoPiece
    peerWant p index
    let n ← Prog.get
    Prog.when (n.peer p).leechOk (dlAssignRequestsEg t p)
  else if index ∉ n.getlst then do
    peerWant p index
    let n ← Prog.get
    Prog.when (n.peer p).leechOk do
      dlNewPiece t index
      dlPieceAssignRequests t index p
  else if ¬ (n.piece index).full then do
    peerWant p index
    let n ← Prog.get
    Prog.when (n.peer p).leechOk (dlPieceAssignRequests t index p)
  else pure ()

/-- `dl_on_unchoke` -/
def dlOnUnchoke (p : Nat) : Routine Unit := do
  let n ← Prog.get
  Prog.when (n.peer p).leechOk (dlOnDownload t p)

/-- `dl_on_choke` -/
def dlOnChoke (p : Nat) : Routine Unit := do
  let n ← Prog.get
  Prog.when (0 < (n.peer p).nreqsOut) (dlOnUndownload t p)

/-- `dl_on_lost_peer` -/
def dlOnLostPeer (p : Nat) : Routine Unit := do
  Prog.modify fun n => { n with
    pieceCount := fun i =>
      if i < t.npieces ∧ (n.peer p).pieceField i = true then n.pieceCount i - 1
      else n.pieceCount i }
  let n ← Prog.get
  Prog.when (0 < (n.peer p).nreqsOut) (dlOnUndownload t p)

end Btpd.Download
