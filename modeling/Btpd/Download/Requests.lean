import Btpd.Download.Content

/-!
# Assigning requests

The routines of `download_subr.c`.  A loop of the source whose end is not
plain from its list runs here on fuel, and ends in `diverge` when the fuel does
not last; the fuel is what the source's own exit conditions allow.
-/

namespace Btpd.Download

variable (t : Torrent)

/-! ## Pieces -/

/-- `dl_find_piece`, where the result is used without a check. -/
def dlFindPiece (index : Nat) : Routine Piece := do
  let n ← Prog.get
  if index ∈ n.getlst then pure (n.piece index) else Prog.fault .nullDeref

/-- `piece_new_log` -/
def Piece.newLog (pc : Piece) : Piece := { pc with logs := ⟨[], none⟩ :: pc.logs }

/-- Put a piece that is allocated now on the list. -/
def Net.addPiece (n : Net) (index : Nat) (pc : Piece) : Net :=
  { n.setPiece index pc with
    npcsBusy := n.npcsBusy + 1
    busyField := setBit n.busyField index
    getlst := n.getlst ++ [index] }

/-- Take a piece that is freed off the list. -/
def Net.dropPiece (n : Net) (index : Nat) : Net :=
  { n with
    npcsBusy := n.npcsBusy - 1
    busyField := clearBit n.busyField index
    getlst := n.getlst.erase index }

/-- `piece_alloc` -/
def pieceAlloc (index : Nat) : Routine Unit := do
  let n ← Prog.get
  Prog.assert (n.busyField index = false ∧ n.npcsBusy < t.npieces) .busyField
  let nblocks := t.torrentPieceBlocks index
  let pc : Piece :=
    { nreqs := 0
      nblocks := nblocks
      ngot := n.cm.blocksGot index nblocks
      nbusy := 0
      nextBlock := 0
      egReqs := none
      reqs := []
      logs := []
      downField := fun _ => false }
  Prog.assert (pc.ngot < pc.nblocks) .allocFull
  Prog.modify (·.addPiece index pc.newLog)

/-- `piece_free`.  Requests that are still on the piece are freed with it. -/
def pieceFree (index : Nat) : Routine Unit := do
  let n ← Prog.get
  Prog.assert (0 < n.npcsBusy) .busyField
  Prog.assert (index ∈ n.getlst) .unlinked
  Prog.assert (∀ req ∈ (n.piece index).reqs, req ∉ (n.peer req.p).myReqs) .dangling
  Prog.modify (·.dropPiece index)

/-- `dl_new_piece` -/
def dlNewPiece (index : Nat) : Routine Unit := do
  cmPrealloc t index
  pieceAlloc t index

/-! ## Wanting peers -/

/-- `peer_want` -/
def peerWant (p index : Nat) : Routine Unit :=
  Prog.call (.peerWant p index) (onPeer p (·.want index))

/-- `peer_unwant` -/
def peerUnwant (p index : Nat) : Routine Unit := onPeer p (·.unwant index)

/-! ## Requests -/

/-- Link a new request to a piece; outside end game its block becomes busy. -/
def Piece.addRequest (pc : Piece) (endgame : Bool) (req : BlockRequest) : Piece :=
  if endgame then { pc with reqs := pc.reqs ++ [req], nreqs := pc.nreqs + 1 }
  else { pc with
    reqs := pc.reqs ++ [req]
    nreqs := pc.nreqs + 1
    downField := setBit pc.downField pc.nextBlock
    nbusy := pc.nbusy + 1 }

/-- Link a new request to the piece `index`. -/
def Net.addRequest (n : Net) (index : Nat) (req : BlockRequest) : Net :=
  { n.setPiece index ((n.piece index).addRequest n.endgame req) with
    nextMsg := n.nextMsg + 1
    nextReq := n.nextReq + 1 }

/-- The request message for the next block of a piece. -/
def Net.nextMessage (n : Net) (index : Nat) : ReqMsg :=
  let pc := n.piece index
  { id := n.nextMsg
    index := index
    begin := pc.nextBlock * pieceBlocklen % 2 ^ 32
    length := t.torrentBlockSize index pc.nblocks pc.nextBlock }

/-- `dl_new_request` -/
def dlNewRequest (index p : Nat) (msg : Option ReqMsg) : Routine ReqMsg := do
  let n ← Prog.get
  let req : BlockRequest :=
    { id := n.nextReq, p := p, msg := msg.getD (n.nextMessage t index) }
  Prog.modify (·.addRequest index req)
  onPeer p (·.request req)
  pure req.msg

/-- Take a request off the peer and off its piece, and free it. -/
def unlinkRequest (index p : Nat) (req : BlockRequest) : Routine Unit := do
  onPeer p (·.unlink req)
  onPiece index (·.unlink req)
  onPiece index fun pc => .ok { pc with nreqs := pc.nreqs - 1 }

/-! ## End game -/

/-- The place in the list for a piece: before the first piece with nothing left
or with more requests for each missing block. -/
def Net.insertEg (n : Net) (index : Nat) (getlst : List Nat) : List Nat :=
  let pc := n.piece index
  let r := pc.nreqs / (pc.nblocks - pc.ngot)
  let after it :=
    let pc' := n.piece it
    decide (pc'.nblocks ≠ pc'.ngot ∧ pc'.nreqs / (pc'.nblocks - pc'.ngot) ≤ r)
  if pc.nblocks = pc.ngot then getlst ++ [index]
  else getlst.takeWhile after ++ index :: getlst.dropWhile after

/-- `dl_piece_insert_eg` -/
def dlPieceInsertEg (index : Nat) : Routine Unit :=
  Prog.modify fun n => { n with getlst := n.insertEg index n.getlst }

/-- `dl_piece_reorder_eg` -/
def dlPieceReorderEg (index : Nat) : Routine Unit := do
  Prog.modify fun n => { n with getlst := n.getlst.erase index }
  dlPieceInsertEg index

/-- Put the pieces that were moved to the list `tmp` back.  The source takes each
of them off `getlst` when it moves it; nothing reads `getlst` in between. -/
def dlReinsertEg (tmp : List Nat) : Routine Unit := do
  Prog.modify fun n => { n with getlst := n.getlst.filter (· ∉ tmp) }
  Prog.forEach tmp dlPieceInsertEg

/-- Request the next block of a piece in end game. -/
def requestBlockEg (index p : Nat) : Routine Unit := do
  let n ← Prog.get
  let pc := n.piece index
  match pc.egReqs with
  | none => Prog.fault .nullDeref
  | some egReqs => do
      let msg ← dlNewRequest t index p (egReqs pc.nextBlock)
      onPiece index fun pc => .ok { pc with
        egReqs := some (Function.update egReqs pc.nextBlock (some msg)) }

/-- The loop of `dl_piece_assign_requests_eg`. -/
def assignBlocksEg (index p firstBlock : Nat) : Nat → Routine Unit
  | 0 => Prog.fault .diverge
  | fuel + 1 => do
      let n ← Prog.get
      let block := (n.piece index).nextBlock
      Prog.when (n.cm.blockField index block = false ∧ (n.peer p).requested index block = false)
        (requestBlockEg t index p)
      onPiece index fun pc => .ok pc.incNextBlock
      let n ← Prog.get
      if ¬ (n.peer p).laden ∧ (n.piece index).nextBlock ≠ firstBlock then
        assignBlocksEg index p firstBlock fuel
      else pure ()

/-- `dl_piece_assign_requests_eg` -/
def dlPieceAssignRequestsEg (index p : Nat) : Routine Unit := do
  let n ← Prog.get
  let pc := n.piece index
  assignBlocksEg t index p pc.nextBlock pc.nblocks

/-- The loop of `dl_assign_requests_eg` over the rest of `getlst`.  It returns
the pieces it moved to the list `tmp`. -/
def assignPiecesEg (p : Nat) : List Nat → List Nat → Routine (List Nat)
  | [], tmp => pure tmp
  | index :: rest, tmp => do
      let n ← Prog.get
      if (n.peer p).laden then pure tmp
      else if (n.peer p).requestable index ∧ (n.piece index).nblocks ≠ (n.piece index).ngot then do
        dlPieceAssignRequestsEg t index p
        assignPiecesEg p rest (index :: tmp)
      else assignPiecesEg p rest tmp

/-- `dl_assign_requests_eg` -/
def dlAssignRequestsEg (p : Nat) : Routine Unit := do
  let n ← Prog.get
  Prog.assert (n.peer p).leechOk .assignLeech
  let tmp ← assignPiecesEg t p n.getlst []
  dlReinsertEg tmp

/-- What entering end game does to a piece. -/
def Piece.enterEndgame (pc : Piece) : Piece :=
  { pc with
    downField := fun block => if block < pc.nblocks then false else pc.downField block
    nbusy := 0
    egReqs := some fun block =>
      (pc.reqs.find? fun req => req.msg.begin / pieceBlocklen = block).map (·.msg) }

/-- `dl_should_enter_endgame` -/
def Net.dlShouldEnterEndgame (n : Net) : Prop :=
  n.cm.npiecesGot + n.npcsBusy = t.npieces ∧ ∀ index ∈ n.getlst, (n.piece index).full

instance (n : Net) : Decidable (n.dlShouldEnterEndgame t) :=
  inferInstanceAs (Decidable (_ ∧ _))

/-- The last loop of `dl_enter_endgame`, for one peer. -/
def dlEnterEndgamePeer (p : Nat) : Routine Unit := do
  let n ← Prog.get
  Prog.assert ((n.peer p).nwant = 0) .endgameWanted
  Prog.forEach n.getlst (peerWant p)
  let n ← Prog.get
  Prog.when (n.peer p).leechOk (dlAssignRequestsEg t p)

/-- `dl_enter_endgame` -/
def dlEnterEndgame : Routine Unit := Prog.call .dlEnterEndgame do
  let n ← Prog.get
  Prog.modify fun n => { n with endgame := true }
  Prog.assert (n.getlst.length ≤ n.npcsBusy) .outOfBounds
  Prog.forEach n.getlst fun index => onPiece index fun pc => .ok pc.enterEndgame
  Prog.modify fun n => { n with getlst := [] }
  Prog.forEach n.getlst.reverse dlPieceInsertEg
  Prog.forEach n.peers (dlEnterEndgamePeer t)

/-! ## Normal download -/

/-- `dl_on_piece_full` -/
def dlOnPieceFull (index : Nat) : Routine Unit := Prog.call (.dlOnPieceFull index) do
  let n ← Prog.get
  Prog.forEach n.peers (peerUnwant · index)
  let n ← Prog.get
  Prog.when (n.dlShouldEnterEndgame t) (dlEnterEndgame t)

/-- The inner loop of `dl_piece_assign_requests`: go to the next block that is
neither stored nor requested. -/
def Piece.skipBusy (haveField : Nat → Bool) : Nat → Piece → Except Fault Piece
  | 0, _ => .error .diverge
  | fuel + 1, pc =>
      if haveField pc.nextBlock || pc.downField pc.nextBlock then
        skipBusy haveField fuel pc.incNextBlock
      else .ok pc

/-- The loop of `dl_piece_assign_requests`. -/
def assignBlocks (index p : Nat) : Nat → Routine Unit
  | 0 => Prog.fault .diverge
  | fuel + 1 => do
      let n ← Prog.get
      onPiece index fun pc => pc.skipBusy (n.cm.blockField index) pc.nblocks
      let _ ← dlNewRequest t index p none
      onPiece index fun pc => .ok pc.incNextBlock
      let n ← Prog.get
      if ¬ (n.piece index).full ∧ ¬ (n.peer p).laden then assignBlocks index p fuel
      else pure ()

/-- `dl_piece_assign_requests` -/
def dlPieceAssignRequests (index p : Nat) : Routine Unit := do
  let n ← Prog.get
  Prog.assert (¬ (n.piece index).full) .assignFull
  Prog.assert (¬ (n.peer p).laden) .laden
  assignBlocks t index p maxPipedRequests
  let n ← Prog.get
  Prog.when (n.piece index).full (dlOnPieceFull t index)

/-- `dl_piece_startable` -/
def Net.dlPieceStartable (n : Net) (p index : Nat) : Bool :=
  (n.peer p).requestable index && !n.cm.pieceField index && !n.busyField index

/-- One turn of the search of `dl_choose_rarest`: the first of the rarest pieces
so far and their number. -/
def Net.rarer (n : Net) (p : Nat) (best : Option (Nat × Nat)) (i : Nat) : Option (Nat × Nat) :=
  if n.dlPieceStartable p i then
    match best with
    | none => some (i, 1)
    | some (minI, minC) =>
        if n.pieceCount i = n.pieceCount minI then some (minI, minC + 1)
        else if n.pieceCount i < n.pieceCount minI then some (i, 1)
        else some (minI, minC)
  else best

/-- `rand_between` -/
def randBetween (lo hi : Nat) : Routine Nat := do
  let n ← Prog.get
  Prog.modify fun n => { n with draws := n.draws + 1 }
  pure (lo + t.random n.draws % (hi - lo + 1))

/-- `dl_choose_rarest` -/
def dlChooseRarest (p : Nat) : Routine (Option Nat) := do
  let n ← Prog.get
  Prog.assert (n.endgame = false) .rarestEndgame
  match (List.range t.npieces).foldl (n.rarer p) none with
  | none => pure none
  | some (minI, minC) =>
      if minC ≤ 1 then pure (some minI)
      else do
        let r ← randBetween t 1 minC
        let rarest i := n.dlPieceStartable p i && n.pieceCount i = n.pieceCount minI
        match ((List.range' minI (t.npieces - minI)).filter rarest)[r - 1]? with
        | none => Prog.fault .outOfBounds
        | some i => pure (some i)

/-- The first loop of `dl_assign_requests`, over the rest of `getlst`. -/
def assignStarted (p : Nat) : List Nat → Routine Unit
  | [] => pure ()
  | index :: rest => do
      let n ← Prog.get
      if (n.piece index).full ∨ (n.peer p).requestable index = false then assignStarted p rest
      else do
        dlPieceAssignRequests t index p
        let n ← Prog.get
        if n.endgame then pure ()
        else do
          Prog.assert ((n.piece index).full ∨ (n.peer p).laden) .laden
          if (n.peer p).laden then pure () else assignStarted p rest

/-- The second loop of `dl_assign_requests`. -/
def assignNew (p : Nat) : Nat → Routine Unit
  | 0 => Prog.fault .diverge
  | fuel + 1 => do
      let n ← Prog.get
      if (n.peer p).laden ∨ n.endgame = true then pure ()
      else do
        let chosen ← dlChooseRarest t p
        match chosen with
        | none => pure ()
        | some index => do
            dlNewPiece t index
            dlPieceAssignRequests t index p
            assignNew p fuel

/-- `dl_assign_requests` -/
def dlAssignRequests (p : Nat) : Routine Unit := do
  let n ← Prog.get
  Prog.assert (n.endgame = false) .assignEndgame
  Prog.assert (n.peer p).leechOk .assignLeech
  assignStarted t p n.getlst
  assignNew t p (maxPipedRequests + 1)

/-- The second loop of `dl_on_piece_unfull`, over the rest of the peers. -/
def assignUnfull (index : Nat) : List Nat → Routine Unit
  | [] => pure ()
  | p :: rest => do
      let n ← Prog.get
      if (n.piece index).full then pure ()
      else do
        Prog.when ((n.peer p).leechOk ∧ (n.peer p).requestable index = true)
          (dlPieceAssignRequests t index p)
        assignUnfull index rest

/-- `dl_on_piece_unfull` -/
def dlOnPieceUnfull (index : Nat) : Routine Unit := Prog.call (.dlOnPieceUnfull index) do
  let n ← Prog.get
  Prog.assert (¬ (n.piece index).full) .unfullFull
  Prog.assert (n.endgame = false) .unfullEndgame
  Prog.forEach n.peers (peerWant · index)
  assignUnfull t index n.peers

/-! ## Losing requests -/

/-- The inner loop of `dl_unassign_requests`, for one request. -/
def unassignRequest (index p : Nat) (req : BlockRequest) : Routine Unit := do
  let blki := req.msg.begin / pieceBlocklen
  let n ← Prog.get
  Prog.assert ((n.piece index).downField blki = true) .unassignDown
  onPiece index fun pc => .ok { pc with
    downField := clearBit pc.downField blki
    nbusy := pc.nbusy - 1 }
  unlinkRequest index p req

/-- The outer loop of `dl_unassign_requests`. -/
def unassignPieces (p : Nat) : Nat → Routine Unit
  | 0 => Prog.fault .diverge
  | fuel + 1 => do
      let n ← Prog.get
      if (n.peer p).nreqsOut = 0 then pure ()
      else
        match (n.peer p).myReqs with
        | [] => Prog.fault .nullDeref
        | first :: _ => do
            let index := first.msg.index
            let pc ← dlFindPiece index
            Prog.forEach ((n.peer p).myReqs.filter fun req => req.msg.index = index)
              (unassignRequest index p)
            onPeer p (·.checkNoReqs)
            let n ← Prog.get
            Prog.when (pc.full ∧ ¬ (n.piece index).full) (dlOnPieceUnfull t index)
            unassignPieces p fuel

/-- `dl_unassign_requests` -/
def dlUnassignRequests (p : Nat) : Routine Unit := do
  let n ← Prog.get
  unassignPieces t p ((n.peer p).nreqsOut + 1)
  let n ← Prog.get
  Prog.assert ((n.peer p).myReqs = []) .unassignLeft

/-- The outer loop of `dl_unassign_requests_eg`.  It returns the pieces it moved
to the list `tmp`. -/
def unassignPiecesEg (p : Nat) : Nat → List Nat → Routine (List Nat)
  | 0, _ => Prog.fault .diverge
  | fuel + 1, tmp => do
      let n ← Prog.get
      if (n.peer p).nreqsOut = 0 then pure tmp
      else
        match (n.peer p).myReqs with
        | [] => Prog.fault .nullDeref
        | first :: _ => do
            let index := first.msg.index
            let _ ← dlFindPiece index
            Prog.forEach ((n.peer p).myReqs.filter fun req => req.msg.index = index)
              (unlinkRequest index p)
            unassignPiecesEg p fuel (index :: tmp)

/-- `dl_unassign_requests_eg` -/
def dlUnassignRequestsEg (p : Nat) : Routine Unit := do
  let n ← Prog.get
  let tmp ← unassignPiecesEg p ((n.peer p).nreqsOut + 1) []
  let n ← Prog.get
  Prog.assert ((n.peer p).myReqs = []) .unassignEgLeft
  onPeer p (·.onNoReqs)
  dlReinsertEg tmp

end Btpd.Download
