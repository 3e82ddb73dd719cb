import Btpd.Download.State

/-!
# What is done to one peer

The routines of `peer.c` that read and write a single peer.  They need nothing
of the rest of the state, so each maps a peer to a peer or a fault.  The output
queue is a list; a message whose first bytes are written is its head with
`outqOff` above zero, and it can no longer be taken back.
-/

namespace Btpd.Download.Peer

/-! ## What a peer is good for -/

/-- `peer_has_bad` -/
def hasBad (peer : Peer) (index : Nat) : Bool :=
  match peer.badField with
  | none => false
  | some bad => bad index

/-- `peer_requestable` -/
def requestable (peer : Peer) (index : Nat) : Bool :=
  peer.pieceField index && !peer.hasBad index

/-- `peer_laden` -/
def laden (peer : Peer) : Prop := maxPipedRequests ≤ peer.nreqsOut

instance (peer : Peer) : Decidable peer.laden := inferInstanceAs (Decidable (_ ≤ _))

/-- `peer_leech_ok` -/
def leechOk (peer : Peer) : Prop :=
  (peer.iWant && !peer.banned && !peer.suspect && !peer.pChoke) ∧ ¬ peer.laden

instance (peer : Peer) : Decidable peer.leechOk := inferInstanceAs (Decidable (_ ∧ _))

/-- `peer_full` -/
def full (t : Torrent) (peer : Peer) : Prop := peer.npieces = t.npieces

instance (t : Torrent) (peer : Peer) : Decidable (peer.full t) :=
  inferInstanceAs (Decidable (_ = _))

/-- `peer_requested` -/
def requested (peer : Peer) (piece block : Nat) : Bool :=
  peer.myReqs.any fun req =>
    req.msg.index = piece ∧ req.msg.begin = block * pieceBlocklen % 2 ^ 32

/-! ## The output queue -/

/-- `peer_send` -/
def send (peer : Peer) (nb : NetBuf) : Except Fault Peer :=
  if peer.outq = [] ∧ peer.outqOff ≠ 0 then .error .outqOff
  else .ok { peer with outq := peer.outq ++ [nb] }

/-- `peer_unsend` for the message at place `k` of the queue. -/
def unsendAt (peer : Peer) (k : Nat) : Except Fault (Bool × Peer) :=
  if k = 0 ∧ 0 < peer.outqOff then .ok (false, peer)
  else
    match peer.outq[k]? with
    | none => .error .unlinked
    | some (.torrentData _) =>
        if 0 < peer.npieceMsgs then
          .ok (true, { peer with
            outq := peer.outq.eraseIdx k
            npieceMsgs := peer.npieceMsgs - 1 })
        else .error .pieceMsgs
    | some _ => .ok (true, { peer with outq := peer.outq.eraseIdx k })

/-- `peer_sent` -/
def noteSent (peer : Peer) (nb : NetBuf) : Except Fault Peer :=
  match nb with
  | .unchoke => .ok { peer with noRequests := false }
  | .torrentData _ =>
      if 0 < peer.npieceMsgs then .ok { peer with npieceMsgs := peer.npieceMsgs - 1 }
      else .error .pieceMsgs
  | _ => .ok peer

/-- The loop of `net_write` that collects the buffers to write, with room for
`fuel` of them: `wmax` bytes may still be taken, `blocks` blocks are in memory,
and `off` bytes of the first buffer are out already.  It fills in the data of a
block whose header is collected, and gives the bytes collected and the queue. -/
def collect (readBlock : Nat → Nat → Nat → List UInt8) (bytes : NetBuf → List UInt8) :
    (fuel : Nat) → (wmax : Option Nat) → (blocks off : Nat) → List NetBuf →
      Except Fault (List UInt8 × List NetBuf)
  | 0, _, _, _, outq => .ok ([], outq)
  | _, _, _, _, [] => .ok ([], [])
  | fuel + 1, wmax, blocks, off, nb :: rest =>
      if wmax = some 0 then .ok ([], nb :: rest)
      else
        let iov := match wmax with
          | none => (bytes nb).drop off
          | some w => ((bytes nb).drop off).take w
        let wmax' := wmax.map (· - iov.length)
        match nb, rest with
        | .piece _ _ _, [] =>
            if blockMemCount ≤ blocks then .ok ([], [nb]) else .error .nullDeref
        | .piece index begin length, data :: rest =>
            if blockMemCount ≤ blocks then .ok ([], nb :: data :: rest)
            else do
              let data := match data with
                | .torrentData none => .torrentData (some (readBlock index begin length))
                | data => data
              let (iovs, rest) ← collect readBlock bytes fuel wmax' (blocks + 1) 0 (data :: rest)
              .ok (iov ++ iovs, nb :: rest)
        | _, rest => do
            let (iovs, rest) ← collect readBlock bytes fuel wmax' blocks 0 rest
            .ok (iov ++ iovs, nb :: rest)

/-- The loop of `net_write` over the queue `outq` once `bcount` bytes of it have
gone out.  It gives the number of bytes of block data among them. -/
def written (peer : Peer) (bcount : Nat) : List NetBuf → Except Fault (Nat × Peer)
  | [] => .ok (0, { peer with outq := [] })
  | nb :: outq =>
      if bcount = 0 then .ok (0, { peer with outq := nb :: outq })
      else
        let bufdelta := nb.len - peer.outqOff
        if bufdelta ≤ bcount then do
          let peer' ← peer.noteSent nb
          let (uploaded, peer') ←
            written { peer' with outqOff := 0, sent := peer'.sent ++ [nb] }
              (bcount - bufdelta) outq
          .ok (nb.dataBytes bufdelta + uploaded, peer')
        else
          .ok (nb.dataBytes bcount,
            { peer with outq := nb :: outq, outqOff := peer.outqOff + bcount })

/-- `net_write`, when the kernel takes up to `nwritten` bytes.  `wmax` is zero
when the bandwidth is not limited. -/
def netWrite (readBlock : Nat → Nat → Nat → List UInt8) (bytes : NetBuf → List UInt8)
    (wmax nwritten : Nat) (peer : Peer) : Except Fault (Nat × Peer) := do
  let blocks := match peer.outq with
    | .torrentData _ :: _ => 1
    | _ => 0
  if peer.outq = [] then .error .writeEmpty
  else do
    let (iovs, outq) ← collect readBlock bytes iovMax (if wmax = 0 then none else some wmax)
      blocks peer.outqOff peer.outq
    { peer with outq := outq, wire := peer.wire ++ iovs.take nwritten }.written
      (min nwritten iovs.length) outq

/-! ## Interest -/

/-- `peer_want` -/
def want (peer : Peer) (index : Nat) : Except Fault Peer :=
  if !peer.pieceField index || peer.hasBad index then .ok peer
  else if ¬ peer.nwant < peer.npieces then .error .wantBound
  else
    let counted := { peer with nwant := peer.nwant + 1 }
    if counted.nwant ≠ 1 then .ok counted
    else
      let wanted := { counted with iWant := true }
      if wanted.suspect then .ok wanted
      else if wanted.nreqsOut = 0 then
        if wanted.doUnwant then .error .wantDoUnwantSet
        else if wanted.outq.getLast? = some .uninterest then do
          let (unsent, peer') ← wanted.unsendAt (wanted.outq.length - 1)
          if unsent then .ok peer' else peer'.send .interest
        else wanted.send .interest
      else if wanted.doUnwant then .ok { wanted with doUnwant := false }
      else .error .wantDoUnwantClear

/-- `peer_unwant` -/
def unwant (peer : Peer) (index : Nat) : Except Fault Peer :=
  if !peer.pieceField index || peer.hasBad index then .ok peer
  else if peer.nwant = 0 then .error .unwantZero
  else
    let counted := { peer with nwant := peer.nwant - 1 }
    if counted.nwant ≠ 0 then .ok counted
    else
      let unwanted := { counted with iWant := false }
      if unwanted.suspect then .ok unwanted
      else if unwanted.nreqsOut = 0 then unwanted.send .uninterest
      else .ok { unwanted with doUnwant := true }

/-- `peer_on_no_reqs` -/
def onNoReqs (peer : Peer) : Except Fault Peer :=
  if peer.doUnwant then
    if peer.nwant = 0 then { peer with doUnwant := false }.send .uninterest
    else .error .noReqsWanted
  else .ok peer

/-! ## Requests -/

/-- `peer_request` -/
def request (peer : Peer) (req : BlockRequest) : Except Fault Peer :=
  if peer.nreqsOut < maxPipedRequests then
    { peer with
      nreqsOut := peer.nreqsOut + 1
      myReqs := peer.myReqs ++ [req] }.send (.request req.msg)
  else .error .laden

/-- Take a request off `my_reqs` and count it off. -/
def unlink (peer : Peer) (req : BlockRequest) : Except Fault Peer :=
  if req ∈ peer.myReqs then
    .ok { peer with nreqsOut := peer.nreqsOut - 1, myReqs := peer.myReqs.erase req }
  else .error .unlinked

/-- Take the first message that is the buffer `nb` out of the queue, if there is
one and its first bytes are not out. -/
def takeBack (peer : Peer) (nb : NetBuf) : Except Fault (Bool × Peer) :=
  match peer.outq.findIdx? (· = nb) with
  | some k => peer.unsendAt k
  | none => .ok (false, peer)

/-- `peer_on_no_reqs`, called when no request is out. -/
def checkNoReqs (peer : Peer) : Except Fault Peer :=
  if peer.nreqsOut = 0 then peer.onNoReqs else .ok peer

/-- `peer_cancel` -/
def cancel (peer : Peer) (req : BlockRequest) (nb : NetBuf) : Except Fault Peer := do
  let peer ← peer.unlink req
  let (removed, peer) ← peer.takeBack (.request req.msg)
  if removed then peer.checkNoReqs
  else do
    let peer ← peer.send nb
    peer.checkNoReqs

/-! ## Bad and good pieces -/

/-- The `bad_field` that `peer_bad_piece` writes to, allocated when no piece of
the peer is marked bad yet. -/
def allocBadField (peer : Peer) : Except Fault (Nat → Bool) :=
  match peer.badField with
  | none => if peer.npcsBad = 0 then .ok fun _ => false else .error .nullDeref
  | some bad => if peer.npcsBad = 0 then .error .badField else .ok bad

/-- `peer_bad_piece` -/
def badPiece (peer : Peer) (index : Nat) : Except Fault Peer := do
  let bad ← peer.allocBadField
  if bad index then .error .badField
  else
    let marked := { peer with
      badField := some (setBit bad index)
      npcsBad := peer.npcsBad + 1
      suspicion := peer.suspicion + 1 }
    if marked.suspicion = 3 then
      let suspected := { marked with suspect := true }
      let released := { suspected with doUnwant := false }
      if 0 < suspected.nwant then released.send .uninterest else .ok suspected
    else .ok marked

/-- The part of `peer_good_piece` that unmarks a bad piece. -/
def clearBad (peer : Peer) (index : Nat) : Except Fault Peer :=
  if peer.hasBad index then
    if peer.npcsBad = 0 then .error .badField
    else if peer.npcsBad = 1 then .ok { peer with npcsBad := 0, badField := none }
    else .ok { peer with
      npcsBad := peer.npcsBad - 1
      badField := peer.badField.map (clearBit · index) }
  else .ok peer

/-- `peer_good_piece`, up to the request round at its end.  The flag says whether
the peer was suspect before. -/
def goodPiece (peer : Peer) (index : Nat) : Except Fault (Bool × Peer) := do
  let peer ← peer.clearBad index
  let cleared := { peer with suspicion := 0 }
  if cleared.suspect then
    let unsuspected := { cleared with suspect := false }
    if 0 < unsuspected.nwant then
      if unsuspected.iWant then do
        let peer ← unsuspected.send .interest
        .ok (true, peer)
      else .error .goodPieceUnwanted
    else .ok (true, unsuspected)
  else .ok (false, cleared)

/-! ## Uploading -/

/-- `peer_unchoke` -/
def unchoke (peer : Peer) : Except Fault Peer :=
  { peer with iChoke := false }.send .unchoke

/-- The loop of `peer_choke` from place `k` of the queue on: piece messages that
have not gone out are taken back with their data. -/
def unsendPieces : Nat → Nat → Peer → Except Fault Peer
  | 0, _, _ => .error .diverge
  | fuel + 1, k, peer =>
      match peer.outq[k]? with
      | none => .ok peer
      | some (.piece ..) =>
          if peer.outq.length ≤ k + 1 then .error .nullDeref
          else do
            let (removed, peer) ← peer.unsendAt k
            if removed then do
              let (_, peer) ← peer.unsendAt k
              unsendPieces fuel k peer
            else unsendPieces fuel (k + 2) peer
      | some _ => unsendPieces fuel (k + 1) peer

/-- `peer_choke` -/
def choke (peer : Peer) : Except Fault Peer := do
  let peer ← unsendPieces (peer.outq.length + 1) 0 peer
  { peer with iChoke := true }.send .choke

/-- The loop of `peer_on_choke` from place `k` of the queue on: requests that
have not gone out are taken back. -/
def unsendRequests : Nat → Nat → Peer → Except Fault Peer
  | 0, _, _ => .error .diverge
  | fuel + 1, k, peer =>
      match peer.outq[k]? with
      | none => .ok peer
      | some (.request _) => do
          let (removed, peer) ← peer.unsendAt k
          unsendRequests fuel (if removed then k else k + 1) peer
      | some _ => unsendRequests fuel (k + 1) peer

/-- `peer_on_request` -/
def onRequest (peer : Peer) (index begin length : Nat) : Except Fault Peer :=
  if peer.noRequests then .ok peer
  else do
    let peer ← peer.send (.piece index begin length)
    let peer ← peer.send (.torrentData none)
    let counted := { peer with npieceMsgs := peer.npieceMsgs + 1 }
    if maxPieceMsgs ≤ counted.npieceMsgs then do
      let peer ← counted.send .choke
      let peer ← peer.send .unchoke
      .ok { peer with noRequests := true }
    else .ok counted

/-- `peer_on_cancel` -/
def onCancel (peer : Peer) (index begin length : Nat) : Except Fault Peer :=
  match peer.outq.findIdx? (· = .piece index begin length) with
  | none => .ok peer
  | some k => do
      let (removed, peer) ← peer.unsendAt k
      if removed then do
        let (_, peer) ← peer.unsendAt k
        .ok peer
      else .ok peer

/-! ## What the queue operations do -/

section

variable {allowed : Fault → Prop} {peer : Peer}

theorem ends_send {nb : NetBuf} {post : Peer → Prop} (queue : allowed .outqOff)
    (sent : post { peer with outq := peer.outq ++ [nb] }) :
    Prog.Ends allowed (peer.send nb) post := by
  unfold send
  split
  · exact queue
  · exact sent

/-- A message is taken back unless its first bytes are out, and then nothing
changes. -/
theorem ends_unsendAt {k : Nat} {post : Bool × Peer → Prop} (unlinked : allowed .unlinked)
    (msgs : allowed .pieceMsgs) (kept : k = 0 ∧ 0 < peer.outqOff → post (false, peer))
    (removed : ∀ nb count, ¬ (k = 0 ∧ 0 < peer.outqOff) → peer.outq[k]? = some nb →
      post (true, { peer with outq := peer.outq.eraseIdx k, npieceMsgs := count })) :
    Prog.Ends allowed (peer.unsendAt k) post := by
  unfold unsendAt
  split
  · rename_i pinned
    exact kept pinned
  · rename_i free
    split
    · exact unlinked
    · rename_i found
      split
      · exact removed _ _ free found
      · exact msgs
    · rename_i found
      exact removed _ _ free found

/-- The message that is found by what it is. -/
theorem eq_of_findIdx {outq : List NetBuf} {nb : NetBuf} {k : Nat}
    (found : outq.findIdx? (· = nb) = some k) : outq[k]? = some nb := by
  obtain ⟨inside, same, -⟩ := List.findIdx?_eq_some_iff_getElem.mp found
  rw [List.getElem?_eq_getElem inside, of_decide_eq_true same]

/-- What collecting buffers for a write does to a buffer of the queue. -/
inductive Fills : NetBuf → NetBuf → Prop
  | same (nb : NetBuf) : Fills nb nb
  | fill (data : List UInt8) : Fills (.torrentData none) (.torrentData (some data))

theorem fills_refl (outq : List NetBuf) : List.Forall₂ Fills outq outq := by
  induction outq with
  | nil => exact .nil
  | cons nb outq ih => exact .cons (.same nb) ih

theorem collect_fills {readBlock : Nat → Nat → Nat → List UInt8}
    {bytes : NetBuf → List UInt8} {outq : List NetBuf}
    (null : allowed .nullDeref) (fuel : Nat) (wmax : Option Nat) (blocks off : Nat) :
    Prog.Ends allowed (collect readBlock bytes fuel wmax blocks off outq) fun result =>
      List.Forall₂ Fills outq result.2 := by
  induction fuel generalizing wmax blocks off outq with
  | zero => exact fills_refl outq
  | succ fuel ih =>
      cases outq with
      | nil => exact .nil
      | cons nb rest =>
          unfold collect
          split
          · exact fills_refl _
          dsimp only
          split
          · split
            · exact fills_refl _
            · exact null
          · rename_i data rest'
            split
            · exact fills_refl _
            · refine Prog.ends_seq (ih _ _ _) ?_
              rintro ⟨total, rest''⟩ fills
              dsimp only at fills ⊢
              refine .cons (.same _) ?_
              cases fills with
              | cons first others =>
                  refine .cons ?_ others
                  split at first
                  · cases first with
                    | same => exact .fill _
                  · exact first
          · exact Prog.ends_seq (ih _ _ _) fun _ fills => .cons (.same _) fills

theorem ends_noteSent {nb : NetBuf} {post : Peer → Prop} (msgs : allowed .pieceMsgs)
    (noted : ∀ count flag, post { peer with npieceMsgs := count, noRequests := flag }) :
    Prog.Ends allowed (peer.noteSent nb) post := by
  unfold noteSent
  split
  · exact noted _ _
  · split
    · exact noted _ _
    · exact msgs
  · exact noted _ _

theorem ends_unlink {req : BlockRequest} {post : Peer → Prop} (unlinked : allowed .unlinked)
    (erased : req ∈ peer.myReqs →
      post { peer with nreqsOut := peer.nreqsOut - 1, myReqs := peer.myReqs.erase req }) :
    Prog.Ends allowed (peer.unlink req) post := by
  unfold unlink
  split
  · rename_i linked
    exact erased linked
  · exact unlinked

end

end Btpd.Download.Peer
