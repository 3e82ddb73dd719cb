import Btpd.Swarm.Roster
import Btpd.Library.Count

/-!
# References to the peers

`mp_hold`, `mp_drop` and what they are called for: a connection, the records of the
blocks that a peer has sent for a piece, and the mark of a banned peer each hold a
`meta_peer`.  The table of a torrent finds the attached ones by their ids.
-/

namespace Btpd.Swarm

open Prog

/-! ## The routines -/

namespace Table

variable (t : Table) (n m : Nat)

/-- Replace a `meta_peer`. -/
def setMp (mp : MetaPeer) : Table := { t with mp := Function.update t.mp m mp }

/-- `mptbl_find` -/
def mptblFind (id : List UInt8) : Option Nat :=
  (t.mptbl n).find? fun m => decide ((t.mp m).id = id)

/-- `mp_create` and `mp_hold` in `peer_create_common`. -/
def mpCreate : Table :=
  { t.setMp m ⟨true, 1, List.replicate 20 0, false⟩ with mps := m :: t.mps }

/-- `SHAKE_ID` of `net_state` notes the id, and `peer_on_shake` inserts it. -/
def mptblInsert (id : List UInt8) : Table :=
  { t.setMp m { t.mp m with id := id } with
    mptbl := Function.update t.mptbl n (m :: t.mptbl n)
    history := .attached n id :: t.history }

/-- `mptbl_remove` -/
def mptblRemove : Table :=
  { t with mptbl := Function.update t.mptbl n ((t.mptbl n).erase m) }

/-- `dl_find_piece` -/
def dlFindPiece (index : Nat) : Option Piece :=
  (t.getlst n).find? fun pc => decide (pc.index = index)

/-- Replace the logs of the first piece with the index. -/
def updatePiece (index : Nat) (logs : List (List BlogRecord)) : List Piece → List Piece
  | [] => []
  | pc :: pcs =>
      if pc.index = index then { pc with logs := logs } :: pcs
      else pc :: updatePiece index logs pcs

/-- Replace the logs of a piece. -/
def setLogs (index : Nat) (logs : List (List BlogRecord)) : Table :=
  { t with getlst := Function.update t.getlst n (updatePiece index logs (t.getlst n)) }

/-- `piece_alloc` -/
def pieceAlloc (index nblocks : Nat) : Table :=
  { t with getlst := Function.update t.getlst n (t.getlst n ++ [⟨index, nblocks, [[]]⟩]) }

/-- Take a piece off `getlst`. -/
def unlinkPiece (index : Nat) : Table :=
  { t with
    getlst := Function.update t.getlst n
      ((t.getlst n).eraseP fun pc => decide (pc.index = index)) }

end Table

/-- `mp_hold` -/
def mpHold (m : Nat) : Routine Unit :=
  call (.mpHold m) do
    let d ← get
    assert (m ∈ d.table.mps) .freed
    onTable fun t => t.setMp m { t.mp m with refs := ((t.mp m).refs + 1) % 2 ^ 16 }

/-- `mp_kill` -/
def mpKill (m : Nat) : Routine Unit := do
  let d ← get
  assert (m ∈ d.table.mps) .freed
  onTable fun t => { t with mps := t.mps.erase m }

/-- The part of `mp_drop` after the last reference has gone. -/
def mpGone (m : Nat) (n : Option Nat) : Routine Unit := do
  let d ← get
  assert ((d.table.mp m).p = false) .mpAlive
  when ((d.roster.peer m).attached = true) do
    match n with
    | none => fault .nullDeref
    | some n => do
        assert (d.table.mptblFind n (d.table.mp m).id = some m) .mptblRemove
        onTable fun t => t.mptblRemove n m
  mpKill m

/-- `mp_drop` -/
def mpDrop (m : Nat) (n : Option Nat) : Routine Unit := do
  let d ← get
  assert (m ∈ d.table.mps) .freed
  assert (0 < (d.table.mp m).refs) .mpRefs
  onTable fun t => t.setMp m { t.mp m with refs := (t.mp m).refs - 1 }
  when ((d.table.mp m).refs - 1 = 0) (mpGone m n)

/-- `net_ban_peer` -/
def netBanPeer (n m : Nat) : Routine Unit := do
  let d ← get
  when ((d.table.mp m).banned = false) do
    mpHold m
    onTable fun t => { t.setMp m { t.mp m with banned := true } with
      history := .banned n (t.mp m).id :: t.history }

/-- `piece_log_free` -/
def pieceLogFree (n : Nat) (log : List BlogRecord) : Routine Unit :=
  forEach log fun r => mpDrop r.mp (some n)

/-- `piece_log_block` for the block with the number `block`. -/
def pieceLogBlock (n index p block : Nat) : Routine Unit := do
  let d ← get
  match d.table.dlFindPiece n index with
  | none => fault .nullDeref
  | some pc =>
      match pc.logs with
      | [] => fault .nullDeref
      | log :: logs =>
          match log.find? fun r => decide (r.mp = p) with
          | none => do
              mpHold p
              onTable fun t => t.setLogs n index
                ((⟨p, Function.update (fun _ => false) block true⟩ :: log) :: logs)
          | some r =>
              onTable fun t => t.setLogs n index
                (({ r with downField := Function.update r.downField block true } ::
                  log.eraseP fun r => decide (r.mp = p)) :: logs)

/-- `piece_free`, as far as the logs are concerned. -/
def pieceFree (n index : Nat) : Routine Unit := do
  let d ← get
  match d.table.dlFindPiece n index with
  | none => fault .nullDeref
  | some pc => do
      onTable fun t => t.unlinkPiece n index
      forEach pc.logs (pieceLogFree n)

/-- `piece_log_bad`, as far as bans and logs are concerned. -/
def pieceLogBad (n : Nat) (pc : Piece) : Routine Unit :=
  match pc.logs with
  | [] => fault .nullDeref
  | [] :: _ => fault .nullDeref
  | [r] :: logs =>
      if ∀ i ∈ List.range pc.nblocks, r.downField i = true then do
        netBanPeer n r.mp
        onTable fun t => t.setLogs n pc.index logs
        pieceLogFree n [r]
        onTable fun t => t.setLogs n pc.index ([] :: logs)
      else onTable fun t => t.setLogs n pc.index ([] :: [r] :: logs)
  | log :: logs => onTable fun t => t.setLogs n pc.index ([] :: log :: logs)

/-- `piece_log_good`, as far as bans are concerned: the older logs name the peers
that are found out. -/
def pieceLogGood (n : Nat) (pc : Piece) (culprit : Nat → Bool) : Routine Unit :=
  forEach pc.logs.tail fun log =>
    forEach log fun r => when (culprit r.mp = true) (netBanPeer n r.mp)

/-- `dl_on_bad_piece` -/
def dlOnBadPiece (n index : Nat) : Routine Unit := do
  let d ← get
  match d.table.dlFindPiece n index with
  | none => fault .nullDeref
  | some pc => pieceLogBad n pc

/-- `dl_on_ok_piece` -/
def dlOnOkPiece (n index : Nat) (culprit : Nat → Bool) : Routine Unit := do
  let d ← get
  match d.table.dlFindPiece n index with
  | none => fault .nullDeref
  | some pc => do
      pieceLogGood n pc culprit
      pieceFree n index

/-- The loop of `net_stop` that frees all pieces. -/
def piecesFree (n : Nat) : (fuel : Nat) → Routine Unit
  | 0 => fault .diverge
  | fuel + 1 => do
      let d ← get
      match d.table.getlst n with
      | [] => pure ()
      | pc :: _ => do
          pieceFree n pc.index
          piecesFree n fuel

/-- The loop of `net_kill`. -/
def mpsKill (n : Nat) : Routine Unit := do
  let d ← get
  forEach (d.table.mptbl n) mpKill
  onTable fun t => { t with mptbl := Function.update t.mptbl n [] }

end Btpd.Swarm
