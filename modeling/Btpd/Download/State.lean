import Btpd.Library.Program
import Btpd.Library.Segments
import Mathlib

/-!
# The state of an active torrent

The structures `net`, `piece`, `peer` and `content` as the download code uses
them.  A peer and its `meta_peer` are one record, which stays after the peer is
lost because bans and block logs still refer to it; a peer is attached when its
number is in `peers`.  A `struct piece` is found by its index, and exists when
the index is in `getlst`.

Pointers become values: a request message carries the number it was created
under, so two messages are equal exactly when they are one buffer, and so does a
`block_request`.  Reference counts, timestamps, transfer rates and the queues of
the bandwidth limiter are left out, since no download decision reads them.
-/

namespace Btpd.Download

/-- `PIECE_BLOCKLEN` -/
def pieceBlocklen : Nat := 2 ^ 14

/-- `MAXPIPEDREQUESTS` -/
def maxPipedRequests : Nat := 10

/-- `MAXPIECEMSGS` -/
def maxPieceMsgs : Nat := 128

/-- `IOV_MAX` -/
def iovMax : Nat := 1024

/-- `BLOCK_MEM_COUNT` -/
def blockMemCount : Nat := 1

/-- The torrent, with the lengths of its files and the file on the disk that the
path of each of them names, and the constants of the daemon that runs it: its
peer id, `cm_alloc_size`, the hash function, and the numbers that `random` draws.
A torrent comes in a message with a length of 32 bits, with 20 bytes for each
piece, so no product of `npieces` here overflows. -/
structure Torrent where
  npieces : Nat
  pieceLength : Nat
  files : List Nat
  inode : Nat → Nat
  hash : Vector UInt8 20
  peerId : Vector UInt8 20
  pieceHash : Nat → List UInt8
  sha1 : List UInt8 → List UInt8
  cmAllocSize : Nat
  random : Nat → Nat

namespace Torrent

variable (t : Torrent)

/-- `mi_total_length` -/
def totalLength : Nat := t.files.sum

/-- `torrent_piece_size` -/
def torrentPieceSize (index : Nat) : Int :=
  if index + 1 < t.npieces then t.pieceLength
  else (t.totalLength : Int) - t.pieceLength * (t.npieces - 1)

/-- `torrent_piece_blocks` -/
def torrentPieceBlocks (piece : Nat) : Nat :=
  ((t.torrentPieceSize piece + (pieceBlocklen - 1)) / pieceBlocklen).toNat

/-- `torrent_block_size` -/
def torrentBlockSize (piece nblocks block : Nat) : Nat :=
  if block + 1 < nblocks then pieceBlocklen
  else ((t.torrentPieceSize piece - pieceBlocklen * (nblocks - 1)) % 2 ^ 32).toNat

/-- `ceil(npieces / 8.0)` -/
def fieldBytes : Nat := (t.npieces + 7) / 8

/-- Different entries of `files` name different files. -/
def Apart : Prop := Set.InjOn t.inode (Set.Iio t.files.length)

/-- Where a byte of the whole is: the file, and the place in it.  Nothing is stored behind the
last file. -/
def place (offset : Nat) : Option Nat × Nat :=
  match Segments.locate t.files offset with
  | none => (none, offset)
  | some (i, j) => (some (t.inode i), j)

end Torrent

/-! ## Messages -/

/-- A request buffer: the number it was created under, and what
`nb_get_index`, `nb_get_begin` and `nb_get_length` read from it. -/
structure ReqMsg where
  id : Nat
  index : Nat
  begin : Nat
  length : Nat
  deriving DecidableEq, Repr

/-- A `net_buf`.  The data of a block is filled in when its header is about to be
written.  A `bitdata` buffer is the live piece field; `held` are the pieces that
it names when it is queued. -/
inductive NetBuf
  | choke
  | unchoke
  | interest
  | uninterest
  | haveMsg (index : Nat)
  | bitfield
  | request (msg : ReqMsg)
  | piece (index begin length : Nat)
  | cancel (index begin length : Nat)
  | torrentData (data : Option (List UInt8))
  | multihave (pieces : List Nat)
  | bitdata (nbytes : Nat) (held : List Nat)
  | shake
  | keepalive
  deriving DecidableEq, Repr

/-- `nb->len` -/
def NetBuf.len : NetBuf → Nat
  | .choke | .unchoke | .interest | .uninterest | .bitfield => 5
  | .haveMsg _ => 9
  | .request _ | .cancel .. => 17
  | .piece .. => 13
  | .torrentData data => (data.getD []).length
  | .multihave pieces => 9 * pieces.length
  | .bitdata nbytes _ => nbytes
  | .shake => 68
  | .keepalive => 4

/-- `enc_be32` -/
def encBe32 (x : Nat) : List UInt8 :=
  [.ofNat (x / 2 ^ 24), .ofNat (x / 2 ^ 16), .ofNat (x / 2 ^ 8), .ofNat x]

/-- The byte `j` of a bit field, as `set_bit` lays it out. -/
def fieldByte (bits : Nat → Bool) (j : Nat) : UInt8 :=
  .ofNat ((List.range 8).map fun k => if bits (8 * j + k) then 2 ^ (7 - k) else 0).sum

/-- `nb_create_shake` -/
def shakeBytes (t : Torrent) : List UInt8 :=
  19 :: "BitTorrent protocol".toList.map (fun c => .ofNat c.toNat) ++ List.replicate 8 0 ++
    t.hash.toList ++ t.peerId.toList

/-- `nb_create_have` -/
def haveBytes (index : Nat) : List UInt8 := encBe32 5 ++ [4] ++ encBe32 index

/-- `nb->buf`, when the piece field of the content is `held`. -/
def NetBuf.bytes (t : Torrent) (held : Nat → Bool) : NetBuf → List UInt8
  | .choke => encBe32 1 ++ [0]
  | .unchoke => encBe32 1 ++ [1]
  | .interest => encBe32 1 ++ [2]
  | .uninterest => encBe32 1 ++ [3]
  | .haveMsg index => haveBytes index
  | .bitfield => encBe32 (t.fieldBytes + 1) ++ [5]
  | .request msg =>
      encBe32 13 ++ [6] ++ encBe32 msg.index ++ encBe32 msg.begin ++ encBe32 msg.length
  | .piece index begin length =>
      encBe32 (9 + length) ++ [7] ++ encBe32 index ++ encBe32 begin
  | .cancel index begin length =>
      encBe32 13 ++ [8] ++ encBe32 index ++ encBe32 begin ++ encBe32 length
  | .torrentData data => data.getD []
  | .multihave pieces => pieces.flatMap haveBytes
  | .bitdata nbytes _ => (List.range nbytes).map (fieldByte held)
  | .shake => shakeBytes t
  | .keepalive => encBe32 0

/-- How many of `k` bytes of a buffer are block data. -/
def NetBuf.dataBytes : NetBuf → Nat → Nat
  | .torrentData _, k => k
  | _, _ => 0

/-- `struct block_request` -/
structure BlockRequest where
  id : Nat
  p : Nat
  msg : ReqMsg
  deriving DecidableEq, Repr

/-! ## Peers -/

/-- `struct peer` and the flags of its `meta_peer`. -/
structure Peer where
  pieceField : Nat → Bool
  badField : Option (Nat → Bool)
  npieces : Nat
  nwant : Nat
  npcsBad : Nat
  suspicion : Nat
  myReqs : List BlockRequest
  nreqsOut : Nat
  npieceMsgs : Nat
  outqOff : Nat
  outq : List NetBuf
  /-- `PF_I_WANT` -/
  iWant : Bool
  /-- `PF_I_CHOKE` -/
  iChoke : Bool
  /-- `PF_P_WANT` -/
  pWant : Bool
  /-- `PF_P_CHOKE` -/
  pChoke : Bool
  /-- `PF_NO_REQUESTS` -/
  noRequests : Bool
  /-- `PF_DO_UNWANT` -/
  doUnwant : Bool
  /-- `PF_SUSPECT` -/
  suspect : Bool
  /-- `PF_BANNED` -/
  banned : Bool
  /-- What has been written to the peer in full, oldest first.  No routine reads it. -/
  sent : List NetBuf
  /-- The bytes that the socket took, oldest first.  No routine reads them. -/
  wire : List UInt8

/-! ## Pieces -/

/-- `struct blog_record` -/
structure LogRecord where
  mp : Nat
  downField : Nat → Bool

/-- `struct blog` -/
structure BlockLog where
  records : List LogRecord
  hashes : Option (Nat → List UInt8)

/-- `struct piece`; its `have_field` is the block field of the content. -/
structure Piece where
  nreqs : Nat
  nblocks : Nat
  ngot : Nat
  nbusy : Nat
  nextBlock : Nat
  egReqs : Option (Nat → Option ReqMsg)
  reqs : List BlockRequest
  logs : List BlockLog
  downField : Nat → Bool

/-- `piece_full` -/
def Piece.full (pc : Piece) : Prop := pc.ngot + pc.nbusy = pc.nblocks

instance (pc : Piece) : Decidable pc.full := inferInstanceAs (Decidable (_ = _))

/-! ## The torrent's state -/

/-- `struct content`; `data` is the bytes of the files. -/
structure Content where
  npiecesGot : Nat
  pieceField : Nat → Bool
  blockField : Nat → Nat → Bool
  posField : Nat → Bool
  data : Option Nat × Nat → UInt8

/-- `struct net` with the content of the torrent, and the counters that give
peers, requests and their messages their numbers and count the draws. -/
structure Net where
  endgame : Bool
  busyField : Nat → Bool
  npcsBusy : Nat
  pieceCount : Nat → Nat
  getlst : List Nat
  piece : Nat → Piece
  peers : List Nat
  peer : Nat → Peer
  cm : Content
  /-- The torrent's state is `T_SEED` and no longer `T_LEECH`. -/
  seed : Bool
  uploaded : Nat
  nextPeer : Nat
  nextReq : Nat
  nextMsg : Nat
  draws : Nat

/-- The ways in which the download code stops: its assertions, by what they
check, and the undefined operations of C. -/
inductive Fault
  /-- `nwant < npieces` in `peer_want` -/
  | wantBound
  /-- `PF_DO_UNWANT` is clear in `peer_want` -/
  | wantDoUnwantSet
  /-- `PF_DO_UNWANT` is set in `peer_want` -/
  | wantDoUnwantClear
  /-- `nwant > 0` in `peer_unwant` -/
  | unwantZero
  /-- `nwant == 0` in `peer_on_no_reqs` -/
  | noReqsWanted
  /-- `PF_I_WANT` is set in `peer_good_piece` -/
  | goodPieceUnwanted
  /-- the assertions on `bad_field` and `npcs_bad` -/
  | badField
  /-- `outq_off == 0` in `peer_send` -/
  | outqOff
  /-- `npiece_msgs > 0` -/
  | pieceMsgs
  /-- the queue is not empty in `net_write` -/
  | writeEmpty
  /-- `nreqs_out < MAXPIPEDREQUESTS` in `peer_request`, `!peer_laden` in
  `dl_piece_assign_requests` and at the end of a piece in `dl_assign_requests` -/
  | laden
  /-- `nreqs_out > 0` in `peer_on_piece` -/
  | noReqsOut
  /-- `npieces == 0` in `peer_on_bitfield` -/
  | bitfieldTwice
  /-- `nwant == 0` in `dl_enter_endgame` -/
  | endgameWanted
  /-- `nwant == 0` in `torrent_on_tick` -/
  | tickWanted
  /-- `pc != NULL` in `dl_on_piece_ann` -/
  | annNoPiece
  /-- `!endgame` in `dl_assign_requests` -/
  | assignEndgame
  /-- `peer_leech_ok` in `dl_assign_requests` and `dl_assign_requests_eg` -/
  | assignLeech
  /-- `endgame == 0` in `dl_choose_rarest` -/
  | rarestEndgame
  /-- `endgame == 0` in `dl_on_piece_unfull` -/
  | unfullEndgame
  /-- `!piece_full` in `dl_on_piece_unfull` -/
  | unfullFull
  /-- `!piece_full` in `dl_piece_assign_requests` -/
  | assignFull
  /-- the block is marked in `dl_unassign_requests` -/
  | unassignDown
  /-- `my_reqs` is empty at the end of `dl_unassign_requests` -/
  | unassignLeft
  /-- `my_reqs` is empty at the end of `dl_unassign_requests_eg` -/
  | unassignEgLeft
  /-- `nreqs == 0` in `dl_on_ok_piece` -/
  | okPieceReqs
  /-- the block is not stored yet in `cm_put_bytes` -/
  | putBlock
  /-- the piece is not verified yet in `cm_put_bytes` -/
  | putPiece
  /-- a piece that is filled with zeros in `cm_put_bytes` is not verified -/
  | putZero
  /-- `npieces_got < npieces` in `cm_test_piece` -/
  | testFull
  /-- the assertions on `busy_field` and `npcs_busy` -/
  | busyField
  /-- `ngot < nblocks` in `piece_alloc` -/
  | allocFull
  /-- A null pointer is followed. -/
  | nullDeref
  /-- A bit outside the piece field of a peer is touched. -/
  | fieldBounds
  /-- A cell outside `piece_count` is touched. -/
  | pieceBounds
  /-- A cell outside another array is touched. -/
  | outOfBounds
  /-- A number is divided by zero. -/
  | divideByZero
  /-- A loop never ends. -/
  | diverge
  /-- An element is removed from a list that it is not on. -/
  | unlinked
  /-- A request is freed while a peer still links it. -/
  | dangling
  deriving DecidableEq, Repr

/-- The routines whose calls are recorded. -/
inductive Fn
  | peerWant (p index : Nat)
  | peerGoodPiece (p index : Nat)
  | peerOnHave (p index : Nat)
  | peerOnBitfield (p : Nat)
  | peerOnRequest (p index begin length : Nat)
  | dlOnPieceAnn (p index : Nat)
  | dlEnterEndgame
  | dlOnPieceFull (index : Nat)
  | dlOnPieceUnfull (index : Nat)
  | dlOnOkPiece (piece : Nat)
  | pieceLogBad (index : Nat)
  deriving DecidableEq, Repr

/-- A routine of the download code. -/
abbrev Routine := Prog Net Fn Fault

/-! ## Reading and writing the state -/

namespace Piece

/-- Take a request off `reqs`. -/
def unlink (pc : Piece) (req : BlockRequest) : Except Fault Piece :=
  if req ∈ pc.reqs then .ok { pc with reqs := pc.reqs.erase req } else .error .unlinked

/-- `INCNEXTBLOCK` -/
def incNextBlock (pc : Piece) : Piece :=
  { pc with nextBlock := (pc.nextBlock + 1) % pc.nblocks }

end Piece

namespace Net

/-- Replace the record of a peer. -/
def setPeer (n : Net) (p : Nat) (peer : Peer) : Net :=
  { n with peer := Function.update n.peer p peer }

/-- Replace the `struct piece` of an index. -/
def setPiece (n : Net) (index : Nat) (pc : Piece) : Net :=
  { n with piece := Function.update n.piece index pc }

end Net

/-- Run a routine of one peer on the peer `p`. -/
def onPeer (p : Nat) (f : Peer → Except Fault Peer) : Routine Unit := do
  let n ← Prog.get
  let peer ← Prog.ofExcept (f (n.peer p))
  Prog.modify (·.setPeer p peer)

/-- Run a routine of one piece on the piece `index`. -/
def onPiece (index : Nat) (f : Piece → Except Fault Piece) : Routine Unit := do
  let n ← Prog.get
  let pc ← Prog.ofExcept (f (n.piece index))
  Prog.modify (·.setPiece index pc)

namespace Net

variable (n : Net) (p index : Nat) (peer : Peer) (pc : Piece)

@[simp] theorem setPeer_peer (q : Nat) :
    (n.setPeer p peer).peer q = if q = p then peer else n.peer q := by
  simp [setPeer, Function.update_apply]

@[simp] theorem setPeer_peers : (n.setPeer p peer).peers = n.peers := rfl
@[simp] theorem setPeer_endgame : (n.setPeer p peer).endgame = n.endgame := rfl
@[simp] theorem setPeer_getlst : (n.setPeer p peer).getlst = n.getlst := rfl
@[simp] theorem setPeer_piece : (n.setPeer p peer).piece = n.piece := rfl
@[simp] theorem setPeer_cm : (n.setPeer p peer).cm = n.cm := rfl
@[simp] theorem setPeer_pieceCount : (n.setPeer p peer).pieceCount = n.pieceCount := rfl
@[simp] theorem setPeer_busyField : (n.setPeer p peer).busyField = n.busyField := rfl
@[simp] theorem setPeer_npcsBusy : (n.setPeer p peer).npcsBusy = n.npcsBusy := rfl

@[simp] theorem setPiece_piece (i : Nat) :
    (n.setPiece index pc).piece i = if i = index then pc else n.piece i := by
  simp [setPiece, Function.update_apply]

@[simp] theorem setPiece_peer : (n.setPiece index pc).peer = n.peer := rfl
@[simp] theorem setPiece_peers : (n.setPiece index pc).peers = n.peers := rfl
@[simp] theorem setPiece_endgame : (n.setPiece index pc).endgame = n.endgame := rfl
@[simp] theorem setPiece_getlst : (n.setPiece index pc).getlst = n.getlst := rfl
@[simp] theorem setPiece_cm : (n.setPiece index pc).cm = n.cm := rfl
@[simp] theorem setPiece_pieceCount : (n.setPiece index pc).pieceCount = n.pieceCount := rfl
@[simp] theorem setPiece_busyField : (n.setPiece index pc).busyField = n.busyField := rfl
@[simp] theorem setPiece_npcsBusy : (n.setPiece index pc).npcsBusy = n.npcsBusy := rfl

end Net

section

variable {k : Contract Net Fn Fault} {callers : List Fn} {post : Unit → Net → Prop} {n : Net}

@[simp]
theorem wp_onPeer {p : Nat} {f : Peer → Except Fault Peer} :
    (onPeer p f).wp k callers post n ↔
      Prog.Ends k.allowed (f (n.peer p)) fun peer => post () (n.setPeer p peer) := by
  simp [onPeer]

@[simp]
theorem wp_onPiece {index : Nat} {f : Piece → Except Fault Piece} :
    (onPiece index f).wp k callers post n ↔
      Prog.Ends k.allowed (f (n.piece index)) fun pc => post () (n.setPiece index pc) := by
  simp [onPiece]

end

/-- `set_bit` -/
def setBit (bits : Nat → Bool) (index : Nat) : Nat → Bool := Function.update bits index true

/-- `clear_bit` -/
def clearBit (bits : Nat → Bool) (index : Nat) : Nat → Bool := Function.update bits index false

end Btpd.Download
