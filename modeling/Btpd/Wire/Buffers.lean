import Btpd.Input.Parser
import Btpd.Download.State

/-!
# The buffers of outgoing messages

`net_buf.c`: every message is written into a buffer at fixed places, and some buffers are
read again when an answer is matched with its request.
-/

namespace Btpd.Wire

open Download (encBe32)
open Input (decBe32 sub32 fieldBytes)

/-- The types `NB_...` of a buffer. -/
inductive NbType
  | choke | unchoke | interest | uninterest | have | bitfield | request | piece | cancel
  | torrentdata | multihave | bitdata | shake | keepalive
  deriving DecidableEq

/-- `struct net_buf`; `nb->len` is the length of `buf`. -/
structure NetBuf where
  type : NbType
  buf : List UInt8
  deriving DecidableEq

namespace NetBuf

/-- Write bytes to a place of the buffer. -/
def write (nb : NetBuf) (off : Nat) (bytes : List UInt8) : NetBuf :=
  { nb with buf := nb.buf.take off ++ bytes ++ nb.buf.drop (off + bytes.length) }

/-- `enc_be32(nb->buf + off, num)` -/
def enc (nb : NetBuf) (off num : Nat) : NetBuf := nb.write off (encBe32 num)

/-- `nb->buf[off] = c` -/
def put (nb : NetBuf) (off : Nat) (c : UInt8) : NetBuf := nb.write off [c]

end NetBuf

/-! ## Creation -/

/-- `nb_create_alloc` -/
def nbCreateAlloc (type : NbType) (len : Nat) : NetBuf := ⟨type, List.replicate len 0⟩

/-- `nb_create_set` -/
def nbCreateSet (type : NbType) (buf : List UInt8) : NetBuf := ⟨type, buf⟩

def nbCreateOnesized (mtype : UInt8) (btype : NbType) : NetBuf :=
  ((nbCreateAlloc btype 5).enc 0 1).put 4 mtype

def nbCreateKeepalive : NetBuf := (nbCreateAlloc .keepalive 4).enc 0 0

def nbCreateChoke : NetBuf := nbCreateOnesized 0 .choke

def nbCreateUnchoke : NetBuf := nbCreateOnesized 1 .unchoke

def nbCreateInterest : NetBuf := nbCreateOnesized 2 .interest

def nbCreateUninterest : NetBuf := nbCreateOnesized 3 .uninterest

def nbCreateHave (index : Nat) : NetBuf :=
  (((nbCreateAlloc .have 9).enc 0 5).put 4 4).enc 5 index

def nbCreateRequest (index begin length : Nat) : NetBuf :=
  (((((nbCreateAlloc .request 17).enc 0 13).put 4 6).enc 5 index).enc 9 begin).enc 13 length

def nbCreateCancel (index begin length : Nat) : NetBuf :=
  (((((nbCreateAlloc .cancel 17).enc 0 13).put 4 8).enc 5 index).enc 9 begin).enc 13 length

def nbCreatePiece (index begin blen : Nat) : NetBuf :=
  ((((nbCreateAlloc .piece 13).enc 0 (9 + blen)).put 4 7).enc 5 index).enc 9 begin

/-- `nb_create_torrentdata`, when `nb_torrentdata_fill` has filled it. -/
def nbTorrentdata (content : List UInt8) : NetBuf := nbCreateSet .torrentdata content

def nbCreateBitfield (npieces : Nat) : NetBuf :=
  ((nbCreateAlloc .bitfield 5).enc 0 (fieldBytes npieces + 1)).put 4 5

/-- `nb_create_bitdata`, over the first bytes of the piece field. -/
def nbCreateBitdata (npieces : Nat) (pieceField : List UInt8) : NetBuf :=
  nbCreateSet .bitdata (pieceField.take (fieldBytes npieces))

def nbCreateShake (hash peerId : List UInt8) : NetBuf :=
  (((nbCreateAlloc .shake 68).write 0 (Input.pstr ++ List.replicate 8 0)).write 28 hash).write 48
    peerId

/-- The loop of `nb_create_multihave`, which runs on `i` until it has counted `have_npieces`
pieces; `none` is a loop that has not ended within its fuel. -/
def multihaveLoop (cmHasPiece : Nat → Bool) (haveNpieces : Nat) :
    (fuel i count : Nat) → NetBuf → Option NetBuf
  | 0, _, _, _ => none
  | fuel + 1, i, count, out =>
      if count < haveNpieces then
        if cmHasPiece i = true then
          let out := out.enc (count * 9 % 2 ^ 32) 5
          let out := out.put ((count * 9 + 4) % 2 ^ 32) 4
          let out := out.enc ((count * 9 + 5) % 2 ^ 32) i
          multihaveLoop cmHasPiece haveNpieces fuel (i + 1) (count + 1) out
        else multihaveLoop cmHasPiece haveNpieces fuel (i + 1) count out
      else some out

/-- `nb_create_multihave`, where `9 * have_npieces` is a `uint32_t`. -/
def nbCreateMultihave (fuel : Nat) (cmHasPiece : Nat → Bool) (cmPieces : Nat) : Option NetBuf :=
  multihaveLoop cmHasPiece cmPieces fuel 0 0 (nbCreateAlloc .multihave (9 * cmPieces % 2 ^ 32))

/-! ## Access -/

/-- `nb_get_index`; `none` is the call of `abort`. -/
def nbGetIndex (nb : NetBuf) : Option Nat :=
  match nb.type with
  | .cancel | .have | .piece | .request => some (decBe32 (nb.buf.drop 5))
  | _ => none

/-- `nb_get_begin` -/
def nbGetBegin (nb : NetBuf) : Option Nat :=
  match nb.type with
  | .cancel | .piece | .request => some (decBe32 (nb.buf.drop 9))
  | _ => none

/-- `nb_get_length` -/
def nbGetLength (nb : NetBuf) : Option Nat :=
  match nb.type with
  | .cancel | .request => some (decBe32 (nb.buf.drop 13))
  | .piece => some (sub32 (decBe32 nb.buf) 9)
  | _ => none

/-! ## What the daemon sends -/

/-- A torrent, as far as its messages go.  It has come to the daemon in a command whose length
is a `uint32_t`, and its metainfo has twenty bytes for each piece. -/
structure Torrent where
  hash : List UInt8
  npieces : Nat
  pieceSize : Nat → Nat
  length_hash : hash.length = 20
  pieces_lt : 20 * npieces < 2 ^ 32

/-- A message as the daemon builds it, in one buffer or two. -/
inductive Outgoing
  | keepalive
  | choke
  | unchoke
  | interest
  | uninterest
  | have (index : Nat)
  /-- The bit field and the live piece field behind it. -/
  | bitfield (pieceField : List UInt8)
  /-- The pieces that `cm_has_piece` knows. -/
  | multihave (cmHasPiece : Nat → Bool)
  | request (index begin length : Nat)
  | cancel (index begin length : Nat)
  /-- A block and its content behind it. -/
  | piece (index begin : Nat) (content : List UInt8)
  | shake (hash peerId : List UInt8)

/-- `cm_pieces`, the number of pieces that `cm_has_piece` knows. -/
def cmPieces (npieces : Nat) (cmHasPiece : Nat → Bool) : Nat :=
  ((List.range npieces).filter cmHasPiece).length

/-- The buffers of a message of a torrent with so many pieces. -/
def Outgoing.bufs (npieces fuel : Nat) : Outgoing → Option (List NetBuf)
  | .keepalive => some [nbCreateKeepalive]
  | .choke => some [nbCreateChoke]
  | .unchoke => some [nbCreateUnchoke]
  | .interest => some [nbCreateInterest]
  | .uninterest => some [nbCreateUninterest]
  | .have index => some [nbCreateHave index]
  | .bitfield pieceField => some [nbCreateBitfield npieces, nbCreateBitdata npieces pieceField]
  | .multihave cmHasPiece =>
      (nbCreateMultihave fuel cmHasPiece (cmPieces npieces cmHasPiece)).map fun nb => [nb]
  | .request index begin length => some [nbCreateRequest index begin length]
  | .cancel index begin length => some [nbCreateCancel index begin length]
  | .piece index begin content =>
      some [nbCreatePiece index begin content.length, nbTorrentdata content]
  | .shake hash peerId => some [nbCreateShake hash peerId]

/-- The bytes of buffers that are written one after the other. -/
def wire (nbs : List NetBuf) : List UInt8 := nbs.flatMap NetBuf.buf

namespace Outgoing

/-- The values of a message belong to the torrent, and they are of the type `uint32_t`. -/
def Valid (t : Torrent) : Outgoing → Prop
  | .have index => index < t.npieces
  | .bitfield pieceField => fieldBytes t.npieces ≤ pieceField.length
  | .request index begin length | .cancel index begin length =>
      index < t.npieces ∧ begin < 2 ^ 32 ∧ length ≤ Input.pieceBlocklen ∧
        begin + length ≤ t.pieceSize index
  | .piece index begin content =>
      index < t.npieces ∧ begin < 2 ^ 32 ∧ content.length ≤ Input.pieceBlocklen ∧
        begin + content.length ≤ t.pieceSize index
  | .shake hash peerId => hash = t.hash ∧ peerId.length = 20
  | _ => True

/-- The messages that the handlers of the peer are to see. -/
def messages (npieces : Nat) : Outgoing → List Input.Message
  | .keepalive | .shake _ _ => []
  | .choke => [.choke]
  | .unchoke => [.unchoke]
  | .interest => [.interest]
  | .uninterest => [.uninterest]
  | .have index => [.have index]
  | .bitfield pieceField => [.bitfield (pieceField.take (fieldBytes npieces))]
  | .multihave cmHasPiece => ((List.range npieces).filter cmHasPiece).map .have
  | .request index begin length => [.request index begin length]
  | .cancel index begin length => [.cancel index begin length]
  | .piece index begin content => [.piece index begin content.length content]

/-- The values that the first buffer of a message has been created with, where it has them. -/
def index? : Outgoing → Option Nat
  | .have index | .request index _ _ | .cancel index _ _ | .piece index _ _ => some index
  | _ => none

def begin? : Outgoing → Option Nat
  | .request _ begin _ | .cancel _ begin _ | .piece _ begin _ => some begin
  | _ => none

def length? : Outgoing → Option Nat
  | .request _ _ length | .cancel _ _ length => some length
  | .piece _ _ content => some content.length
  | _ => none

end Outgoing

end Btpd.Wire
