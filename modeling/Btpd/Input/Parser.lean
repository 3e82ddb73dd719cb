import Mathlib

/-!
# The input parser of a connection

What a connection has received is parsed by `net_state`, one unit at a time: the
three parts of the handshake, then of every message its length, its type and what
belongs to the type.  `in.st_bytes` says how long the unit is that comes next.
`net_read` gives `net_state` whole units straight from its own buffer and keeps the
beginning of a unit in `in.buf`, where the next read completes it.

What the rest of the program answers to a message is a function of the messages
before.
-/

namespace Btpd.Input

/-- `enum input_state`. -/
inductive InState
  | shakePstr | shakeInfo | shakeId
  | btpMsgsize | btpMsghead | btpPiecemeta | btpMsgbody
  deriving DecidableEq, Repr

/-- `PIECE_BLOCKLEN`. -/
def pieceBlocklen : Nat := 2 ^ 14

/-- `GRBUFLEN`, the size of the buffer of `net_read`. -/
def grbuflen : Nat := 2 ^ 15

/-- `dec_be32`. -/
def decBe32 (buf : List UInt8) : Nat :=
  (buf.take 4).foldl (fun n b => n * 256 + b.toNat) 0

/-- `a - b` for two `uint32_t`. -/
def sub32 (a b : Nat) : Nat := (a + (2 ^ 32 - b)) % 2 ^ 32

/-- The bytes of a bit field of so many pieces, `ceil(npieces / 8.0)`. -/
def fieldBytes (npieces : Nat) : Nat := (npieces + 7) / 8

/-- What the handler of a message is called with. -/
inductive Message
  | choke | unchoke | interest | uninterest
  | have (index : Nat)
  | bitfield (field : List UInt8)
  | request (index begin length : Nat)
  | cancel (index begin length : Nat)
  | piece (index begin length : Nat) (data : List UInt8)
  deriving DecidableEq, Repr

/-- A message that `net_dispatch_msg` has given to its handler: how many bytes of
payload the handler takes, and the payload that the buffer has. -/
structure Dispatch where
  msg : Message
  length : Nat
  payload : List UInt8
  deriving DecidableEq, Repr

/-- The rest of the program, as the parser of one connection sees it. -/
structure Host where
  /-- `PF_INCOMING`, the peer has made the connection. -/
  incoming : Bool
  /-- The hash and the number of pieces of the torrent we have made it for. -/
  hash : List UInt8
  npieces : Nat
  /-- `torrent_by_hash` and `net_active`: the number of pieces of the torrent. -/
  torrentByHash : List UInt8 → Option Nat
  netTorrentHasPeer : List UInt8 → Bool
  btpdGetPeerId : List UInt8
  torrentPieceSize : Nat → Nat
  /-- `p->npieces != 0` after these messages. -/
  announced : List Dispatch → Bool
  /-- `PF_P_WANT` without `PF_I_CHOKE` after these messages. -/
  serves : List Dispatch → Bool
  /-- `cm_has_piece` after these messages. -/
  cmHasPiece : List Dispatch → Nat → Bool

/-- A call of `net_state`: the state, the length of the message and the unit. -/
structure Call where
  state : InState
  msgLen : Nat
  buf : List UInt8
  deriving DecidableEq, Repr

/-- `p->in` without its buffer, and what the parser has done. -/
structure Parser where
  state : InState
  stBytes : Nat
  msgLen : Nat
  msgNum : Nat
  pcIndex : Nat
  pcBegin : Nat
  /-- The number of pieces of `p->n->tp`. -/
  npieces : Nat
  /-- What the connection has added to `p->n->downloaded`. -/
  downloaded : Nat
  calls : List Call
  dispatched : List Dispatch
  killed : Bool
  deriving DecidableEq, Repr

namespace Parser

/-- A new connection, `peer_create_common`. -/
def create (h : Host) : Parser where
  state := .shakePstr
  stBytes := 28
  msgLen := 0
  msgNum := 0
  pcIndex := 0
  pcBegin := 0
  npieces := if h.incoming then 0 else h.npieces
  downloaded := 0
  calls := []
  dispatched := []
  killed := false

/-- `peer_set_in_state`. -/
def setInState (p : Parser) (state : InState) (size : Nat) : Parser :=
  { p with state := state, stBytes := size }

/-- `peer_kill`. -/
def kill (p : Parser) : Parser := { p with killed := true }

/-- The unit is a payload when the type of the message came before it. -/
def payload (p : Parser) (buf : List UInt8) : List UInt8 :=
  if p.state = .btpMsgbody then buf else []

/-- Give a message to its handler, which takes `length` bytes of the buffer. -/
def give (p : Parser) (buf : List UInt8) (length : Nat) (msg : Message) : Parser :=
  { p with dispatched := p.dispatched ++ [⟨msg, length, p.payload buf⟩] }

end Parser

/-- `net_dispatch_msg`, which fails on a bit field that comes too late and on a
request that we cannot answer. -/
def netDispatchMsg (h : Host) (p : Parser) (buf : List UInt8) : Option Parser :=
  match p.msgNum with
  | 0 => some (p.give buf 0 .choke)
  | 1 => some (p.give buf 0 .unchoke)
  | 2 => some (p.give buf 0 .interest)
  | 3 => some (p.give buf 0 .uninterest)
  | 4 => some (p.give buf 4 (.have (decBe32 buf)))
  | 5 =>
      if h.announced p.dispatched then none
      else some (p.give buf (fieldBytes p.npieces) (.bitfield (buf.take (fieldBytes p.npieces))))
  | 6 =>
      let index := decBe32 buf
      let begin := decBe32 (buf.drop 4)
      let length := decBe32 (buf.drop 8)
      if h.serves p.dispatched then
        if length > pieceBlocklen ∨ index ≥ p.npieces ∨ h.cmHasPiece p.dispatched index = false ∨
            (begin + length) % 2 ^ 32 > h.torrentPieceSize index then none
        else some (p.give buf 12 (.request index begin length))
      else some p
  | 7 =>
      let length := sub32 p.msgLen 9
      some (p.give buf length (.piece p.pcIndex p.pcBegin length (buf.take length)))
  | 8 =>
      some (p.give buf 12
        (.cancel (decBe32 buf) (decBe32 (buf.drop 4)) (decBe32 (buf.drop 8))))
  | _ => some p

/-- `net_mh_ok`. -/
def netMhOk (p : Parser) : Bool :=
  match p.msgNum with
  | 0 | 1 | 2 | 3 => p.msgLen == 1
  | 4 => p.msgLen == 5
  | 5 => p.msgLen == fieldBytes p.npieces + 1
  | 6 | 8 => p.msgLen == 13
  | 7 => decide (p.msgLen ≤ pieceBlocklen + 9)
  | _ => false

/-- `net_progress`. -/
def netProgress (p : Parser) (length : Nat) : Parser :=
  if p.state = .btpMsgbody ∧ p.msgNum = 7 then { p with downloaded := p.downloaded + length }
  else p

/-- `"\x13BitTorrent protocol"`. -/
def pstr : List UInt8 :=
  [0x13, 0x42, 0x69, 0x74, 0x54, 0x6f, 0x72, 0x72, 0x65, 0x6e, 0x74, 0x20,
    0x70, 0x72, 0x6f, 0x74, 0x6f, 0x63, 0x6f, 0x6c]

/-- `net_state`, whose calls are noted. -/
def netState (h : Host) (p₀ : Parser) (buf : List UInt8) : Parser :=
  let p := { p₀ with calls := p₀.calls ++ [Call.mk p₀.state p₀.msgLen buf] }
  match p.state with
  | .shakePstr => if buf.take 20 = pstr then p.setInState .shakeInfo 20 else p.kill
  | .shakeInfo =>
      if h.incoming then
        match h.torrentByHash buf with
        | none => p.kill
        | some npieces => { p with npieces := npieces }.setInState .shakeId 20
      else if buf = h.hash then p.setInState .shakeId 20 else p.kill
  | .shakeId =>
      if h.netTorrentHasPeer buf ∨ buf = h.btpdGetPeerId then p.kill
      else p.setInState .btpMsgsize 4
  | .btpMsgsize =>
      let p := { p with msgLen := decBe32 buf }
      if p.msgLen = 0 then p else p.setInState .btpMsghead 1
  | .btpMsghead =>
      let p := { p with msgNum := (buf.headD 0).toNat }
      if netMhOk p = false then p.kill
      else if p.msgLen = 1 then
        match netDispatchMsg h p buf with
        | none => p.kill
        | some p => p.setInState .btpMsgsize 4
      else if p.msgNum = 7 then p.setInState .btpPiecemeta 8
      else p.setInState .btpMsgbody (sub32 p.msgLen 1)
  | .btpPiecemeta =>
      let p := { p with pcIndex := decBe32 buf, pcBegin := decBe32 (buf.drop 4) }
      p.setInState .btpMsgbody (sub32 p.msgLen 9)
  | .btpMsgbody =>
      match netDispatchMsg h p buf with
      | none => p.kill
      | some p => p.setInState .btpMsgsize 4

/-- A connection: its parser and the beginning of a unit in `in.buf`, which has
`in.off` bytes. -/
structure Conn where
  parser : Parser
  buf : Option (List UInt8)
  deriving DecidableEq, Repr

namespace Conn

/-- A new connection. -/
def create (h : Host) : Conn := ⟨.create h, none⟩

/-- The bytes in `in.buf`. -/
def held (c : Conn) : List UInt8 := c.buf.getD []

/-- What is left of the unit that has begun, `rest` of `net_read`. -/
def rest (c : Conn) : Nat :=
  match c.buf with
  | some held => c.parser.stBytes - held.length
  | none => 0

/-- The bytes for which `net_read` has space: what is left of the unit and its own
buffer, cut to `rmax` when there is a limit. -/
def space (c : Conn) (rmax : Nat) : Nat :=
  let first := if 0 < rmax then min c.rest rmax else c.rest
  let second := if 0 < rmax then min (rmax - first) grbuflen else grbuflen
  first + second

end Conn

/-- The loop of `net_read` over its own buffer, and the rest that it keeps. -/
def parse (h : Host) : (fuel : Nat) → Parser → List UInt8 → Option Conn
  | 0, _, _ => none
  | fuel + 1, p, bytes =>
      if p.stBytes ≤ bytes.length then
        let consumed := p.stBytes
        let p := netState h (netProgress p consumed) (bytes.take consumed)
        if p.killed then some ⟨p, none⟩ else parse h fuel p (bytes.drop consumed)
      else if 0 < bytes.length then some ⟨netProgress p bytes.length, some bytes⟩
      else some ⟨p, none⟩

/-- What `net_read` does with the bytes that `readv` has given it, of which the
first are in `in.buf` and complete the unit that has begun. -/
def take (h : Host) (c : Conn) (bytes : List UInt8) : Option Conn :=
  let rest := c.rest
  if bytes = [] then some c
  else if 0 < rest then
    if bytes.length < rest then
      some ⟨netProgress c.parser bytes.length, some (c.held ++ bytes)⟩
    else
      let p := netState h (netProgress c.parser rest) (c.held ++ bytes.take rest)
      if p.killed then some ⟨p, none⟩
      else parse h (2 * bytes.length + 2) p (bytes.drop rest)
  else parse h (2 * bytes.length + 2) c.parser bytes

/-- What `readv` finds: bytes that have arrived, or the end of the connection. -/
inductive Socket
  | arrived (nbytes : Nat)
  | closed

/-- `net_read` from a stream of which some bytes have arrived: the connection after
it, and what it leaves of the stream. -/
def netRead (h : Host) (c : Conn) (rmax : Nat) (stream : List UInt8) :
    Socket → Option (Conn × List UInt8)
  | .closed => some (⟨c.parser.kill, none⟩, stream)
  | .arrived nbytes =>
      let nread := min nbytes (c.space rmax)
      (take h c (stream.take nread)).map (·, stream.drop nread)

/-- A call of `net_read` for bytes: its limit, and how many bytes have arrived. -/
structure Read where
  rmax : Nat
  arrived : Nat
  deriving DecidableEq, Repr

/-- The calls of `net_read` for a connection, up to where it is killed. -/
def netReads (h : Host) : (c : Conn) → (stream : List UInt8) → List Read →
    Option (Conn × List UInt8)
  | c, stream, [] => some (c, stream)
  | c, stream, r :: rs =>
      if c.parser.killed then some (c, stream)
      else (netRead h c r.rmax stream (.arrived r.arrived)).bind fun (c, left) =>
        netReads h c left rs

end Btpd.Input
