import Btpd.Download.Handlers

/-!
# The events of an active torrent

What `net.c`, `peer.c` and `torrent.c` do when a peer has shaken hands, when a
message of it has been read, when bytes have been written to it, when it is
lost, and on the timer.  Choking and unchoking a peer are events of their own,
since which peers the upload code chooses does not matter here: the upload code
runs before or after what an event does to the download, and touches only the
output queue and the flag `PF_I_CHOKE`.

A run starts with no peer and with whatever content the start-up tests have
found, and takes the events in any order.
-/

namespace Btpd.Download

variable (t : Torrent)

/-! ## Attached peers -/

/-- A peer whose handshake has been read.  Of our own handshake `unwritten`
gives the bytes that are out when not all of it is. -/
def Peer.create (unwritten : Option (Fin 68)) : Peer where
  pieceField := fun _ => false
  badField := none
  npieces := 0
  nwant := 0
  npcsBad := 0
  suspicion := 0
  myReqs := []
  nreqsOut := 0
  npieceMsgs := 0
  outqOff := unwritten.getD 0
  outq := if unwritten.isSome then [.shake] else []
  iWant := false
  iChoke := true
  pWant := false
  pChoke := true
  noRequests := false
  doUnwant := false
  suspect := false
  banned := false
  sent := if unwritten.isSome then [] else [.shake]
  wire := match unwritten with
    | none => shakeBytes t
    | some off => (shakeBytes t).take off

/-- The pieces that `nb_create_multihave` names: the first held ones, as many as
`cm_pieces` counts. -/
def multihavePieces (n : Net) : List Nat :=
  ((List.range t.npieces).filter n.cm.pieceField).take n.cm.npiecesGot

/-- The part of `peer_on_shake` that makes the peer and announces our pieces. -/
def Peer.onShake (n : Net) (unwritten : Option (Fin 68)) : Except Fault Peer :=
  let peer := Peer.create t unwritten
  if n.cm.npiecesGot = 0 then .ok peer
  else if n.cm.npiecesGot * 9 < 5 + t.fieldBytes then
    peer.send (.multihave (multihavePieces t n))
  else do
    let peer ← peer.send .bitfield
    peer.send (.bitdata t.fieldBytes ((List.range t.npieces).filter n.cm.pieceField))

/-- Put a new peer on the list. -/
def Net.attach (n : Net) (peer : Peer) : Net :=
  { n.setPeer n.nextPeer peer with
    nextPeer := n.nextPeer + 1
    peers := n.nextPeer :: n.peers }

/-- `peer_on_shake` -/
def peerOnShake (unwritten : Option (Fin 68)) : Routine Unit := do
  let n ← Prog.get
  let peer ← Prog.ofExcept (Peer.onShake t n unwritten)
  Prog.modify (·.attach peer)

/-- `peer_kill` -/
def peerKill (p : Nat) : Routine Unit := do
  Prog.modify fun n => { n with peers := n.peers.erase p }
  dlOnLostPeer t p

/-! ## Messages of a peer -/

/-- `peer_on_choke` -/
def peerOnChoke (p : Nat) : Routine Unit := do
  let n ← Prog.get
  if (n.peer p).pChoke then pure ()
  else do
    onPeer p fun peer => .ok { peer with pChoke := true }
    dlOnChoke t p
    onPeer p fun peer => peer.unsendRequests (peer.outq.length + 1) 0

/-- `peer_on_unchoke` -/
def peerOnUnchoke (p : Nat) : Routine Unit := do
  let n ← Prog.get
  if (n.peer p).pChoke then do
    onPeer p fun peer => .ok { peer with pChoke := false }
    dlOnUnchoke t p
  else pure ()

/-- `peer_on_have` -/
def peerOnHave (p index : Nat) : Routine Unit := Prog.call (.peerOnHave p index) do
  Prog.assert (index < 8 * t.fieldBytes) .fieldBounds
  let n ← Prog.get
  if (n.peer p).pieceField index then pure ()
  else do
    onPeer p fun peer => .ok { peer with
      pieceField := setBit peer.pieceField index
      npieces := peer.npieces + 1 }
    dlOnPieceAnn t p index

/-- `peer_on_bitfield` -/
def peerOnBitfield (p : Nat) (field : Nat → Bool) : Routine Unit :=
  Prog.call (.peerOnBitfield p) do
    let n ← Prog.get
    Prog.assert ((n.peer p).npieces = 0) .bitfieldTwice
    onPeer p fun peer => .ok { peer with
      pieceField := fun i => decide (i < 8 * t.fieldBytes) && field i }
    Prog.forEach (List.range t.npieces) fun i => do
      let n ← Prog.get
      Prog.when ((n.peer p).pieceField i = true) do
        onPeer p fun peer => .ok { peer with npieces := peer.npieces + 1 }
        dlOnPieceAnn t p i

/-- `peer_on_piece` -/
def peerOnPiece (p index begin : Nat) (data : List UInt8) : Routine Unit := do
  let n ← Prog.get
  let wanted (req : BlockRequest) : Bool :=
    req.msg.begin = begin ∧ req.msg.index = index ∧ req.msg.length = data.length
  match (n.peer p).myReqs.find? wanted with
  | none => pure ()
  | some req => do
      Prog.assert (0 < (n.peer p).nreqsOut) .noReqsOut
      onPeer p (·.unlink req)
      onPeer p (·.checkNoReqs)
      dlOnBlock t p req index begin data.length data

/-- `peer_on_request` -/
def peerOnRequest (p index begin length : Nat) : Routine Unit :=
  Prog.call (.peerOnRequest p index begin length) (onPeer p (·.onRequest index begin length))

/-- The request message of `net_dispatch_msg`: a bad request kills the peer. -/
def netOnRequest (p index begin length : Nat) : Routine Unit := do
  let n ← Prog.get
  if (n.peer p).pWant && !(n.peer p).iChoke then
    if pieceBlocklen < length ∨ t.npieces ≤ index ∨ n.cm.pieceField index = false ∨
        t.torrentPieceSize index < ((begin + length) % 2 ^ 32 : Nat) then
      peerKill t p
    else peerOnRequest p index begin length
  else pure ()

/-- `net_write`, and what it adds to the bytes uploaded. -/
def netWrite (p wmax nwritten : Nat) : Routine Unit := do
  let n ← Prog.get
  let (uploaded, peer) ←
    Prog.ofExcept ((n.peer p).netWrite (n.cm.readBlock t) (NetBuf.bytes t n.cm.pieceField)
      wmax nwritten)
  Prog.modify fun n => { n.setPeer p peer with uploaded := n.uploaded + uploaded }

/-! ## The timer -/

/-- `torrent_on_tick`, when the torrent is downloading. -/
def torrentOnTick : Routine Unit := do
  let n ← Prog.get
  if n.seed = false ∧ n.cm.npiecesGot = t.npieces then do
    Prog.modify fun n => { n with seed := true }
    Prog.forEach n.peers fun p => do
      let n ← Prog.get
      Prog.assert ((n.peer p).nwant = 0) .tickWanted
      Prog.when ((n.peer p).full t) (peerKill t p)
  else pure ()

/-! ## Runs -/

/-- What can happen to an active torrent. -/
inductive Event
  | shake (unwritten : Option (Fin 68))
  | kill (p : Nat)
  | choke (p : Nat)
  | unchoke (p : Nat)
  | interest (p : Nat)
  | uninterest (p : Nat)
  | haveMsg (p index : Nat)
  | bitfield (p : Nat) (field : Nat → Bool)
  | request (p index begin length : Nat)
  | cancel (p index begin length : Nat)
  | piece (p index begin : Nat) (data : List UInt8)
  | write (p wmax nwritten : Nat)
  | keepalive (p : Nat)
  | ulChoke (p : Nat)
  | ulUnchoke (p : Nat)
  | tick

/-- Events of a peer that is not attached do not happen. -/
def ifAttached (p : Nat) (m : Routine Unit) : Routine Unit := do
  let n ← Prog.get
  if p ∈ n.peers then m else pure ()

/-- What the daemon does on an event. -/
def handle : Event → Routine Unit
  | .shake unwritten => peerOnShake t unwritten
  | .kill p => ifAttached p (peerKill t p)
  | .choke p => ifAttached p (peerOnChoke t p)
  | .unchoke p => ifAttached p (peerOnUnchoke t p)
  | .interest p => ifAttached p (onPeer p fun peer => .ok { peer with pWant := true })
  | .uninterest p => ifAttached p (onPeer p fun peer => .ok { peer with pWant := false })
  | .haveMsg p index => ifAttached p (peerOnHave t p index)
  | .bitfield p field => ifAttached p do
      let n ← Prog.get
      if (n.peer p).npieces = 0 then peerOnBitfield t p field else peerKill t p
  | .request p index begin length => ifAttached p (netOnRequest t p index begin length)
  | .cancel p index begin length => ifAttached p (onPeer p (·.onCancel index begin length))
  | .piece p index begin data => ifAttached p (peerOnPiece t p index begin data)
  | .write p wmax nwritten => ifAttached p (netWrite t p wmax nwritten)
  | .keepalive p => ifAttached p (onPeer p (·.send .keepalive))
  | .ulChoke p => ifAttached p (onPeer p (·.choke))
  | .ulUnchoke p => ifAttached p (onPeer p (·.unchoke))
  | .tick => torrentOnTick t

/-- The torrent just started, with the content `cm`. -/
def Net.create (cm : Content) : Net where
  endgame := false
  busyField := fun _ => false
  npcsBusy := 0
  pieceCount := fun _ => 0
  getlst := []
  piece := fun _ =>
    { nreqs := 0, nblocks := 0, ngot := 0, nbusy := 0, nextBlock := 0, egReqs := none,
      reqs := [], logs := [], downField := fun _ => false }
  peers := []
  peer := fun _ => Peer.create t none
  cm := cm
  seed := decide (cm.npiecesGot = t.npieces)
  uploaded := 0
  nextPeer := 0
  nextReq := 0
  nextMsg := 0
  draws := 0

/-- A torrent that starts from any content the start-up tests can leave. -/
def system : System Net Fn Fault Event where
  start n := ∃ pieceField blockField data,
    n = Net.create t (startupTestEnd t pieceField blockField data)
  handle := handle t

end Btpd.Download
