import Btpd.Benc.Members
import Btpd.Library.Join
import Btpd.Tracker.Tiers

/-!
# The peers of a tracker's reply

`maybe_connect_to` and `parse_reply` of `http_tr_if.c`, with the parts of `peer.c` and
`net.c` that they start connections through.  The resolver, the sockets and the table of
the peers of the torrent are parameters; the number of peers and the connections that were
started are the state.
-/

namespace Btpd.Tracker

open Benc Metainfo

/-- The `family` of `peer_create_out_compact`. -/
inductive Family
  | inet
  | inet6
  deriving DecidableEq, Repr

/-- The bytes that a compact peer takes: an address and a port. -/
def Family.size : Family → Nat
  | .inet => 4 + 2
  | .inet6 => 16 + 2

/-- Where a connection goes: a socket address that `getaddrinfo` gave, or a compact peer,
with the place it was decoded from. -/
inductive Address
  | named (sockaddr : List UInt8)
  | compact (family : Family) (place : Nat) (record : List UInt8)
  deriving DecidableEq, Repr

/-- A call of `net_connect_addr`, with `net_npeers` at that time. -/
structure Attempt where
  address : Address
  npeers : Nat
  deriving DecidableEq, Repr

/-- `net_npeers`, and the connections that were started, in order. -/
structure Peers where
  npeers : Nat
  attempts : List Attempt
  deriving DecidableEq, Repr

/-- What `parse_reply` sees of the daemon: `net_max_peers`, `net_ipv4`, `net_ipv6`, the own
peer id and `net_torrent_has_peer`; and of the system: `getaddrinfo` on a numeric host and
a port, which fails with an `errno`, and the error of a connection, which may depend on the
connections before it. -/
structure Net where
  maxPeers : Nat
  ipv4 : Bool
  ipv6 : Bool
  peerId : List UInt8
  hasPeer : List UInt8 → Bool
  getaddrinfo : List UInt8 → List UInt8 → Except Nat (List UInt8)
  connect : List Attempt → Address → Nat

variable (net : Net)

/-- The flag that `peer_create_out_compact` looks at. -/
def Net.speaks : Family → Bool
  | .inet => net.ipv4
  | .inet6 => net.ipv6

/-- `net_connect_addr`: its error. -/
def netConnectAddr (peers : Peers) (address : Address) : Nat × Peers :=
  (net.connect peers.attempts address,
    { peers with attempts := peers.attempts ++ [⟨address, peers.npeers⟩] })

/-- `net_connect_name`.  `portstr` has room for five digits. -/
def netConnectName (peers : Peers) (ip : List UInt8) (port : Int) : Exec (Nat × Peers) :=
  if ¬ peers.npeers < net.maxPeers then
    .error .assertion
  else if 6 ≤ (printInt port).length then
    pure (EINVAL, peers)
  else
    match net.getaddrinfo ip (printInt port) with
    | .error errno => pure (errno, peers)
    | .ok sockaddr => pure (netConnectAddr net peers (.named sockaddr))

/-- `peer_create_common`: of the new peer its number only. -/
def peerCreateCommon (peers : Peers) : Peers := { peers with npeers := peers.npeers + 1 }

/-- The end of the two routines that create a peer. -/
def createUnless (error : Nat) (peers : Peers) : Peers :=
  if error ≠ 0 then peers else peerCreateCommon peers

/-- `peer_create_out`.  When `getaddrinfo` fails with `errno` zero, the peer is created on
whatever `sd` holds. -/
def peerCreateOut (peers : Peers) (ip : List UInt8) (port : Int) : Exec Peers := do
  let (error, peers) ← netConnectName net peers ip port
  pure (createUnless error peers)

variable (buffer : Buffer) (fuel : Nat)

/-- `peer_create_out_compact` -/
def peerCreateOutCompact (family : Family) (peers : Peers) (compact : Nat) : Exec Peers :=
  if net.speaks family = false then
    pure peers
  else do
    let record ← readBytes buffer family.size compact
    let (error, peers) := netConnectAddr net peers (.compact family compact record)
    pure (createUnless error peers)

/-- The conversion to `int`. -/
def toInt (n : Int) : Int := n.bmod (2 ^ 32)

/-- `maybe_connect_to`, behind its first test. -/
def maybeConnectToId (peers : Peers) (pinfo pid : Nat) : Exec Peers := do
  let id ← readBytes buffer 20 pid
  if id = net.peerId then
    pure peers
  else if net.hasPeer id = true then
    pure peers
  else
    match ← bencDgetStr buffer fuel pinfo (literal "ip") with
    | none => pure peers
    | some ip => do
        let port ← bencDgetInt buffer fuel pinfo (literal "port")
        peerCreateOut net peers (Join.cutAt 0 ip) (toInt port)

/-- `maybe_connect_to` -/
def maybeConnectTo (peers : Peers) (pinfo : Nat) : Exec Peers := do
  match ← bencDgetMem buffer fuel pinfo (literal "peer id") with
  | none => pure peers
  | some (pid, len) =>
      if len ≠ 20 then pure peers else maybeConnectToId net buffer fuel peers pinfo pid

/-- The loop of `parse_reply` over the entries of a list. -/
def connectList : Nat → Option Nat → Peers → Exec Peers
  | 0, _, _ => .error .diverge
  | _ + 1, none, peers => pure peers
  | bound + 1, some p, peers =>
      if peers.npeers < net.maxPeers then do
        let peers ← maybeConnectTo net buffer fuel peers p
        let next ← bencNext buffer fuel p
        connectList bound next peers
      else
        pure peers

/-- The loop of `parse_reply` over the `len` bytes of a compact string at `p`, from `i`
on. -/
def connectCompact (family : Family) (p len : Nat) : Nat → Nat → Peers → Exec Peers
  | 0, _, _ => .error .diverge
  | bound + 1, i, peers =>
      if i < len ∧ peers.npeers < net.maxPeers then do
        let peers ← peerCreateOutCompact net buffer family peers (ptrAdd p i)
        connectCompact family p len bound ((i + family.size) % wordSize) peers
      else
        pure peers

/-- `benc_dget_mem` of a key whose value is a string, and the loop over it. -/
def connectString (family : Family) (key : List UInt8) (peers : Peers) : Exec Peers := do
  match ← bencDgetMem buffer fuel buffer.base key with
  | none => pure peers
  | some (p, len) => connectCompact net buffer family p len fuel 0 peers

/-- The part of `parse_reply` about the key `peers`; nothing is given for `bad_data`. -/
def replyPeers (peers : Peers) : Exec (Option Peers) := do
  match ← bencDgetAny buffer fuel buffer.base (literal "peers") with
  | none => pure (some peers)
  | some p =>
      if ← bencIslst buffer p then do
        let first ← bencFirst buffer p
        let peers ← connectList net buffer fuel fuel first peers
        pure (some peers)
      else if ← bencIsstr buffer p then
        if net.ipv4 = true then do
          let peers ← connectString net buffer fuel .inet (literal "peers") peers
          pure (some peers)
        else
          pure (some peers)
      else
        pure none

/-- One turn of the loop of `parse_reply` over `v6key`. -/
def replyPeers6 (key : List UInt8) (peers : Peers) : Exec Peers := do
  match ← bencDgetAny buffer fuel buffer.base key with
  | none => pure peers
  | some p =>
      if ← bencIsstr buffer p then
        connectString net buffer fuel .inet6 key peers
      else
        pure peers

/-- `parse_reply` from `after_peers` on. -/
def replyAfterPeers (peers : Peers) : Exec Peers :=
  if net.ipv6 = false then
    pure peers
  else do
    let peers ← replyPeers6 net buffer fuel (literal "peers6") peers
    replyPeers6 net buffer fuel (literal "peers_ipv6") peers

/-- The fields of `struct tr_response` that `parse_reply` sets, `mi_failure` as the address
of the value. -/
structure Reply where
  type : TrRes
  miFailure : Option Nat
  interval : Int
  deriving DecidableEq, Repr

/-- The interval of the reply, where it has one. -/
def replyInterval (interval : Int) : Exec Int := do
  match ← bencDgetAny buffer fuel buffer.base (literal "interval") with
  | none => pure interval
  | some p =>
      if ← bencIsint buffer p then do
        let n ← bencInt buffer fuel p
        pure (toInt n)
      else
        pure interval

/-- `parse_reply` on a body that was validated and has no failure reason. -/
def replyAccepted (res : Reply) (peers : Peers) : Exec (Reply × Peers) := do
  let interval ← replyInterval buffer fuel res.interval
  match ← replyPeers net buffer fuel peers with
  | none => pure ({ res with type := .bad, interval := interval }, peers)
  | some peers => do
      let peers ← replyAfterPeers net buffer fuel peers
      pure ({ res with type := .ok, interval := interval }, peers)

/-- `parse_reply` -/
def parseReply (res : Reply) (peers : Peers) : Exec (Reply × Peers) := do
  let invalid ← bencValidate buffer fuel
  if invalid ≠ 0 then
    pure ({ res with type := .bad }, peers)
  else
    match ← bencDgetAny buffer fuel buffer.base (literal "failure reason") with
    | none => replyAccepted net buffer fuel res peers
    | some buf =>
        if ← bencIsstr buffer buf then
          pure ({ res with type := .fail, miFailure := some buf }, peers)
        else
          pure ({ res with type := .bad }, peers)

end Btpd.Tracker
