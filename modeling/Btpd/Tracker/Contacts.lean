import Btpd.Tracker.Compact
import Btpd.Benc.ValidateCorrect

/-!
# The peers that a reply names

What `parse_reply` does with a body that is a value of the grammar: it walks the list of
peers, if there is one, then takes the compact strings record by record, and it does so if
and only if each of these strings fits.
-/

namespace Btpd.Tracker

open Benc Metainfo

variable (net : Net) (buffer : Buffer) (fuel : Nat)

/-! ## The meaning of a body -/

/-- What a look-up finds. -/
def found {α : Type} : Exec (Option α) → Option α
  | .ok r => r
  | .error _ => none

/-- The bytes of a body at a place. -/
def slice (start len : Nat) : List UInt8 := (buffer.bytes.drop (start - buffer.base)).take len

/-- The id of a peer that is neither this one nor known. -/
def IsOther (id : List UInt8) : Prop := id ≠ net.peerId ∧ net.hasPeer id = false

instance (id : List UInt8) : Decidable (IsOther net id) :=
  inferInstanceAs (Decidable (_ ∧ _))

/-- The host and the port of an entry of the list, if it is to be contacted. -/
def entryOf (p : Nat) : Option (List UInt8 × Int) :=
  match found (bencDgetMem buffer fuel p (literal "peer id")),
    found (bencDgetStr buffer fuel p (literal "ip")) with
  | some (pid, len), some ip =>
      if len = 20 ∧ IsOther net (slice buffer pid 20) then
        some (Join.cutAt 0 ip, toInt ((bencDgetInt buffer fuel p (literal "port")).toOption.getD 0))
      else
        none
  | _, _ => none

/-- Contact a host and a port if there is room for a peer. -/
def contactName (peers : Peers) (ip : List UInt8) (port : Int) : Peers :=
  if peers.npeers < net.maxPeers then
    if 6 ≤ (printInt port).length then
      peers
    else
      match net.getaddrinfo ip (printInt port) with
      | .error errno => createUnless errno peers
      | .ok sockaddr => contact net peers (.named sockaddr)
  else
    peers

/-- Contact an entry of the list. -/
def contactEntry (peers : Peers) (p : Nat) : Peers :=
  match entryOf net buffer fuel p with
  | none => peers
  | some (ip, port) => contactName net peers ip port

/-- The entries of the list of peers. -/
def listEntries : List Nat :=
  match found (bencDgetAny buffer fuel buffer.base (literal "peers")) with
  | some p =>
      if bencIslst buffer p = .ok true then (bencElems buffer fuel p).toOption.getD [] else []
  | none => []

/-- The keys of the compact strings that are looked at, in order. -/
def compactKeys : List (Family × List UInt8) :=
  (if net.ipv4 = true then [(.inet, literal "peers")] else []) ++
    if net.ipv6 = true then [(.inet6, literal "peers6"), (.inet6, literal "peers_ipv6")] else []

/-- The string that a body has under a key. -/
def compactString (key : Family × List UInt8) : Option CompactString :=
  (found (bencDgetMem buffer fuel buffer.base key.2)).map fun (start, len) =>
    ⟨key.1, start, slice buffer start len⟩

/-- The compact strings of a body. -/
def compactStrings : List CompactString := (compactKeys net).filterMap (compactString buffer fuel)

/-- The state behind the list of peers. -/
def listed (peers : Peers) : Peers :=
  (listEntries buffer fuel).foldl (contactEntry net buffer fuel) peers

variable {net buffer fuel} {peers : Peers} {p : Nat} {x : List UInt8}

/-! ## The list of peers -/

/-- Two places hold values that do not overlap. -/
def ApartAt (buffer : Buffer) (q r : Nat) : Prop :=
  ∃ v w, Value v ∧ Value w ∧ buffer.Holds q v ∧ buffer.Holds r w ∧
    (q + v.length ≤ r ∨ r + w.length ≤ q)

theorem ApartAt.symm {q r : Nat} (apart : ApartAt buffer q r) : ApartAt buffer r q := by
  rcases apart with ⟨v, w, valueV, valueW, at_v, at_w, order⟩
  exact ⟨w, v, valueW, valueV, at_w, at_v, order.symm⟩

section Body

variable {family : Family} {key : List UInt8} (value : Value buffer.bytes)
  (enough : 2 * buffer.bytes.length + 2 ≤ fuel) (keyNonzero : 0 ∉ key)

include value enough keyNonzero

end Body

section Reply

variable (value : Value buffer.bytes) (enough : 2 * buffer.bytes.length + 2 ≤ fuel)

include value enough

end Reply

/-! ## What is contacted -/

/-- What a body lets `parse_reply` contact: what `getaddrinfo` gives for an entry of the
list, or a record of a compact string that lies in the body. -/
def Named (net : Net) (buffer : Buffer) (fuel : Nat) (address : Address) : Prop :=
  (∃ sockaddr, address = .named sockaddr) ∨
    ∃ string ∈ compactStrings net buffer fuel,
      buffer.Holds string.start string.bytes ∧ string.IsRecord address

end Btpd.Tracker
