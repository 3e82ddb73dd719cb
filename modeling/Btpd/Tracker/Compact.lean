import Btpd.Tracker.Reply

/-!
# Compact peers

What a compact string means: its full records, one after another, are contacted for as long
as there is room for a peer.  The loop of the source tests its offset and not the end of the
record, so that it does the same only where the offset cannot stop inside a record.
-/

namespace Btpd.Tracker

open Benc Metainfo

variable (net : Net)

/-! ## The meaning of a compact string -/

/-- Contact an address if there is room for a peer. -/
def contact (peers : Peers) (address : Address) : Peers :=
  if peers.npeers < net.maxPeers then
    createUnless (netConnectAddr net peers address).1 (netConnectAddr net peers address).2
  else
    peers

/-- A compact string of a body: the place of its first byte, and its bytes. -/
structure CompactString where
  family : Family
  start : Nat
  bytes : List UInt8

/-- The first `n` records of the bytes at a place. -/
def recordsFrom (family : Family) : Nat → Nat → List UInt8 → List Address
  | 0, _, _ => []
  | n + 1, place, bytes =>
      .compact family place (bytes.take family.size) ::
        recordsFrom family n (place + family.size) (bytes.drop family.size)

/-- The records that lie wholly inside a string. -/
def CompactString.records (string : CompactString) : List Address :=
  recordsFrom string.family (string.bytes.length / string.family.size) string.start string.bytes

/-- Contact the records of a string. -/
def takeRecords (peers : Peers) (string : CompactString) : Peers :=
  string.records.foldl (contact net) peers

/-- The offset of the loop does not stop inside a record: there is no partial record behind
the full ones, or there is no room for a peer after them. -/
def CompactString.Fits (string : CompactString) (peers : Peers) : Prop :=
  string.family.size ∣ string.bytes.length ∨
    net.maxPeers ≤ (takeRecords net peers string).npeers

variable {net : Net} {peers : Peers} {address : Address}

/-! ## One connection -/

/-- The connections that are started on the way from one state to another: they are new
ones, to addresses with a property, and there was room for a peer each time. -/
def Started (net : Net) (good : Address → Prop) (before after : Peers) : Prop :=
  ∃ started, after.attempts = before.attempts ++ started ∧
    ∀ attempt ∈ started, attempt.npeers < net.maxPeers ∧ good attempt.address

section Started

variable {good : Address → Prop} {before middle after : Peers}

theorem Started.refl : Started net good before before :=
  ⟨[], (List.append_nil _).symm, by simp⟩

theorem Started.trans (first : Started net good before middle)
    (second : Started net good middle after) : Started net good before after := by
  rcases first with ⟨started, firstEq, firstAll⟩
  rcases second with ⟨later, secondEq, secondAll⟩
  refine ⟨started ++ later, by rw [secondEq, firstEq, List.append_assoc], ?_⟩
  intro attempt mem
  rcases List.mem_append.mp mem with mem | mem
  · exact firstAll attempt mem
  · exact secondAll attempt mem

theorem Started.mono {better : Address → Prop} (started : Started net good before after)
    (implies : ∀ address, good address → better address) : Started net better before after := by
  rcases started with ⟨attempts, eq, all⟩
  exact ⟨attempts, eq, fun attempt mem => ⟨(all attempt mem).1, implies _ (all attempt mem).2⟩⟩

end Started

/-! ## The records -/

/-- A record of a string: its bytes are consecutive bytes of the string. -/
def CompactString.IsRecord (string : CompactString) (address : Address) : Prop :=
  ∃ offset, offset + string.family.size ≤ string.bytes.length ∧
    address = .compact string.family (string.start + offset)
      ((string.bytes.drop offset).take string.family.size)

section Loop

variable {buffer : Buffer} {fuel : Nat} {family : Family}

end Loop

/-! ## The strings of a body -/

/-- A string lies in the buffer, and its family is spoken. -/
structure CompactString.Usable (net : Net) (buffer : Buffer) (string : CompactString) : Prop where
  held : buffer.Holds string.start string.bytes
  speaks : net.speaks string.family = true

/-- Two strings without a common record: of different families, or one behind the other. -/
def CompactString.Apart (first second : CompactString) : Prop :=
  first.family ≠ second.family ∨
    first.start + first.bytes.length ≤ second.start ∨
      second.start + second.bytes.length ≤ first.start

end Btpd.Tracker
