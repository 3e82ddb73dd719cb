import Btpd.Download.Peers
import Mathlib

/-!
# The output line of a peer

The queue of a peer, what has been written to it, and whether we choke it: a
machine of its own, which puts messages at the end of its queue, takes back
messages that have not begun to go out, fills in the data of blocks and writes.
Each routine of a peer takes steps of this machine, so an invariant of the line
needs to be checked against the few steps only.
-/

namespace Btpd.Download

/-- What is queued for a peer and what has been written to it. -/
@[ext]
structure Line where
  sent : List NetBuf
  outq : List NetBuf
  outqOff : Nat
  wire : List UInt8
  iChoke : Bool

def Peer.line (peer : Peer) : Line :=
  ⟨peer.sent, peer.outq, peer.outqOff, peer.wire, peer.iChoke⟩

/-- A message that speaks neither of pieces that we have or send, nor of choking. -/
def NetBuf.remark : NetBuf → Bool
  | .interest | .uninterest | .request _ | .cancel .. | .keepalive => true
  | _ => false

/-- The header of a block. -/
def NetBuf.heads : NetBuf → Bool
  | .piece .. => true
  | _ => false

theorem NetBuf.heads_of_remark {nb : NetBuf} (remark : nb.remark = true) : nb.heads = false := by
  cases nb with
  | interest | uninterest | request | cancel | keepalive => rfl
  | _ => cases remark

/-- The data of blocks that follow their headers is filled in. -/
inductive Filled (read : Nat → Nat → Nat → List UInt8) : List NetBuf → List NetBuf → Prop
  | nil : Filled read [] []
  | same (nb : NetBuf) {outq outq' : List NetBuf} : Filled read outq outq' →
      Filled read (nb :: outq) (nb :: outq')
  | block (index begin length : Nat) {outq outq' : List NetBuf} : Filled read outq outq' →
      Filled read (.piece index begin length :: .torrentData none :: outq)
        (.piece index begin length :: .torrentData (some (read index begin length)) :: outq')

theorem Filled.refl {read : Nat → Nat → Nat → List UInt8} (outq : List NetBuf) :
    Filled read outq outq := by
  induction outq with
  | nil => exact .nil
  | cons nb outq ih => exact .same nb ih

/-- The first buffer stays as it is. -/
theorem Filled.head {read : Nat → Nat → Nat → List UInt8} {nb : NetBuf}
    {outq outq' : List NetBuf} (fills : Filled read (nb :: outq) outq') :
    ∃ rest, outq' = nb :: rest := by
  cases fills with
  | same _ _ => exact ⟨_, rfl⟩
  | block _ _ _ _ => exact ⟨_, rfl⟩

/-- No header is changed. -/
theorem Filled.getElem?_heads {read : Nat → Nat → Nat → List UInt8} {outq outq' : List NetBuf}
    {k : Nat} {nb : NetBuf} (fills : Filled read outq outq') (found : outq'[k]? = some nb)
    (heads : nb.heads = true) : outq[k]? = some nb := by
  induction fills generalizing k with
  | nil => cases found
  | same nb _ ih =>
      cases k with
      | zero => exact found
      | succ k => exact ih found
  | block index begin length _ ih =>
      match k with
      | 0 => exact found
      | 1 =>
          cases found
          cases heads
      | k + 2 => exact ih found

namespace Line

/-- The first bytes of the message at place `k` of the queue are out. -/
def Begun (l : Line) (k : Nat) : Prop := k = 0 ∧ 0 < l.outqOff

/-- Nothing of an empty queue is out. -/
def Ready (l : Line) : Prop := l.outq = [] → l.outqOff = 0

def push (l : Line) (nbs : List NetBuf) : Line := { l with outq := l.outq ++ nbs }

/-- The queue does not start with a header whose data is still to be read. -/
def Loaded (outq : List NetBuf) : Prop :=
  ∀ index begin length rest, outq ≠ .piece index begin length :: .torrentData none :: rest

/-- The bytes of the queue that are still to be written, up to the first header
whose data is still to be read. -/
def rest (bytes : NetBuf → List UInt8) : (off : Nat) → List NetBuf → List UInt8
  | _, [] => []
  | _, .piece _ _ _ :: .torrentData none :: _ => []
  | off, nb :: outq => (bytes nb).drop off ++ rest bytes 0 outq

theorem rest_cons {bytes : NetBuf → List UInt8} {off : Nat} {nb : NetBuf} {outq : List NetBuf}
    (loaded : Loaded (nb :: outq)) :
    rest bytes off (nb :: outq) = (bytes nb).drop off ++ rest bytes 0 outq := by
  rw [rest]
  rintro index begin length rest rfl rfl
  exact loaded index begin length rest rfl

/-- Nothing is to be written of a header whose data is still to be read. -/
theorem loaded_of_rest {bytes : NetBuf → List UInt8} {off : Nat} {outq : List NetBuf}
    (some : rest bytes off outq ≠ []) : Loaded outq := by
  rintro index begin length rest rfl
  exact some rfl

/-- The steps that change what is queued. -/
inductive Step : Line → Line → Prop
  | say {l nb} : nb.remark = true → l.Ready → Step l (l.push [nb])
  | unsay {l k nb} : nb.remark = true → l.outq[k]? = some nb → ¬ l.Begun k →
      Step l { l with outq := l.outq.eraseIdx k }
  | unsayBlock {l k index begin length} : l.outq[k]? = some (.piece index begin length) →
      k + 1 < l.outq.length → ¬ l.Begun k →
      Step l { l with outq := (l.outq.eraseIdx k).eraseIdx k }
  | unchoke {l} : l.Ready → Step l { l.push [.unchoke] with iChoke := false }
  | choke {l} : l.Ready →
      (∀ k nb, l.outq[k]? = some nb → nb.heads = true → l.Begun k ∨
        (k = 1 ∧ ∃ first, l.outq[0]? = some first ∧ first.heads = true)) →
      Step l { l.push [.choke] with iChoke := true }
  | limit {l} : l.Ready → l.iChoke = false → Step l (l.push [.choke, .unchoke])

/-- The steps of a write, when the content of the torrent is `cm`. -/
inductive Write (t : Torrent) (cm : Content) : Line → Line → Prop
  | fill {l outq} : Filled (cm.readBlock t) l.outq outq → Write t cm l { l with outq := outq }
  | whole {l nb outq} : l.outq = nb :: outq → Loaded l.outq →
      Write t cm l { l with
        sent := l.sent ++ [nb]
        outq := outq
        outqOff := 0
        wire := l.wire ++ (nb.bytes t cm.pieceField).drop l.outqOff }
  | part {l nb outq m} : l.outq = nb :: outq → Loaded l.outq → 0 < m →
      m < nb.len - l.outqOff →
      Write t cm l { l with
        outqOff := l.outqOff + m
        wire := l.wire ++ ((nb.bytes t cm.pieceField).drop l.outqOff).take m }

/-- Some steps after each other. -/
abbrev Steps : Line → Line → Prop := Relation.ReflTransGen Step

/-- Some steps of a write after each other. -/
abbrev Writes (t : Torrent) (cm : Content) : Line → Line → Prop :=
  Relation.ReflTransGen (Write t cm)

/-- What each step keeps, many steps keep. -/
theorem keep {step : Line → Line → Prop} {l l' : Line} {inv : Line → Prop}
    (steps : Relation.ReflTransGen step l l') (kept : ∀ l l', step l l' → inv l → inv l')
    (held : inv l) : inv l' := by
  induction steps with
  | refl => exact held
  | tail _ step ih => exact kept _ _ step ih

end Line

/-! ## The bytes of a message -/

theorem haveBytes_length {index : Nat} : (haveBytes index).length = 9 := rfl

theorem shakeBytes_length {t : Torrent} : (shakeBytes t).length = 68 := by
  simp [shakeBytes]

/-- `nb->len` is the length of `nb->buf`. -/
theorem NetBuf.length_bytes {t : Torrent} {held : Nat → Bool} (nb : NetBuf) :
    (nb.bytes t held).length = nb.len := by
  cases nb with
  | multihave pieces =>
      show (pieces.flatMap haveBytes).length = 9 * pieces.length
      rw [List.length_flatMap]
      simp [haveBytes_length, Nat.mul_comm]
  | shake => exact shakeBytes_length
  | bitdata nbytes held => simp [NetBuf.bytes, NetBuf.len]
  | torrentData data => rfl
  | _ => rfl

end Btpd.Download
