import Btpd.Download.Blame
import Btpd.Library.Trails
import Mathlib

/-!
# Bans over a run

In a run a peer is banned only when a block comes, and only if it has sent something else than
the true data of the piece of that block; and when a piece is verified, everybody who has ever
sent something else for it is banned.
-/

namespace Btpd.Download

open Prog

variable {t : Torrent} {b n n' : Net} {callers : List Fn} {p index : Nat} {known : List Nat}

/-! ## Events that bring no block -/

/-- The peer was asked for the block. -/
def Net.Asked (n : Net) (p index begin length : Nat) : Prop :=
  ∃ req ∈ (n.peer p).myReqs,
    req.msg.begin = begin ∧ req.msg.index = index ∧ req.msg.length = length

variable {sent : Deliveries} {begin : Nat} {data : List UInt8}

theorem Net.Sound.attach {peer : Peer} (sound : n.Sound t) (idle : peer.myReqs = []) :
    (n.attach peer).Sound t := by
  constructor
  · intro q mem
    rcases List.mem_cons.mp mem with rfl | old
    · exact Nat.lt_succ_self _
    · exact (sound.attached q old).trans (Nat.lt_succ_self _)
  · exact sound.listed
  · exact sound.busy
  · exact sound.piece
  · intro q req mem
    change req ∈ ((n.setPeer n.nextPeer peer).peer q).myReqs at mem
    rw [Net.setPeer_peer] at mem
    split at mem
    · rw [idle] at mem
      cases mem
    · exact sound.peer q req mem

/-- In the step comes a block that the peer was asked for. -/
def Delivers (step : System.Taken Net Event) : Deliveries := fun p index begin data =>
  step.event = .piece p index begin data ∧ p ∈ step.before.peers ∧
    step.before.Asked p index begin data.length

/-- What has come in the steps of a run. -/
def Delivered (steps : List (System.Taken Net Event)) : Deliveries := fun p index begin data =>
  ∃ step ∈ steps, Delivers step p index begin data

variable {steps earlier : List (System.Taken Net Event)} {step : System.Taken Net Event}

theorem delivered_cons : Delivered (step :: steps) p index begin data ↔
    Delivers step p index begin data ∨ Delivered steps p index begin data := by
  simp [Delivered]

theorem Delivers.unique {q i begin' : Nat} {data' : List UInt8}
    (first : Delivers step p index begin data) (second : Delivers step q i begin' data') :
    q = p ∧ i = index ∧ begin' = begin ∧ data' = data := by
  have same := second.1.symm.trans first.1
  injection same with h₁ h₂ h₃ h₄
  exact ⟨h₁, h₂, h₃, h₄⟩

theorem delivered_quiet (quiet : ∀ p index begin data, ¬ Delivers step p index begin data) :
    Delivered (step :: steps) = Delivered steps := by
  funext q i begin' data'
  apply propext
  rw [delivered_cons]
  exact or_iff_right (quiet q i begin' data')

/-- The state is sound, and what was delivered in the run is accounted for. -/
structure Vouched (t : Torrent) (steps : List (System.Taken Net Event)) (n : Net) : Prop where
  sound : n.Sound t
  accounted : ∀ i, n.Accounted t (Delivered steps) i
  known : ∀ p index begin data, Delivered steps p index begin data → p < n.nextPeer

/-- A step brings no block, and nobody is banned and no piece verified in it, or it brings one
and does what the test of the piece does. -/
inductive Turn (t : Torrent) (earlier : List (System.Taken Net Event))
    (step : System.Taken Net Event) : Prop
  | quiet (quiet : ∀ p index begin data, ¬ Delivers step p index begin data)
      (bans : ∀ q, step.after.bans q = true → step.before.bans q = true)
      (kept : ∀ q < step.before.nextPeer, step.before.bans q = true → step.after.bans q = true)
      (pieceField : step.after.cm.pieceField = step.before.cm.pieceField)
      (posField : ∀ i, step.before.cm.posField i = true → step.after.cm.posField i = true)
      (data : step.after.cm.data = step.before.cm.data)
  | block (p index begin : Nat) (data : List UInt8) (delivers : Delivers step p index begin data)
      (tested : Tested t (Delivered (step :: earlier)) index step.before step.after)

namespace Vouched

variable {e : Event}

/-- Nothing that blame is built from changes. -/
theorem of_follows (vouched : Vouched t steps n) (follows : Net.Follows t n [] n')
    (quiet : ∀ p index begin data, ¬ Delivers ⟨n, e, n'⟩ p index begin data) :
    Turn t steps ⟨n, e, n'⟩ ∧ Vouched t (⟨n, e, n'⟩ :: steps) n' := by
  have bans : n'.bans = n.bans := funext follows.banned
  constructor
  · apply Turn.quiet quiet
    · rw [bans]
      exact fun _ was => was
    · rw [bans]
      exact fun _ _ was => was
    · exact follows.pieceField
    · exact follows.posField
    · exact follows.data
  · constructor
    · exact follows.sound
    · rw [delivered_quiet quiet]
      exact fun i => (vouched.accounted i).of_follows follows
    · rw [delivered_quiet quiet, follows.nextPeer]
      exact vouched.known

theorem shake {peer : Peer} (vouched : Vouched t steps n) (welcome : peer.banned = false)
    (idle : peer.myReqs = [])
    (quiet : ∀ p index begin data, ¬ Delivers ⟨n, e, n.attach peer⟩ p index begin data) :
    Turn t steps ⟨n, e, n.attach peer⟩ ∧
      Vouched t (⟨n, e, n.attach peer⟩ :: steps) (n.attach peer) := by
  have bans : ∀ q, (n.attach peer).bans q = if q = n.nextPeer then false else n.bans q := by
    intro q
    show ((n.setPeer n.nextPeer peer).peer q).banned = _
    rw [Net.setPeer_peer]
    split
    · exact welcome
    · rfl
  have kept : ∀ q < n.nextPeer, n.bans q = true → (n.attach peer).bans q = true := by
    intro q old was
    rw [bans, if_neg (Nat.ne_of_lt old)]
    exact was
  constructor
  · apply Turn.quiet quiet
    · intro q banned
      change (n.attach peer).bans q = true at banned
      rw [bans] at banned
      split at banned
      · cases banned
      · exact banned
    · exact kept
    · rfl
    · exact fun _ set => set
    · rfl
  · constructor
    · exact vouched.sound.attach idle
    · rw [delivered_quiet quiet]
      intro i
      apply (vouched.accounted i).of_same
      · rfl
      · exact ⟨rfl, rfl⟩
      · exact fun _ _ _ told => told
      · exact fun _ _ _ _ was => was
      · exact fun _ _ _ was => was
      · rfl
      · rfl
      · exact fun p begin data was => kept p (vouched.known p i begin data was)
    · rw [delivered_quiet quiet]
      exact fun p index begin data was =>
        (vouched.known p index begin data was).trans (Nat.lt_succ_self _)

end Vouched

/-! ## Verdicts -/

/-- The part of a piece at an offset. -/
def slice (piece : List UInt8) (begin length : Nat) : List UInt8 := (piece.drop begin).take length

namespace Content

variable {cm : Content} {block : Nat}

end Content

/-- Whatever the peer has delivered for the piece is true. -/
def Honest (truth : List UInt8) (index : Nat) (steps : List (System.Taken Net Event))
    (q : Nat) : Prop :=
  ∀ begin data, Delivered steps q index begin data → data = slice truth begin data.length

/-- The data of a piece of which hashes are compared in a run: the true data, what has come for
the piece, and what the content then has for the piece and its blocks. -/
inductive Compared (t : Torrent) (index : Nat) (truth : List UInt8)
    (steps : List (System.Taken Net Event)) : List UInt8 → Prop
  | truth : Compared t index truth steps truth
  | sent {p begin : Nat} {data : List UInt8} :
      Delivered steps p index begin data → Compared t index truth steps data
  | piece {step : System.Taken Net Event} {p begin : Nat} {data : List UInt8} :
      step ∈ steps → Delivers step p index begin data →
      Compared t index truth steps (step.after.cm.piece t index)
  | block {step : System.Taken Net Event} {p begin : Nat} {data : List UInt8} {block : Nat} :
      step ∈ steps → Delivers step p index begin data → block < t.torrentPieceBlocks index →
      Compared t index truth steps (step.after.cm.block t index block)

variable {truth : List UInt8}

theorem Compared.mono {l : List UInt8} (held : Compared t index truth steps l) :
    Compared t index truth (step :: steps) l := by
  cases held with
  | truth => exact .truth
  | sent was => exact .sent (delivered_cons.mpr (.inr was))
  | piece mem delivers => exact .piece (List.mem_cons_of_mem _ mem) delivers
  | block mem delivers inside => exact .block (List.mem_cons_of_mem _ mem) delivers inside

end Btpd.Download
