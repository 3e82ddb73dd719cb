import Btpd.Download.Events
import Btpd.Library.Insertion
import Mathlib

/-!
# The order of the pieces in end game

In end game `getlst` is meant to be sorted by how much is requested of each piece for what
it lacks, with the complete pieces at the end.  `Net.Only` says which pieces a routine can
have changed the place of; everything else about the order stays as it was.
-/

namespace Btpd.Download

open Prog

/-- The requests for each missing block; a piece that lacks nothing comes last. -/
def Piece.share (pc : Piece) : WithTop Nat :=
  if pc.nblocks = pc.ngot then ⊤ else ((pc.nreqs / (pc.nblocks - pc.ngot) : Nat) : WithTop Nat)

/-- The share of the piece `index`. -/
def Net.share (n : Net) (index : Nat) : WithTop Nat := (n.piece index).share

/-- The pieces with missing blocks come first, in the order of their shares, and the complete
ones last. -/
def Net.Ordered (n : Net) : Prop := SortedBy n.share n.getlst

/-- The place that `dl_piece_insert_eg` looks for is the one behind all shares that are not
larger. -/
theorem insertEg_eq (n : Net) (index : Nat) (getlst : List Nat) :
    n.insertEg index getlst = insertBy n.share index getlst := by
  unfold Net.insertEg insertBy
  dsimp only
  split
  · rename_i complete
    have top : n.share index = ⊤ := if_pos complete
    have all : ∀ i ∈ getlst, decide (n.share i ≤ n.share index) = true := by
      intro i _
      simp [top]
    rw [List.takeWhile_eq_self_iff.mpr all, List.dropWhile_eq_nil_iff.mpr all]
  · rename_i lacks
    have same : (fun it => decide ((n.piece it).nblocks ≠ (n.piece it).ngot ∧
        (n.piece it).nreqs / ((n.piece it).nblocks - (n.piece it).ngot) ≤
          (n.piece index).nreqs / ((n.piece index).nblocks - (n.piece index).ngot))) =
        fun it => decide (n.share it ≤ n.share index) := by
      funext it
      apply decide_eq_decide.mpr
      unfold Net.share Piece.share
      rw [if_neg lacks]
      by_cases complete : (n.piece it).nblocks = (n.piece it).ngot
      · simp [complete]
      · rw [if_neg complete]
        exact (and_iff_right complete).trans WithTop.coe_le_coe.symm
    rw [same]

/-! ## What a routine changes -/

/-- Nothing that the order depends on has changed, except the shares of the pieces in
`touched`. -/
structure Net.Only (touched : List Nat) (n n' : Net) : Prop where
  endgame : n'.endgame = n.endgame
  busyField : n'.busyField = n.busyField
  getlst : n'.getlst = n.getlst
  share : ∀ i, i ∉ touched → n'.share i = n.share i

namespace Net.Only

variable {touched touched' : List Nat} {n n' n'' : Net} {index p : Nat}

theorem rfl : Net.Only touched n n :=
  ⟨Eq.refl _, Eq.refl _, Eq.refl _, fun _ _ => Eq.refl _⟩

theorem trans (first : Net.Only touched n n') (second : Net.Only touched n' n'') :
    Net.Only touched n n'' where
  endgame := second.endgame.trans first.endgame
  busyField := second.busyField.trans first.busyField
  getlst := second.getlst.trans first.getlst
  share i outside := (second.share i outside).trans (first.share i outside)

theorem mono (only : Net.Only touched n n') (subset : ∀ i ∈ touched, i ∈ touched') :
    Net.Only touched' n n' :=
  ⟨only.endgame, only.busyField, only.getlst, fun i outside =>
    only.share i fun mem => outside (subset i mem)⟩

theorem setPeer (peer : Peer) : Net.Only touched n (n.setPeer p peer) :=
  ⟨Eq.refl _, Eq.refl _, Eq.refl _, fun _ _ => Eq.refl _⟩

/-- A piece that is touched, or whose share stays. -/
theorem setPiece {pc : Piece} (fine : index ∈ touched ∨ pc.share = (n.piece index).share) :
    Net.Only touched n (n.setPiece index pc) := by
  refine ⟨Eq.refl _, Eq.refl _, Eq.refl _, ?_⟩
  intro i outside
  unfold Net.share
  rw [setPiece_piece]
  split
  · rename_i same
    subst same
    exact fine.resolve_left outside
  · exact Eq.refl _

end Net.Only

/-- The routine touches the shares of these pieces only. -/
def Touches {α : Type} (k : Contract Net Fn Fault) (touched : List Nat) (m : Routine α) : Prop :=
  ∀ callers n, m.wp k callers (fun _ n' => Net.Only touched n n') n

/-- The routine touches no share. -/
abbrev Still {α : Type} (k : Contract Net Fn Fault) (m : Routine α) : Prop := Touches k [] m

namespace Touches

variable {α β : Type} {k : Contract Net Fn Fault} {touched touched' : List Nat} {index p : Nat}

theorem pure {a : α} : Touches k touched (Pure.pure a : Routine α) := fun _ _ =>
  wp_pure.mpr .rfl

theorem seq {m : Routine α} {f : α → Routine β} (first : Touches k touched m)
    (second : ∀ a, Touches k touched (f a)) : Touches k touched (m >>= f) := fun callers n =>
  wp_seq (first callers n) fun a n' only =>
    wp_mono (second a callers n') fun _ _ only' => only.trans only'

theorem get {f : Net → Routine α}
    (body : ∀ callers n, (f n).wp k callers (fun _ n' => Net.Only touched n n') n) :
    Touches k touched (Prog.get >>= f) := fun callers n =>
  wp_bind.mpr (wp_get.mpr (body callers n))

theorem modify {f : Net → Net} (only : ∀ n, Net.Only touched n (f n)) :
    Touches k touched (Prog.modify f) := fun _ n => wp_modify.mpr (only n)

theorem when {c : Prop} [Decidable c] {m : Routine Unit} (touches : Touches k touched m) :
    Touches k touched (Prog.when c m) := by
  intro callers n
  rw [wp_when]
  split
  · exact touches callers n
  · exact .rfl

theorem forEach {f : β → Routine Unit} {xs : List β}
    (each : ∀ x ∈ xs, Touches k touched (f x)) : Touches k touched (Prog.forEach xs f) := by
  intro callers n
  have turn : ∀ x ∈ xs, ∀ n', Net.Only touched n n' →
      (f x).wp k callers (fun _ n'' => Net.Only touched n n'') n' := fun x mem n' only =>
    wp_mono (each x mem callers n') fun _ _ only' => only.trans only'
  exact wp_forEach_keeps _ turn .rfl

theorem call {fn : Fn} {m : Routine α} (touches : Touches k touched m) :
    Touches k touched (Prog.call fn m) := fun callers n =>
  wp_call.mpr (.inr (touches (fn :: callers) n))

theorem mono {m : Routine α} (touches : Touches k touched m)
    (subset : ∀ i ∈ touched, i ∈ touched') : Touches k touched' m := fun callers n =>
  wp_mono (touches callers n) fun _ _ only => only.mono subset

theorem of_still {m : Routine α} (still : Still k m) : Touches k touched m :=
  still.mono fun _ mem => absurd mem List.not_mem_nil

section Open

variable (open_ : ∀ e, k.allowed e)

include open_

theorem fault {e : Fault} : Touches k touched (Prog.fault e : Routine α) := fun _ _ =>
  wp_fault.mpr (open_ e)

theorem assert {c : Prop} [Decidable c] {e : Fault} :
    Touches k touched (Prog.assert c e : Routine Unit) := by
  intro callers n
  rw [wp_assert]
  split
  · exact .rfl
  · exact open_ e

/-- What is done to a peer does not matter. -/
theorem onPeer {f : Peer → Except Fault Peer} : Touches k touched (onPeer p f) := by
  intro callers n
  rw [wp_onPeer]
  cases f (n.peer p) with
  | error e => exact open_ e
  | ok peer => exact .setPeer peer

/-- What is done to a touched piece does not matter. -/
theorem onPiece {f : Piece → Except Fault Piece} (mem : index ∈ touched) :
    Touches k touched (onPiece index f) := by
  intro callers n
  rw [wp_onPiece]
  cases f (n.piece index) with
  | error e => exact open_ e
  | ok pc => exact .setPiece (.inl mem)

/-- What is done to a piece leaves its share alone. -/
theorem onPiece_share {f : Piece → Except Fault Piece}
    (kept : ∀ pc pc', f pc = .ok pc' → pc'.share = pc.share) :
    Touches k touched (Download.onPiece index f) := by
  intro callers n
  rw [wp_onPiece]
  cases found : f (n.piece index) with
  | error e => exact open_ e
  | ok pc => exact .setPiece (.inr (kept _ _ found))

end Open

end Touches

/-! ## Routines that leave the order alone -/

section Still

variable {t : Torrent} {k : Contract Net Fn Fault} {index p : Nat} (open_ : ∀ e, k.allowed e)

include open_

theorem still_dlFindPiece : Still k (dlFindPiece index) := by
  apply Touches.get
  intro callers n
  rw [wp_ite]
  split
  · exact wp_pure.mpr .rfl
  · exact wp_fault.mpr (open_ _)

theorem still_peerWant : Still k (peerWant p index) := (Touches.onPeer open_).call

theorem still_peerUnwant : Still k (peerUnwant p index) := Touches.onPeer open_

theorem still_netBanPeer : Still k (netBanPeer p) := Touches.onPeer open_

/-- The share does not depend on the fields that are not counts. -/
theorem still_onPiece_ok (f : Piece → Piece) (kept : ∀ pc, (f pc).share = pc.share) :
    Still k (onPiece index fun pc => .ok (f pc)) := by
  apply Touches.onPiece_share open_
  intro pc pc' done
  cases done
  exact kept pc

theorem still_unlinkPiece {req : BlockRequest} : Still k (onPiece index (·.unlink req)) := by
  apply Touches.onPiece_share open_
  intro pc pc' done
  unfold Piece.unlink at done
  split at done
  · cases done
    rfl
  · cases done

theorem still_onFirstLog {f : BlockLog → BlockLog} : Still k (onFirstLog index f) := by
  apply Touches.onPiece_share open_
  intro pc pc' done
  split at done
  · cases done
  · cases done
    rfl

theorem still_pieceLogHashes : Still k (pieceLogHashes t index) :=
  Touches.get fun callers n => still_onFirstLog open_ callers n

theorem still_pieceLogSuspect {r : LogRecord} : Still k (pieceLogSuspect index r) := by
  apply Touches.get
  intro callers n
  apply (Touches.when _ : Still k _)
  exact (Touches.when (still_peerUnwant open_)).seq fun _ => Touches.onPeer open_

theorem still_pieceLogBlame {log : BlockLog} {logs : List BlockLog} :
    Still k (pieceLogBlame t index log logs) := by
  apply Touches.get
  intro callers n
  split
  · apply Touches.seq (Touches.when (still_peerUnwant open_)) _ callers n
    intro _
    apply Touches.seq (still_netBanPeer open_)
    intro _
    exact still_onPiece_ok open_ _ fun _ => rfl
  · apply Touches.seq (Touches.forEach fun _ _ => still_pieceLogSuspect open_) _ callers n
    intro _
    exact still_pieceLogHashes open_

theorem still_pieceLogBad : Still k (pieceLogBad t index) := by
  apply Touches.call
  apply Touches.get
  intro callers n
  split
  · exact wp_fault.mpr (open_ _)
  · apply Touches.seq (Touches.assert open_) _ callers n
    intro _
    apply Touches.seq (still_pieceLogBlame open_)
    intro _
    exact still_onPiece_ok open_ _ fun _ => rfl

omit open_ in
/-- What is stored does not matter. -/
theorem still_content {f : Net → Content} :
    Still k (Prog.modify fun n => { n with cm := f n }) :=
  .modify fun _ => ⟨rfl, rfl, rfl, fun _ _ => rfl⟩

omit open_ in
theorem still_cmPrealloc : Still k (cmPrealloc t index) := by
  apply Touches.modify
  intro n
  split
  · exact ⟨rfl, rfl, rfl, fun _ _ => rfl⟩
  · exact .rfl

theorem still_cmFillZeros {start : Nat} : Still k (cmFillZeros t start) := by
  apply Touches.get
  intro callers n
  rw [wp_ite]
  split
  · exact wp_pure.mpr .rfl
  · apply Touches.seq (Touches.assert open_) _ callers n
    intro _
    exact Touches.seq still_content fun _ => still_content

theorem still_cmPutBytes {begin : Nat} {buf : List UInt8} :
    Still k (cmPutBytes t index begin buf) := by
  apply Touches.get
  intro callers n
  apply Touches.seq (Touches.assert open_) _ callers n
  intro _
  apply Touches.seq (Touches.assert open_)
  intro _
  apply Touches.seq
  · apply Touches.when
    apply Touches.seq (Touches.assert open_)
    intro _
    exact Touches.forEach fun _ _ => still_cmFillZeros open_
  · intro _
    exact Touches.seq still_content fun _ => still_content

omit open_ in
theorem still_randBetween {lo hi : Nat} : Still k (randBetween t lo hi) := by
  apply Touches.get
  intro callers n
  rw [wp_bind, wp_modify]
  exact wp_pure.mpr ⟨rfl, rfl, rfl, fun _ _ => rfl⟩

theorem still_dlChooseRarest : Still k (dlChooseRarest t p) := by
  apply Touches.get
  intro callers n
  apply Touches.seq (Touches.assert open_) _ callers n
  intro _
  split
  · exact .pure
  · split
    · exact .pure
    · apply Touches.seq still_randBetween
      intro r
      dsimp only
      split
      · exact .fault open_
      · exact .pure

/-! ## Requests for one piece -/

theorem touches_dlNewRequest {msg : Option ReqMsg} :
    Touches k [index] (dlNewRequest t index p msg) := by
  apply Touches.get
  intro callers n
  apply Touches.seq _ _ callers n
  · apply Touches.modify
    intro n
    exact (Net.Only.setPiece (.inl List.mem_cons_self)).trans ⟨rfl, rfl, rfl, fun _ _ => rfl⟩
  · intro _
    apply Touches.seq (Touches.onPeer open_)
    exact fun _ => .pure

theorem touches_assignBlocksEg {firstBlock : Nat} (fuel : Nat) :
    Touches k [index] (assignBlocksEg t index p firstBlock fuel) := by
  induction fuel with
  | zero => exact Touches.fault open_
  | succ fuel ih =>
      apply Touches.get
      intro callers n
      apply Touches.seq (Touches.when (Touches.get _)) _ callers n
      · intro callers n
        dsimp only
        split
        · exact wp_fault.mpr (open_ _)
        · apply Touches.seq (touches_dlNewRequest open_) _ callers n
          intro _
          exact Touches.onPiece open_ List.mem_cons_self
      · intro _
        apply Touches.seq (Touches.onPiece open_ List.mem_cons_self)
        intro _
        apply Touches.get
        intro callers n
        rw [wp_ite]
        split
        · exact ih callers n
        · exact wp_pure.mpr .rfl

theorem touches_assignBlocks (fuel : Nat) : Touches k [index] (assignBlocks t index p fuel) := by
  induction fuel with
  | zero => exact Touches.fault open_
  | succ fuel ih =>
      apply Touches.get
      intro callers n
      apply Touches.seq (Touches.onPiece open_ List.mem_cons_self) _ callers n
      intro _
      apply Touches.seq (touches_dlNewRequest open_)
      intro _
      apply Touches.seq (Touches.onPiece open_ List.mem_cons_self)
      intro _
      apply Touches.get
      intro callers n
      rw [wp_ite]
      split
      · exact ih callers n
      · exact wp_pure.mpr .rfl

theorem touches_unlinkRequest {req : BlockRequest} :
    Touches k [index] (unlinkRequest index p req) := by
  apply Touches.seq (Touches.onPeer open_)
  intro _
  apply Touches.seq (Touches.onPiece open_ List.mem_cons_self)
  intro _
  exact Touches.onPiece open_ List.mem_cons_self

theorem touches_unassignRequest {req : BlockRequest} :
    Touches k [index] (unassignRequest index p req) := by
  apply Touches.get
  intro callers n
  apply Touches.seq (Touches.assert open_) _ callers n
  intro _
  apply Touches.seq (Touches.onPiece open_ List.mem_cons_self)
  intro _
  exact touches_unlinkRequest open_

theorem touches_cancelOthers {begin length : Nat} {req : BlockRequest} :
    Touches k [index] (cancelOthers index p begin length req) := by
  apply Touches.when
  apply Touches.seq (Touches.when (Touches.onPeer open_))
  intro _
  exact Touches.onPiece open_ List.mem_cons_self

end Still

end Btpd.Download
