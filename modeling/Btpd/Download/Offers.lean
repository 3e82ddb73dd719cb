import Btpd.Download.Endgame

/-!
# What is offered to a peer in end game

A peer is asked for the pieces that it can be asked for in the order of the list, so in a
run that nothing disturbs for the least requested ones first.
-/

namespace Btpd.Download

open Prog

/-- The peer can be asked for the piece, and the piece lacks blocks. -/
def Net.Askable (n : Net) (p index : Nat) : Prop :=
  (n.peer p).requestable index = true ∧ (n.piece index).nblocks ≠ (n.piece index).ngot

instance {n : Net} {p : Nat} : DecidablePred (n.Askable p) := fun index => by
  unfold Net.Askable
  infer_instance

/-- The peer can be asked for the same pieces. -/
def Net.SameOffer (p : Nat) (n n' : Net) : Prop :=
  ∀ index, n'.Askable p index ↔ n.Askable p index

variable {t : Torrent} {n n' n'' : Net} {callers : List Fn} {p index : Nat}

theorem Net.SameOffer.refl : Net.SameOffer p n n := fun _ => Iff.rfl

theorem Net.SameOffer.trans (first : Net.SameOffer p n n') (second : Net.SameOffer p n' n'') :
    Net.SameOffer p n n'' := fun index => (second index).trans (first index)

theorem Net.SameOffer.setPiece {pc : Piece} (nblocks : pc.nblocks = (n.piece index).nblocks)
    (ngot : pc.ngot = (n.piece index).ngot) : Net.SameOffer p n (n.setPiece index pc) := by
  intro i
  unfold Net.Askable
  rw [setPiece_piece, setPiece_peer]
  split
  · rename_i same
    rw [same, nblocks, ngot]
  · exact Iff.rfl

theorem Net.SameOffer.setPeer {peer : Peer}
    (same : ∀ i, peer.requestable i = (n.peer p).requestable i) :
    Net.SameOffer p n (n.setPeer p peer) := by
  intro i
  unfold Net.Askable
  rw [setPeer_peer, if_pos rfl, setPeer_piece, same i]

/-! ## Requests change nothing of it -/

/-- The routine leaves the peer with the same pieces to be asked for. -/
def Offers {α : Type} (p : Nat) (m : Routine α) : Prop :=
  ∀ callers n, m.wp whenReturns callers (fun _ n' => Net.SameOffer p n n') n

theorem Offers.seq {α β : Type} {m : Routine α} {f : α → Routine β} (first : Offers p m)
    (second : ∀ a, Offers p (f a)) : Offers p (m >>= f) := fun callers n =>
  wp_seq (first callers n) fun a n' same =>
    wp_mono (second a callers n') fun _ _ same' => same.trans same'

theorem Offers.when {c : Prop} [Decidable c] {m : Routine Unit} (offers : Offers p m) :
    Offers p (Prog.when c m) := by
  intro callers n
  rw [wp_when]
  split
  · exact offers callers n
  · exact .refl

theorem offers_onPiece {f : Piece → Piece}
    (same : ∀ pc, (f pc).nblocks = pc.nblocks ∧ (f pc).ngot = pc.ngot) :
    Offers p (onPiece index fun pc => .ok (f pc)) := by
  intro callers n
  rw [wp_onPiece]
  exact .setPiece (same _).1 (same _).2

theorem offers_request {req : BlockRequest} : Offers p (onPeer p (·.request req)) := by
  intro callers n
  rw [wp_onPeer]
  apply ends_mono (Returns.of_ends Peer.request_core)
  rintro peer ⟨-, core⟩
  apply Net.SameOffer.setPeer
  intro i
  show peer.core.requestable i = (n.peer p).requestable i
  rw [core]
  rfl

theorem offers_dlNewRequest {msg : Option ReqMsg} : Offers p (dlNewRequest t index p msg) := by
  intro callers n
  unfold dlNewRequest
  rw [wp_bind, wp_get, wp_bind, wp_modify]
  have added : ∀ req, Net.SameOffer p n (n.addRequest index req) := by
    intro req
    have counts : ∀ endgame, ((n.piece index).addRequest endgame req).nblocks =
        (n.piece index).nblocks ∧ ((n.piece index).addRequest endgame req).ngot =
          (n.piece index).ngot := by
      intro endgame
      cases endgame with
      | false => exact ⟨rfl, rfl⟩
      | true => exact ⟨rfl, rfl⟩
    exact Net.SameOffer.setPiece (counts n.endgame).1 (counts n.endgame).2
  apply wp_seq (offers_request callers _)
  intro _ n' same
  exact wp_pure.mpr ((added _).trans same)

theorem offers_assignBlocksEg {firstBlock : Nat} (fuel : Nat) :
    Offers p (assignBlocksEg t index p firstBlock fuel) := by
  induction fuel with
  | zero => exact fun _ _ => wp_fault.mpr trivial
  | succ fuel ih =>
      intro callers n
      have requested : Offers p (requestBlockEg t index p) := by
        intro callers n
        unfold requestBlockEg
        rw [wp_bind, wp_get]
        dsimp only
        split
        · exact wp_fault.mpr trivial
        · apply Offers.seq offers_dlNewRequest _ callers n
          intro msg
          exact offers_onPiece fun _ => ⟨rfl, rfl⟩
      unfold assignBlocksEg
      rw [wp_bind, wp_get]
      dsimp only
      apply wp_seq (requested.when callers n)
      intro _ n₁ same₁
      apply wp_seq (offers_onPiece (f := Piece.incNextBlock) (fun _ => ⟨rfl, rfl⟩) callers n₁)
      intro _ n₂ same₂
      rw [wp_bind, wp_get, wp_ite]
      split
      · exact wp_mono (ih callers n₂) fun _ _ same₃ => (same₁.trans same₂).trans same₃
      · exact wp_pure.mpr (same₁.trans same₂)

/-! ## The order of the offers -/

/-- The pieces that have been offered are the first ones on the list that the peer can be
asked for, in the order of the list. -/
theorem assignPiecesEg_wp_front {rest tmp : List Nat} (same : Net.SameOffer p n n') :
    (assignPiecesEg t p rest tmp).wp whenReturns callers
      (fun moved _ => moved.reverse <+:
        tmp.reverse ++ rest.filter (fun index => n.Askable p index)) n' := by
  induction rest generalizing n' tmp with
  | nil => exact wp_pure.mpr (by simp)
  | cons index rest ih =>
      unfold assignPiecesEg
      rw [wp_bind, wp_get, wp_ite]
      split
      · exact wp_pure.mpr (List.prefix_append _ _)
      rw [wp_ite]
      split
      · rename_i askable
        have kept : index :: rest.filter (fun index => n.Askable p index) =
            (index :: rest).filter fun index => n.Askable p index := by
          rw [List.filter_cons_of_pos]
          exact decide_eq_true ((same index).mp askable)
        apply wp_seq (offers_assignBlocksEg _ callers n')
        intro _ n₁ same₁
        apply wp_mono (ih (same.trans same₁))
        intro moved _ front
        rw [← kept]
        simpa using front
      · rename_i refused
        rw [List.filter_cons_of_neg]
        · exact ih same
        · simpa using fun askable => refused ((same index).mpr askable)

/-- The peer is offered the least requested pieces first: they go out in the order of their
shares, and none is passed over for one with a larger share. -/
def Net.LeastFirst (t : Torrent) (n : Net) (p : Nat) : Prop :=
  ∀ callers moved n', (assignPiecesEg t p n.getlst [] callers n).2 = .ok (moved, n') →
    SortedBy n.share moved.reverse ∧
      ∀ i ∈ moved, ∀ j ∈ n.getlst, n.Askable p j → n.share j < n.share i → j ∈ moved

theorem Net.Ordered.leastFirst (ordered : n.Ordered) : n.LeastFirst t p := by
  intro callers moved n' offered
  have front : moved.reverse <+: n.getlst.filter (fun index => n.Askable p index) :=
    wp_whenReturns_iff.mp (assignPiecesEg_wp_front .refl) moved n' offered
  have sorted : SortedBy n.share (n.getlst.filter fun index => n.Askable p index) :=
    ordered.sublist List.filter_sublist
  refine ⟨sorted.sublist front.sublist, fun i moved_i j mem askable less => ?_⟩
  apply List.mem_reverse.mp
  apply sorted.mem_of_front front
  · exact List.mem_reverse.mpr moved_i
  · exact List.mem_filter.mpr ⟨mem, decide_eq_true askable⟩
  · exact less

/-! ## Runs -/

instance {n : Net} {index : Nat} : Decidable (n.Behind index) := by
  unfold Net.Behind
  infer_instance

instance : DecidablePred disturbs := fun ⟨fn, _, _⟩ => by
  cases fn <;> unfold disturbs <;> infer_instance

/-- In a run that nothing disturbs the list is sorted in end game, and every peer is offered
the least requested pieces first. -/
theorem ordered_of_reachable (reached : (system t).Reachable disturbs n)
    (endgame : n.endgame = true) : n.Ordered ∧ ∀ p, n.LeastFirst t p := by
  have ordered := (inOrder_of_reachable reached).ordered endgame
  exact ⟨ordered, fun _ => ordered.leastFirst⟩

/-- Two pieces of one block. -/
def twoPieces : Torrent :=
  ⟨2, 1, [2], id, Vector.replicate 20 0, Vector.replicate 20 0, fun _ => [7], id, 0, fun _ => 0⟩

/-- The start with nothing on disk. -/
def twoPiecesStart : Net :=
  Net.create twoPieces (startupTestEnd twoPieces (fun _ => false) (fun _ _ => false) fun _ => 0)

/-- One peer has both pieces and is asked for them. -/
def bothAsked : List Event := [.shake none, .haveMsg 0 0, .haveMsg 0 1, .unchoke 0]

theorem ordered_of_reachable_bothAsked :
    ∃ n, (system twoPieces).Reachable disturbs n ∧ (n.endgame = true ∧ n.getlst = [0, 1]) ∧
      n.Ordered ∧ ∀ p, n.LeastFirst twoPieces p := by
  have start : (system twoPieces).Reachable disturbs twoPiecesStart :=
    .start ⟨_, _, _, rfl⟩
  obtain ⟨n, reached, holds⟩ := System.Reachable.of_after
    (P := fun n => n.endgame = true ∧ n.getlst = [0, 1]) bothAsked start (by decide +kernel)
  exact ⟨n, reached, holds, ordered_of_reachable reached holds.1⟩

/-- The block of the first piece comes and is bad: the piece, of which nothing is requested
now, stays behind the other one. -/
theorem not_ordered_of_reachable :
    ¬∀ n, (system twoPieces).Reachable (fun _ => False) n → n.endgame = true →
      n.Ordered ∧ ∀ p, n.LeastFirst twoPieces p := by
  intro claim
  have start : (system twoPieces).Reachable (fun _ => False) twoPiecesStart :=
    .start ⟨_, _, _, rfl⟩
  obtain ⟨n, reached, endgame, list, less⟩ := System.Reachable.of_after
    (P := fun n => n.endgame = true ∧ n.getlst = [1, 0] ∧ n.share 0 < n.share 1)
    (bothAsked ++ [.piece 0 0 0 [1]]) start (by decide +kernel)
  have ordered := (claim n reached endgame).1
  unfold Net.Ordered SortedBy at ordered
  rw [list] at ordered
  exact absurd less (not_lt_of_ge (List.rel_of_pairwise_cons ordered (List.mem_singleton.mpr rfl)))

end Btpd.Download
