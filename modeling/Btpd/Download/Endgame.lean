import Btpd.Download.Invariant
import Btpd.Download.Order

/-!
# How the order in end game is kept and lost

A piece whose share changes in end game is taken off the list and put back where it belongs.
Two places do not: a piece that fails its test loses its blocks where it stands, at the end
of the list, and a piece that is given out again after a loss goes on to get requests as
before when that has just started end game.
-/

namespace Btpd.Download

open Prog

/-- The routine is the one that gives out a piece again. -/
def Fn.givesOut : Fn → Bool
  | .dlOnPieceUnfull _ => true
  | _ => false

/-- Before the piece on the list stands one with a larger share. -/
def Net.Behind (n : Net) (index : Nat) : Prop :=
  ∃ i ∈ n.getlst.takeWhile (· ≠ index), n.share index < n.share i

/-- The calls that disturb the order: the blame for a piece that has failed its test in end
game and stands behind a piece with a larger share, and the start of end game while a piece
is given out again. -/
def disturbs (c : Call Net Fn) : Prop :=
  match c.fn with
  | .pieceLogBad index => c.entry.endgame = true ∧ c.entry.Behind index
  | .dlEnterEndgame => c.callers.any Fn.givesOut = true
  | _ => False

/-- The order is promised as long as nothing disturbs it; any fault ends the run. -/
abbrev orderly : Contract Net Fn Fault := ⟨disturbs, fun _ => True⟩

theorem open_orderly : ∀ e, orderly.allowed e := fun _ => trivial

/-- Every piece on the list is on it once and is marked as busy. -/
structure Net.Listed (n : Net) : Prop where
  nodup : n.getlst.Nodup
  busy : ∀ i ∈ n.getlst, n.busyField i = true

/-- In end game the list is sorted. -/
structure Net.InOrder (n : Net) : Prop extends n.Listed where
  ordered : n.endgame = true → n.Ordered

theorem Net.Listed.inOrder {n : Net} (listed : n.Listed) (normal : n.endgame = false) :
    n.InOrder :=
  ⟨listed, fun endgame => absurd (normal.symm.trans endgame) Bool.false_ne_true⟩

theorem Net.Listed.of_only {touched : List Nat} {n n' : Net} (listed : n.Listed)
    (only : Net.Only touched n n') : n'.Listed := by
  constructor
  · rw [only.getlst]
    exact listed.nodup
  · rw [only.getlst, only.busyField]
    exact listed.busy

/-- A list with the same pieces in another order. -/
theorem Net.Listed.of_perm {n n' : Net} (listed : n.Listed) (perm : n'.getlst.Perm n.getlst)
    (busy : n'.busyField = n.busyField) : n'.Listed := by
  constructor
  · exact perm.nodup_iff.mpr listed.nodup
  · intro i mem
    rw [busy]
    exact listed.busy i (perm.mem_iff.mp mem)

theorem Net.InOrder.of_still {n n' : Net} (held : n.InOrder) (only : Net.Only [] n n') :
    n'.InOrder := by
  constructor
  · exact held.toListed.of_only only
  · intro endgame
    rw [only.endgame] at endgame
    unfold Net.Ordered
    rw [only.getlst]
    exact (held.ordered endgame).congr fun i _ => only.share i List.not_mem_nil

/-- In end game, with the list sorted. -/
structure Net.InEndgame (n : Net) : Prop extends n.InOrder where
  endgame : n.endgame = true

theorem Net.InEndgame.of_still {n n' : Net} (held : n.InEndgame) (only : Net.Only [] n n') :
    n'.InEndgame :=
  ⟨held.toInOrder.of_still only, only.endgame.trans held.endgame⟩

/-- Not in end game. -/
structure Net.InNormal (n : Net) : Prop extends n.Listed where
  normal : n.endgame = false

theorem Net.InNormal.of_only {touched : List Nat} {n n' : Net} (held : n.InNormal)
    (only : Net.Only touched n n') : n'.InNormal :=
  ⟨held.toListed.of_only only, only.endgame.trans held.normal⟩

variable {t : Torrent} {n n' : Net} {callers : List Fn} {p index : Nat} {tmp : List Nat}

theorem still_assert {c : Prop} [Decidable c] {e : Fault} :
    Still orderly (Prog.assert c e : Routine Unit) :=
  Touches.assert open_orderly

theorem keeps_still {α : Type} {m : Routine α} (still : Still orderly m) :
    Keeps orderly Net.InOrder m := fun callers n held =>
  wp_mono (still callers n) fun _ _ only => held.of_still only

theorem keeps_still_endgame {α : Type} {m : Routine α} (still : Still orderly m) :
    Keeps orderly Net.InEndgame m := fun callers n held =>
  wp_mono (still callers n) fun _ _ only => held.of_still only

theorem keeps_touches_normal {α : Type} {touched : List Nat} {m : Routine α}
    (touches : Touches orderly touched m) : Keeps orderly Net.InNormal m := fun callers n held =>
  wp_mono (touches callers n) fun _ _ only => held.of_only only

/-! ## Putting pieces back -/

theorem forEach_insertEg_wp :
    (Prog.forEach tmp dlPieceInsertEg).wp orderly callers
      (fun _ n' => n' = { n with getlst := insertAllBy n.share tmp n.getlst }) n := by
  induction tmp generalizing n with
  | nil => exact wp_pure.mpr rfl
  | cons index tmp ih =>
      unfold Prog.forEach dlPieceInsertEg
      rw [wp_bind, wp_modify, insertEg_eq]
      exact ih

/-- The pieces that a routine has touched go back to their places. -/
theorem dlReinsertEg_wp (held : n.InEndgame) (only : Net.Only tmp n n') (distinct : tmp.Nodup)
    (inside : ∀ i ∈ tmp, i ∈ n.getlst) :
    (dlReinsertEg tmp).wp orderly callers (fun _ n'' => n''.InEndgame) n' := by
  unfold dlReinsertEg
  rw [wp_bind, wp_modify]
  apply wp_mono forEach_insertEg_wp
  rintro _ n'' rfl
  constructor
  · constructor
    · apply Net.Listed.of_perm held.toListed
      · show (insertAllBy _ tmp (n'.getlst.filter (· ∉ tmp))).Perm n.getlst
        rw [only.getlst]
        exact reinsert_perm held.nodup distinct inside
      · exact only.busyField
    · intro _
      show SortedBy n'.share (insertAllBy n'.share tmp (n'.getlst.filter (· ∉ tmp)))
      rw [only.getlst]
      exact (held.ordered held.endgame).reinsert fun i _ outside => only.share i outside
  · exact only.endgame.trans held.endgame

/-! ## Requests in end game -/

theorem assignPiecesEg_wp_only {rest : List Nat} (only : Net.Only tmp n n')
    (inside : (tmp.reverse ++ rest).Sublist n.getlst) :
    (assignPiecesEg t p rest tmp).wp orderly callers
      (fun moved n'' => Net.Only moved n n'' ∧ moved.reverse.Sublist n.getlst) n' := by
  induction rest generalizing n' tmp with
  | nil =>
      rw [List.append_nil] at inside
      exact wp_pure.mpr ⟨only, inside⟩
  | cons index rest ih =>
      have fewer : (tmp.reverse ++ rest).Sublist n.getlst :=
        ((List.sublist_cons_self index rest).append_left tmp.reverse).trans inside
      unfold assignPiecesEg
      rw [wp_bind, wp_get, wp_ite]
      split
      · exact wp_pure.mpr ⟨only, (List.sublist_append_left _ _).trans inside⟩
      rw [wp_ite]
      split
      · have assigned : Touches orderly [index] (dlPieceAssignRequestsEg t index p) :=
          Touches.get fun callers n => touches_assignBlocksEg open_orderly _ callers n
        apply wp_seq (assigned callers n')
        intro _ n₁ only₁
        apply ih
        · exact (only.mono fun i mem => List.mem_cons_of_mem _ mem).trans
            (only₁.mono fun i mem => List.mem_cons.mpr (.inl (List.mem_singleton.mp mem)))
        · rw [List.reverse_cons, List.append_assoc]
          exact inside
      · exact ih only fewer

theorem keeps_dlAssignRequestsEg : Keeps orderly Net.InEndgame (dlAssignRequestsEg t p) := by
  apply keeps_get
  intro callers n held
  rw [wp_bind, wp_assert]
  split
  · have all : (([] : List Nat).reverse ++ n.getlst).Sublist n.getlst := List.Sublist.refl _
    apply wp_seq (assignPiecesEg_wp_only .rfl all)
    rintro moved n' ⟨only, sublist⟩
    apply dlReinsertEg_wp held only
    · exact (List.reverse_perm moved).nodup_iff.mp (sublist.nodup held.nodup)
    · intro i mem
      exact sublist.subset (List.mem_reverse.mpr mem)
  · trivial

theorem keeps_dlEnterEndgamePeer : Keeps orderly Net.InEndgame (dlEnterEndgamePeer t p) := by
  apply keeps_get
  intro callers n held
  apply keeps_seq (keeps_still_endgame still_assert) _ callers n held
  intro _
  apply keeps_seq
  · exact keeps_still_endgame (Touches.forEach fun _ _ => still_peerWant open_orderly)
  · intro _
    apply keeps_get
    intro callers n held
    exact keeps_when keeps_dlAssignRequestsEg callers n held

/-- End game starts with the list sorted. -/
theorem dlEnterEndgame_wp (listed : n.Listed) :
    (dlEnterEndgame t).wp orderly callers
      (fun _ n' => n'.InEndgame ∧ callers.any Fn.givesOut = false) n := by
  apply wp_call.mpr
  rcases Bool.eq_false_or_eq_true (callers.any Fn.givesOut) with giving | free
  · exact .inl giving
  right
  rw [wp_bind, wp_get, wp_bind, wp_modify]
  have entered : Still orderly
      (Prog.forEach n.getlst fun index => onPiece index fun pc => .ok pc.enterEndgame) :=
    Touches.forEach fun _ _ => still_onPiece_ok open_orderly _ fun _ => rfl
  apply wp_seq (still_assert _ _)
  intro _ n₁ only₁
  apply wp_seq (entered _ _)
  intro _ n₂ only₂
  rw [wp_bind, wp_modify]
  apply wp_seq forEach_insertEg_wp
  rintro _ n₃ rfl
  have only := only₁.trans only₂
  refine wp_mono (keeps_forEach (fun _ _ => keeps_dlEnterEndgamePeer) _ _ ?_)
    fun _ _ held => ⟨held, free⟩
  constructor
  · constructor
    · apply Net.Listed.of_perm listed
      · apply insertAllBy_perm.trans
        rw [List.append_nil]
        exact List.reverse_perm _
      · exact only.busyField
    · intro _
      exact SortedBy.insertAllBy List.Pairwise.nil
  · exact only.endgame

/-! ## Requests outside end game -/

/-- What is left of a routine that may start end game: the list is in order, and if a piece
was being given out, end game has not started. -/
def Settled (callers : List Fn) (n : Net) : Prop :=
  n.InOrder ∧ (callers.any Fn.givesOut = true → n.endgame = false)

theorem dlOnPieceFull_wp (held : n.InNormal) :
    (dlOnPieceFull t index).wp orderly callers (fun _ n' => Settled callers n') n := by
  apply wp_call.mpr
  right
  rw [wp_bind, wp_get]
  apply wp_seq (Touches.forEach (fun _ _ => still_peerUnwant open_orderly) _ _)
  intro _ n₁ only
  have held₁ := held.of_only only
  rw [wp_bind, wp_get, wp_when]
  split
  · apply wp_mono (dlEnterEndgame_wp held₁.toListed)
    rintro _ n₂ ⟨held₂, free⟩
    exact ⟨held₂.toInOrder, fun giving => absurd (free.symm.trans giving) Bool.false_ne_true⟩
  · exact ⟨held₁.inOrder held₁.normal, fun _ => held₁.normal⟩

theorem dlPieceAssignRequests_wp_settled (held : n.InNormal) :
    (dlPieceAssignRequests t index p).wp orderly callers (fun _ n' => Settled callers n') n := by
  unfold dlPieceAssignRequests
  rw [wp_bind, wp_get]
  apply wp_seq (keeps_touches_normal still_assert _ _ held)
  intro _ n₁ held₁
  apply wp_seq (keeps_touches_normal still_assert _ _ held₁)
  intro _ n₂ held₂
  apply wp_seq (keeps_touches_normal (touches_assignBlocks open_orderly _) _ _ held₂)
  intro _ n₃ held₃
  rw [wp_bind, wp_get, wp_when]
  split
  · exact dlOnPieceFull_wp held₃
  · exact ⟨held₃.inOrder held₃.normal, fun _ => held₃.normal⟩

theorem Net.InOrder.normal (held : n.InOrder) (normal : ¬ n.endgame = true) : n.InNormal :=
  ⟨held.toListed, Bool.eq_false_iff.mpr normal⟩

theorem assignStarted_wp_inOrder {rest : List Nat} (held : n.InNormal) :
    (assignStarted t p rest).wp orderly callers (fun _ n' => n'.InOrder) n := by
  induction rest generalizing n with
  | nil => exact wp_pure.mpr (held.inOrder held.normal)
  | cons index rest ih =>
      unfold assignStarted
      rw [wp_bind, wp_get, wp_ite]
      split
      · exact ih held
      · apply wp_seq (dlPieceAssignRequests_wp_settled held)
        rintro _ n₁ ⟨held₁, -⟩
        rw [wp_bind, wp_get, wp_ite]
        split
        · exact wp_pure.mpr held₁
        · rename_i normal
          rw [wp_bind, wp_assert]
          split
          · rw [wp_ite]
            split
            · exact wp_pure.mpr held₁
            · exact ih (held₁.normal normal)
          · trivial

/-- A new piece is put on the list. -/
theorem dlNewPiece_wp (held : n.InNormal) :
    (dlNewPiece t index).wp orderly callers (fun _ n' => n'.InNormal) n := by
  apply wp_seq (keeps_touches_normal still_cmPrealloc _ _ held)
  intro _ n₁ held₁
  unfold pieceAlloc
  simp only [wp_bind, wp_get, wp_assert, wp_modify]
  split
  · rename_i free
    split
    · constructor
      · constructor
        · show (n₁.getlst ++ [index]).Nodup
          apply List.nodup_append.mpr
          refine ⟨held₁.nodup, by simp, ?_⟩
          rintro i mem j here rfl
          have busy := held₁.busy i mem
          rw [List.mem_singleton.mp here, free.1] at busy
          exact Bool.false_ne_true busy
        · intro i mem
          show setBit n₁.busyField index i = true
          rw [setBit, Function.update_apply]
          split
          · rfl
          · rename_i other
            rcases List.mem_append.mp mem with before | here
            · exact held₁.busy i before
            · exact absurd (List.mem_singleton.mp here) other
      · exact held₁.normal
    · trivial
  · trivial

theorem keeps_assignNew (fuel : Nat) : Keeps orderly Net.InOrder (assignNew t p fuel) := by
  induction fuel with
  | zero => exact Prog.keeps_fault trivial
  | succ fuel ih =>
      apply keeps_get
      intro callers n held
      rw [wp_ite]
      split
      · exact wp_pure.mpr held
      · rename_i going
        have normal : n.InNormal := held.normal fun endgame => going (.inr endgame)
        apply wp_seq (keeps_touches_normal (still_dlChooseRarest open_orderly) _ _ normal)
        intro chosen n₁ normal₁
        split
        · exact wp_pure.mpr (normal₁.inOrder normal₁.normal)
        · apply wp_seq (dlNewPiece_wp normal₁)
          intro _ n₂ normal₂
          apply wp_seq (dlPieceAssignRequests_wp_settled normal₂)
          rintro _ n₃ ⟨held₃, -⟩
          exact ih _ _ held₃

theorem keeps_dlAssignRequests : Keeps orderly Net.InOrder (dlAssignRequests t p) := by
  apply keeps_get
  intro callers n held
  rw [wp_bind, wp_assert]
  split
  · rename_i normal
    apply wp_seq (keeps_touches_normal still_assert _ _ ⟨held.toListed, normal⟩)
    intro _ n₁ normal₁
    apply wp_seq (assignStarted_wp_inOrder normal₁)
    intro _ n₂ held₂
    exact keeps_assignNew _ _ _ held₂
  · trivial

theorem assignUnfull_wp (giving : callers.any Fn.givesOut = true) (rest : List Nat)
    (held : n.InNormal) :
    (assignUnfull t index rest).wp orderly callers (fun _ n' => n'.InNormal) n := by
  induction rest generalizing n with
  | nil => exact wp_pure.mpr held
  | cons p rest ih =>
      unfold assignUnfull
      rw [wp_bind, wp_get, wp_ite]
      split
      · exact wp_pure.mpr held
      · apply wp_between fun _ n' => Net.InNormal n'
        · rw [wp_when]
          split
          · apply wp_mono (dlPieceAssignRequests_wp_settled held)
            rintro _ n₁ ⟨held₁, normal⟩
            exact ⟨held₁.toListed, normal giving⟩
          · exact held
        · intro _ n₁ held₁
          exact ih held₁

/-- A piece is given out again without end game. -/
theorem dlOnPieceUnfull_wp (listed : n.Listed) :
    (dlOnPieceUnfull t index).wp orderly callers (fun _ n' => n'.InNormal) n := by
  apply wp_call.mpr
  right
  rw [wp_bind, wp_get, wp_bind, wp_assert]
  split
  · rw [wp_bind, wp_assert]
    split
    · rename_i normal
      have still : Still orderly (Prog.forEach n.peers fun p => peerWant p index) :=
        Touches.forEach fun _ _ => still_peerWant open_orderly
      apply wp_seq (keeps_touches_normal still _ _ ⟨listed, normal⟩)
      intro _ n₁ held₁
      exact assignUnfull_wp rfl _ held₁
    · trivial
  · trivial

/-! ## Losing requests -/

theorem keeps_unassignPieces (fuel : Nat) :
    Keeps orderly Net.InNormal (unassignPieces t p fuel) := by
  induction fuel with
  | zero => exact Prog.keeps_fault trivial
  | succ fuel ih =>
      apply keeps_get
      intro callers n held
      rw [wp_ite]
      split
      · exact wp_pure.mpr held
      split
      · exact wp_fault.mpr trivial
      · apply wp_seq (keeps_touches_normal (still_dlFindPiece open_orderly) _ _ held)
        intro pc n₁ held₁
        apply wp_seq (keeps_touches_normal
          (Touches.forEach fun _ _ => touches_unassignRequest open_orderly) _ _ held₁)
        intro _ n₂ held₂
        have settled : Still orderly (onPeer p (·.checkNoReqs)) := Touches.onPeer open_orderly
        apply wp_seq (keeps_touches_normal settled _ _ held₂)
        intro _ n₃ held₃
        rw [wp_bind, wp_get]
        apply wp_between fun _ n' => Net.InNormal n'
        · rw [wp_when]
          split
          · exact dlOnPieceUnfull_wp held₃.toListed
          · exact held₃
        · intro _ n₄ held₄
          exact ih _ _ held₄

theorem keeps_dlUnassignRequests : Keeps orderly Net.InNormal (dlUnassignRequests t p) := by
  apply keeps_get
  intro callers n held
  apply wp_seq (keeps_unassignPieces _ _ _ held)
  intro _ n₁ held₁
  rw [wp_bind, wp_get]
  exact keeps_touches_normal still_assert _ _ held₁

theorem onPiece_peer {f : Piece → Except Fault Piece} :
    (onPiece index f).wp whenReturns callers (fun _ n' => n'.peer = n.peer) n := by
  rw [wp_onPiece]
  cases f (n.piece index) with
  | error e => trivial
  | ok pc => exact rfl

/-- One request less. -/
theorem unlinkRequest_myReqs {req : BlockRequest} :
    (unlinkRequest index p req).wp whenReturns callers
      (fun _ n' => (n'.peer p).myReqs = (n.peer p).myReqs.erase req) n := by
  apply wp_between fun _ n' => (n'.peer p).myReqs = (n.peer p).myReqs.erase req
  · rw [wp_onPeer]
    unfold Peer.unlink
    split
    · simp
    · trivial
  · intro _ n₁ fewer
    apply wp_seq onPiece_peer
    intro _ n₂ same
    apply wp_mono onPiece_peer
    intro _ n₃ same'
    rw [same', same]
    exact fewer

/-- All requests for one piece are taken off a peer. -/
theorem unlinkRequests_wp :
    (Prog.forEach ((n.peer p).myReqs.filter fun req => req.msg.index = index)
      (unlinkRequest index p)).wp orderly callers
      (fun _ n' => Net.Only [index] n n' ∧
        ∀ req ∈ (n'.peer p).myReqs, req ∈ (n.peer p).myReqs ∧ req.msg.index ≠ index) n := by
  refine wp_mono (wp_forEach (fun rest n' => Net.Only [index] n n' ∧
    ((n'.peer p).myReqs.filter fun req => req.msg.index = index) = rest ∧
    ∀ req ∈ (n'.peer p).myReqs, req ∈ (n.peer p).myReqs) ?_ ⟨.rfl, rfl, fun _ mem => mem⟩) ?_
  · rintro req rest n' - ⟨only, left, fewer⟩
    apply wp_mono (wp_and_whenReturns (touches_unlinkRequest open_orderly callers n')
      unlinkRequest_myReqs)
    rintro _ n'' ⟨only', erased⟩
    refine ⟨only.trans only', ?_, ?_⟩
    · rw [erased, ← List.erase_filter, left, List.erase_cons_head]
    · intro req' mem
      rw [erased] at mem
      exact fewer req' (List.mem_of_mem_erase mem)
  · rintro _ n' ⟨only, none_, fewer⟩
    refine ⟨only, fun req mem => ⟨fewer req mem, fun here => ?_⟩⟩
    exact List.filter_eq_nil_iff.mp none_ req mem (by simpa using here)

/-- The pieces that a peer has had requests for, each of them once. -/
theorem unassignPiecesEg_wp_only (fuel : Nat) (only : Net.Only tmp n n') (distinct : tmp.Nodup)
    (inside : ∀ i ∈ tmp, i ∈ n.getlst)
    (gone : ∀ req ∈ (n'.peer p).myReqs, req.msg.index ∉ tmp) :
    (unassignPiecesEg p fuel tmp).wp orderly callers
      (fun moved n'' => Net.Only moved n n'' ∧ moved.Nodup ∧ ∀ i ∈ moved, i ∈ n.getlst) n' := by
  induction fuel generalizing n' tmp with
  | zero => exact wp_fault.mpr trivial
  | succ fuel ih =>
      unfold unassignPiecesEg
      rw [wp_bind, wp_get, wp_ite]
      split
      · exact wp_pure.mpr ⟨only, distinct, inside⟩
      split
      · exact wp_fault.mpr trivial
      · rename_i first others reqs
        have fresh : first.msg.index ∉ tmp := gone first (by rw [reqs]; exact List.mem_cons_self)
        dsimp only
        apply wp_seq (dlFindPiece_wp fun e _ => open_orderly e)
        rintro _ _ ⟨rfl, found⟩
        apply wp_seq unlinkRequests_wp
        rintro _ n₁ ⟨only₁, left⟩
        rw [only.getlst] at found
        apply ih
        · exact (only.mono fun i mem => List.mem_cons_of_mem _ mem).trans
            (only₁.mono fun i mem => List.mem_cons.mpr (.inl (List.mem_singleton.mp mem)))
        · exact List.nodup_cons.mpr ⟨fresh, distinct⟩
        · exact List.forall_mem_cons.mpr ⟨found, inside⟩
        · intro req mem here
          rcases List.mem_cons.mp here with same | before
          · exact (left req mem).2 same
          · exact gone req (left req mem).1 before

theorem keeps_dlUnassignRequestsEg : Keeps orderly Net.InEndgame (dlUnassignRequestsEg p) := by
  apply keeps_get
  intro callers n held
  apply wp_seq (unassignPiecesEg_wp_only _ .rfl List.nodup_nil (by simp) (by simp))
  rintro moved n₁ ⟨only, distinct, inside⟩
  rw [wp_bind, wp_get]
  have asserted : Touches orderly moved
      (Prog.assert ((n₁.peer p).myReqs = []) .unassignEgLeft : Routine Unit) :=
    Touches.assert open_orderly
  have settled : Touches orderly moved (onPeer p (·.onNoReqs)) := Touches.onPeer open_orderly
  apply wp_seq (asserted _ _)
  intro _ n₂ only₂
  apply wp_seq (settled _ _)
  intro _ n₃ only₃
  exact dlReinsertEg_wp held ((only.trans only₂).trans only₃) distinct inside

theorem keeps_dlOnDownload : Keeps orderly Net.InOrder (dlOnDownload t p) := by
  apply keeps_get
  intro callers n held
  rw [wp_ite]
  split
  · rename_i endgame
    exact wp_mono (keeps_dlAssignRequestsEg _ _ ⟨held, endgame⟩) fun _ _ held => held.toInOrder
  · exact keeps_dlAssignRequests _ _ held

theorem keeps_dlOnUndownload : Keeps orderly Net.InOrder (dlOnUndownload t p) := by
  apply keeps_get
  intro callers n held
  rw [wp_ite]
  split
  · rename_i normal
    exact wp_mono (keeps_dlUnassignRequests _ _ ⟨held.toListed, normal⟩)
      fun _ _ held => held.inOrder held.normal
  · rename_i endgame
    exact wp_mono (keeps_dlUnassignRequestsEg _ _ ⟨held, by simpa using endgame⟩)
      fun _ _ held => held.toInOrder

/-! ## Tested pieces -/

theorem keeps_peerGoodPiece : Keeps orderly Net.InOrder (peerGoodPiece t p index) := by
  apply keeps_call
  apply keeps_get
  intro callers n held
  rw [wp_bind, wp_ofExcept]
  cases (n.peer p).goodPiece index with
  | error e => trivial
  | ok result =>
      rw [ends_ok, wp_bind, wp_modify]
      exact keeps_when keeps_dlOnDownload _ _ (held.of_still (.setPeer _))

theorem keeps_clearOldLog {good : Nat → List UInt8} {bad : BlockLog} :
    Keeps orderly Net.InOrder (clearOldLog t index good bad) := by
  apply keeps_get
  intro callers n held
  refine keeps_forEach (fun r _ => ?_) _ _ held
  split
  · exact Prog.keeps_fault trivial
  · intro callers n held
    rw [wp_ite]
    split
    · exact keeps_still (still_netBanPeer open_orderly) _ _ held
    · exact keeps_when keeps_peerGoodPiece _ _ held

theorem keeps_pieceLogGood : Keeps orderly Net.InOrder (pieceLogGood t index) := by
  apply keeps_get
  intro callers n held
  split
  · exact wp_fault.mpr trivial
  · apply wp_seq (keeps_forEach (fun _ _ => keeps_when keeps_peerGoodPiece) _ _ held)
    intro _ n₁ held₁
    rw [wp_ite]
    split
    · exact wp_pure.mpr held₁
    · apply wp_seq (keeps_still (still_pieceLogHashes open_orderly) _ _ held₁)
      intro _ n₂ held₂
      rw [wp_bind, wp_get]
      split
      · exact wp_fault.mpr trivial
      · exact keeps_forEach (fun _ _ => keeps_clearOldLog) _ _ held₂

/-- A piece that is freed leaves the list. -/
theorem keeps_pieceFree : Keeps orderly Net.InOrder (pieceFree index) := by
  apply keeps_get
  intro callers n held
  simp only [wp_bind, wp_assert, wp_modify]
  split
  · split
    · split
      · constructor
        · constructor
          · exact held.nodup.erase index
          · intro i mem
            have other : i ≠ index := (held.nodup.mem_erase_iff.mp mem).1
            show clearBit n.busyField index i = true
            rw [clearBit, Function.update_apply, if_neg other]
            exact held.busy i (List.mem_of_mem_erase mem)
        · intro endgame
          exact (held.ordered endgame).sublist List.erase_sublist
      · trivial
    · trivial
  · trivial

theorem keeps_dlOnOkPiece : Keeps orderly Net.InOrder (dlOnOkPiece t index) := by
  apply keeps_call
  apply keeps_seq (keeps_still (still_dlFindPiece open_orderly))
  intro _
  apply keeps_get
  intro callers n held
  have told : Still orderly (Prog.forEach n.peers fun p => onPeer p fun peer =>
      if peer.pieceField index then .ok peer else peer.send (.haveMsg index)) :=
    Touches.forEach fun _ _ => Touches.onPeer open_orderly
  have unwanted : Still orderly
      (Prog.when (n.endgame = true) (Prog.forEach n.peers (peerUnwant · index))) :=
    Touches.when (Touches.forEach fun _ _ => still_peerUnwant open_orderly)
  apply wp_seq (keeps_still told _ _ held)
  intro _ n₁ held₁
  apply wp_seq (keeps_still unwanted _ _ held₁)
  intro _ n₂ held₂
  apply wp_seq (keeps_pieceLogGood _ _ held₂)
  intro _ n₃ held₃
  rw [wp_bind, wp_get]
  apply wp_seq (keeps_still still_assert _ _ held₃)
  intro _ n₄ held₄
  exact keeps_pieceFree _ _ held₄

/-- A complete piece that loses its blocks stays in order where no piece before it has a
larger share. -/
theorem ordered_of_not_behind (held : n.InEndgame) (complete : n.share index = ⊤)
    (only : Net.Only [index] n n') (fine : ¬ n'.Behind index) : n'.Ordered := by
  have ordered := held.ordered held.endgame
  have other : ∀ i, i ≠ index → n'.share i = n.share i := fun i ne =>
    only.share i (by simpa using ne)
  unfold Net.Ordered at ordered ⊢
  unfold Net.Behind at fine
  rw [only.getlst] at fine ⊢
  by_cases mem : index ∈ n.getlst
  · rcases List.append_of_mem mem with ⟨before, later, split⟩
    have nodup := held.nodup
    rw [split] at ordered fine nodup ⊢
    rcases List.nodup_append.mp nodup with ⟨-, rest, apart⟩
    have notBefore : ∀ i ∈ before, i ≠ index := fun i memI =>
      apart i memI index List.mem_cons_self
    have notLater : ∀ i ∈ later, i ≠ index := fun i memI same =>
      (List.nodup_cons.mp rest).1 (same ▸ memI)
    have front : (before ++ index :: later).takeWhile (· ≠ index) = before := by
      rw [List.takeWhile_append_of_pos (by simpa using notBefore),
        List.takeWhile_cons_of_neg (by simp), List.append_nil]
    rw [front] at fine
    rcases List.pairwise_append.mp ordered with ⟨first, second, -⟩
    rcases List.pairwise_cons.mp second with ⟨last, third⟩
    -- behind a complete piece all pieces are complete
    have tops : ∀ i ∈ later, n'.share i = ⊤ := by
      intro i memI
      rw [other i (notLater i memI)]
      exact top_le_iff.mp (complete.symm.trans_le (last i memI))
    apply List.pairwise_append.mpr
    refine ⟨?_, List.pairwise_cons.mpr ⟨?_, ?_⟩, ?_⟩
    · exact SortedBy.congr first fun i memI => other i (notBefore i memI)
    · intro i memI
      rw [tops i memI]
      exact le_top
    · exact SortedBy.congr third fun i memI => other i (notLater i memI)
    · intro i memI j memJ
      rcases List.mem_cons.mp memJ with rfl | memJ
      · exact le_of_not_gt fun larger => fine ⟨i, memI, larger⟩
      · rw [tops j memJ]
        exact le_top
  · apply ordered.congr
    intro i memI
    exact other i fun here => mem (here ▸ memI)

/-- A piece that fails its test is either behind a piece with a larger share, or the order is
kept. -/
theorem dlOnBadPiece_wp (held : n.InOrder) (complete : n.share index = ⊤) :
    (dlOnBadPiece t index).wp orderly callers (fun _ n' => n'.InOrder) n := by
  apply wp_seq (still_dlFindPiece open_orderly _ _)
  intro _ n₁ only₁
  have emptied : Touches orderly [index] (onPiece index fun pc => .ok { pc with
      downField := fun block => if block < pc.nblocks then false else pc.downField block
      ngot := 0
      nbusy := 0 }) := Touches.onPiece open_orderly List.mem_cons_self
  apply wp_seq (emptied _ _)
  intro _ n₂ only₂
  have only : Net.Only [index] n n₂ :=
    (only₁.mono fun _ mem => absurd mem List.not_mem_nil).trans only₂
  have listed := held.toListed.of_only only
  have blamed : (pieceLogBad t index).wp orderly callers (fun _ n' => n'.InOrder) n₂ := by
    by_cases behind : n₂.endgame = true ∧ n₂.Behind index
    · exact wp_call.mpr (.inl behind)
    · apply keeps_still (still_pieceLogBad open_orderly)
      refine ⟨listed, fun endgame => ?_⟩
      exact ordered_of_not_behind ⟨held, only.endgame.symm.trans endgame⟩ complete only
        fun here => behind ⟨endgame, here⟩
  apply wp_seq blamed
  intro _ n₃ held₃
  rw [wp_bind, wp_get, wp_ite]
  split
  · rename_i endgame
    refine wp_mono (keeps_forEach (fun p _ => ?_) _ _ ⟨held₃, endgame⟩)
      fun _ _ held => Net.InEndgame.toInOrder held
    apply keeps_get
    intro callers n held
    exact keeps_when keeps_dlAssignRequestsEg _ _ held
  · exact wp_mono (dlOnPieceUnfull_wp held₃.toListed) fun _ _ held => held.inOrder held.normal

theorem cmTestPiece_wp_inOrder (held : n.InOrder) (complete : n.share index = ⊤) :
    (cmTestPiece t index).wp orderly callers (fun _ n' => n'.InOrder) n := by
  have same : ∀ cm : Content, Net.Only [] n { n with cm := cm } := fun _ =>
    ⟨rfl, rfl, rfl, fun _ _ => rfl⟩
  unfold cmTestPiece
  rw [wp_bind, wp_get]
  dsimp only
  rw [wp_ite]
  split
  · rw [wp_bind, wp_assert]
    split
    · rw [wp_bind, wp_modify]
      exact keeps_dlOnOkPiece _ _ (held.of_still (same _))
    · trivial
  · rw [wp_bind, wp_modify]
    exact dlOnBadPiece_wp (held.of_still (same _)) complete

/-! ## Blocks -/

/-- The piece that a block has come for goes to its new place. -/
theorem dlPieceReorderEg_wp (held : n.InEndgame) (only : Net.Only [index] n n')
    (mem : index ∈ n.getlst) :
    (dlPieceReorderEg index).wp orderly callers (fun _ n'' => n''.InEndgame) n' := by
  have erased : n'.getlst.erase index = n'.getlst.filter (· ∉ [index]) := by
    rw [only.getlst, held.nodup.erase_eq_filter]
    apply List.filter_congr
    intro i _
    by_cases same : i = index
    · simp [same]
    · simp [same]
  have put : (dlReinsertEg [index]).wp orderly callers (fun _ n'' => n''.InEndgame) n' := by
    apply dlReinsertEg_wp held only
    · simp
    · intro i memI
      rw [List.mem_singleton.mp memI]
      exact mem
  unfold dlReinsertEg at put
  unfold dlPieceReorderEg
  rw [wp_bind, wp_modify] at put ⊢
  rw [erased]
  unfold Prog.forEach at put
  rw [wp_bind] at put
  exact wp_mono put fun _ _ held => wp_pure.mp held

theorem keeps_dropRequests {begin : Nat} (fuel : Nat) (req : Option BlockRequest) :
    Keeps orderly Net.InEndgame (dropRequests t index begin fuel req) := by
  induction fuel generalizing req with
  | zero =>
      cases req with
      | none => exact keeps_pure
      | some req => exact Prog.keeps_fault trivial
  | succ fuel ih =>
      cases req with
      | none => exact keeps_pure
      | some req =>
          apply keeps_get
          intro callers n held
          apply keeps_seq (keeps_when _) (fun _ => ih _) callers n held
          apply keeps_seq (keeps_still_endgame (still_unlinkPiece open_orderly))
          intro _
          apply keeps_get
          intro callers n held
          apply wp_seq (keeps_still_endgame still_assert _ _ held)
          intro _ n₁ held₁
          exact keeps_when keeps_dlAssignRequestsEg _ _ held₁

theorem share_of_complete (complete : (n.piece index).ngot = (n.piece index).nblocks) :
    n.share index = ⊤ :=
  if_pos complete.symm

theorem keeps_dlOnBlock {req : BlockRequest} {begin length : Nat} {data : List UInt8} :
    Keeps orderly Net.InOrder (dlOnBlock t p req index begin length data) := by
  intro callers n held
  apply wp_seq (dlFindPiece_wp fun e _ => open_orderly e)
  rintro _ _ ⟨rfl, found⟩
  have logged : Still orderly (pieceLogBlock index p begin) := still_onFirstLog open_orderly
  have counted : Touches orderly [index]
      (onPiece index fun pc => .ok { pc with ngot := pc.ngot + 1 }) :=
    Touches.onPiece open_orderly List.mem_cons_self
  apply wp_seq (Touches.of_still logged callers _)
  intro _ n₁ only₁
  apply wp_seq (Touches.of_still (still_cmPutBytes open_orderly) callers n₁)
  intro _ n₂ only₂
  apply wp_seq (counted callers n₂)
  intro _ n₃ only₃
  have only := (only₁.trans only₂).trans only₃
  rw [wp_bind, wp_get, wp_ite]
  split
  · rename_i endgame
    have cancelled : Touches orderly [index] (Prog.forEach (n₃.piece index).reqs
        (cancelOthers index p begin length)) :=
      Touches.forEach fun _ _ => touches_cancelOthers open_orderly
    dsimp only
    apply wp_seq (cancelled _ _)
    intro _ n₄ only₄
    apply wp_seq (dlPieceReorderEg_wp ⟨held, only.endgame.symm.trans endgame⟩
      (only.trans only₄) found)
    intro _ n₅ held₅
    apply wp_seq (keeps_dropRequests _ _ _ _ held₅)
    intro _ n₆ held₆
    rw [wp_bind, wp_get, wp_when]
    split
    · rename_i complete
      exact cmTestPiece_wp_inOrder held₆.toInOrder (share_of_complete complete)
    · exact held₆.toInOrder
  · rename_i normal
    have held₃ : n₃.InNormal := ⟨held.toListed.of_only only, Bool.eq_false_iff.mpr normal⟩
    apply wp_seq (keeps_touches_normal (still_unlinkPiece open_orderly) _ _ held₃)
    intro _ n₄ held₄
    have freed : Touches orderly [index] (onPiece index fun pc => .ok { pc with
        nreqs := pc.nreqs - 1
        downField := clearBit pc.downField (begin / pieceBlocklen)
        nbusy := pc.nbusy - 1 }) := Touches.onPiece open_orderly List.mem_cons_self
    apply wp_seq (keeps_touches_normal freed _ _ held₄)
    intro _ n₅ held₅
    rw [wp_bind, wp_get]
    apply wp_between fun _ n' => Net.InOrder n'
    · rw [wp_when]
      split
      · rename_i complete
        exact cmTestPiece_wp_inOrder (held₅.inOrder held₅.normal) (share_of_complete complete)
      · exact held₅.inOrder held₅.normal
    · intro _ n₆ held₆
      rw [wp_bind, wp_get]
      exact keeps_when keeps_dlAssignRequests _ _ held₆

/-! ## Announcements and events -/

theorem keeps_dlOnPieceAnn : Keeps orderly Net.InOrder (dlOnPieceAnn t p index) := by
  apply keeps_call
  apply keeps_seq (keeps_still still_assert)
  intro _
  have counted : Still orderly (Prog.modify fun n : Net => { n with
      pieceCount := Function.update n.pieceCount index (n.pieceCount index + 1) }) :=
    .modify fun _ => ⟨rfl, rfl, rfl, fun _ _ => rfl⟩
  apply keeps_seq (keeps_still counted)
  intro _
  apply keeps_get
  intro callers n held
  rw [wp_ite]
  split
  · exact wp_pure.mpr held
  rw [wp_ite]
  split
  · rename_i endgame
    have held' : n.InEndgame := ⟨held, endgame⟩
    apply wp_seq (keeps_still_endgame still_assert _ _ held')
    intro _ n₁ held₁
    apply wp_seq (keeps_still_endgame (still_peerWant open_orderly) _ _ held₁)
    intro _ n₂ held₂
    rw [wp_bind, wp_get]
    exact wp_mono (keeps_when keeps_dlAssignRequestsEg _ _ held₂)
      fun _ _ held => Net.InEndgame.toInOrder held
  rename_i normal
  have held' : n.InNormal := held.normal normal
  rw [wp_ite]
  split
  · apply wp_seq (keeps_touches_normal (still_peerWant open_orderly) _ _ held')
    intro _ n₁ held₁
    rw [wp_bind, wp_get, wp_when]
    split
    · apply wp_seq (dlNewPiece_wp held₁)
      intro _ n₂ held₂
      exact wp_mono (dlPieceAssignRequests_wp_settled held₂) fun _ _ settled => settled.1
    · exact held₁.inOrder held₁.normal
  rw [wp_ite]
  split
  · apply wp_seq (keeps_touches_normal (still_peerWant open_orderly) _ _ held')
    intro _ n₁ held₁
    rw [wp_bind, wp_get, wp_when]
    split
    · exact wp_mono (dlPieceAssignRequests_wp_settled held₁) fun _ _ settled => settled.1
    · exact held₁.inOrder held₁.normal
  · exact wp_pure.mpr held

theorem keeps_onPeer {f : Peer → Except Fault Peer} : Keeps orderly Net.InOrder (onPeer p f) :=
  keeps_still (Touches.onPeer open_orderly)

theorem keeps_peerKill : Keeps orderly Net.InOrder (peerKill t p) := by
  have erased : Still orderly (Prog.modify fun n : Net => { n with peers := n.peers.erase p }) :=
    .modify fun _ => ⟨rfl, rfl, rfl, fun _ _ => rfl⟩
  have counted : Still orderly (Prog.modify fun n : Net => { n with
      pieceCount := fun i =>
        if i < t.npieces ∧ (n.peer p).pieceField i = true then n.pieceCount i - 1
        else n.pieceCount i }) :=
    .modify fun _ => ⟨rfl, rfl, rfl, fun _ _ => rfl⟩
  apply keeps_seq (keeps_still erased)
  intro _
  apply keeps_seq (keeps_still counted)
  intro _
  apply keeps_get
  intro callers n held
  exact keeps_when keeps_dlOnUndownload _ _ held

theorem keeps_peerOnChoke : Keeps orderly Net.InOrder (peerOnChoke t p) := by
  apply keeps_get
  intro callers n held
  rw [wp_ite]
  split
  · exact wp_pure.mpr held
  · apply wp_seq (keeps_onPeer _ _ held)
    intro _ n₁ held₁
    apply wp_between fun _ n' => Net.InOrder n'
    · exact keeps_get (fun _ _ held => keeps_when keeps_dlOnUndownload _ _ held) _ _ held₁
    · intro _ n₂ held₂
      exact keeps_onPeer _ _ held₂

theorem keeps_peerOnUnchoke : Keeps orderly Net.InOrder (peerOnUnchoke t p) := by
  apply keeps_get
  intro callers n held
  rw [wp_ite]
  split
  · apply wp_seq (keeps_onPeer _ _ held)
    intro _ n₁ held₁
    exact keeps_get (fun _ _ held => keeps_when keeps_dlOnDownload _ _ held) _ _ held₁
  · exact wp_pure.mpr held

theorem keeps_peerOnHave : Keeps orderly Net.InOrder (peerOnHave t p index) := by
  apply keeps_call
  apply keeps_seq (keeps_still still_assert)
  intro _
  apply keeps_get
  intro callers n held
  rw [wp_ite]
  split
  · exact wp_pure.mpr held
  · exact keeps_seq keeps_onPeer (fun _ => keeps_dlOnPieceAnn) _ _ held

theorem keeps_peerOnBitfield {field : Nat → Bool} :
    Keeps orderly Net.InOrder (peerOnBitfield t p field) := by
  apply keeps_call
  apply keeps_get
  intro callers n held
  apply keeps_seq (keeps_still still_assert) _ _ n held
  intro _
  apply keeps_seq keeps_onPeer
  intro _
  apply keeps_forEach
  intro i _
  apply keeps_get
  intro callers n held
  exact keeps_when (keeps_seq keeps_onPeer fun _ => keeps_dlOnPieceAnn) _ _ held

theorem keeps_peerOnPiece {begin : Nat} {data : List UInt8} :
    Keeps orderly Net.InOrder (peerOnPiece t p index begin data) := by
  apply keeps_get
  intro callers n held
  dsimp only
  split
  · exact wp_pure.mpr held
  · apply keeps_seq (keeps_still still_assert) _ _ n held
    intro _
    apply keeps_seq keeps_onPeer
    intro _
    exact keeps_seq keeps_onPeer fun _ => keeps_dlOnBlock

theorem keeps_netOnRequest {begin length : Nat} :
    Keeps orderly Net.InOrder (netOnRequest t p index begin length) := by
  apply keeps_get
  intro callers n held
  rw [wp_ite]
  split
  · rw [wp_ite]
    split
    · exact keeps_peerKill _ _ held
    · exact keeps_call keeps_onPeer _ _ held
  · exact wp_pure.mpr held

theorem keeps_netWrite {wmax nwritten : Nat} :
    Keeps orderly Net.InOrder (netWrite t p wmax nwritten) := by
  apply keeps_get
  intro callers n held
  rw [wp_bind, wp_ofExcept]
  cases (n.peer p).netWrite (n.cm.readBlock t) (NetBuf.bytes t n.cm.pieceField) wmax nwritten with
  | error e => trivial
  | ok result =>
      rw [ends_ok, wp_modify]
      exact held.of_still ⟨rfl, rfl, rfl, fun _ _ => rfl⟩

theorem keeps_torrentOnTick : Keeps orderly Net.InOrder (torrentOnTick t) := by
  apply keeps_get
  intro callers n held
  rw [wp_ite]
  split
  · have seeding : Still orderly (Prog.modify fun n : Net => { n with seed := true }) :=
      .modify fun _ => ⟨rfl, rfl, rfl, fun _ _ => rfl⟩
    apply wp_seq (keeps_still seeding _ _ held)
    intro _ n₁ held₁
    refine keeps_forEach (fun p _ => ?_) _ _ held₁
    apply keeps_get
    intro callers n held
    exact keeps_seq (keeps_still still_assert) (fun _ => keeps_when keeps_peerKill) _ _ held
  · exact wp_pure.mpr held

theorem keeps_peerOnShake {unwritten : Option (Fin 68)} :
    Keeps orderly Net.InOrder (peerOnShake t unwritten) := by
  apply keeps_get
  intro callers n held
  rw [wp_bind, wp_ofExcept]
  cases Peer.onShake t n unwritten with
  | error e => trivial
  | ok peer =>
      rw [ends_ok, wp_modify]
      exact held.of_still ⟨rfl, rfl, rfl, fun _ _ => rfl⟩

theorem keeps_ifAttached {m : Routine Unit} (kept : Keeps orderly Net.InOrder m) :
    Keeps orderly Net.InOrder (ifAttached p m) := by
  apply keeps_get
  intro callers n held
  rw [wp_ite]
  split
  · exact kept _ _ held
  · exact wp_pure.mpr held

/-- Every event keeps the list in order, as long as nothing disturbs it. -/
theorem keeps_handle (e : Event) : Keeps orderly Net.InOrder (handle t e) := by
  cases e with
  | shake unwritten => exact keeps_peerOnShake
  | kill p => exact keeps_ifAttached keeps_peerKill
  | choke p => exact keeps_ifAttached keeps_peerOnChoke
  | unchoke p => exact keeps_ifAttached keeps_peerOnUnchoke
  | interest p => exact keeps_ifAttached keeps_onPeer
  | uninterest p => exact keeps_ifAttached keeps_onPeer
  | haveMsg p index => exact keeps_ifAttached keeps_peerOnHave
  | bitfield p field =>
      apply keeps_ifAttached
      apply keeps_get
      intro callers n held
      rw [wp_ite]
      split
      · exact keeps_peerOnBitfield _ _ held
      · exact keeps_peerKill _ _ held
  | request p index begin length => exact keeps_ifAttached keeps_netOnRequest
  | cancel p index begin length => exact keeps_ifAttached keeps_onPeer
  | piece p index begin data => exact keeps_ifAttached keeps_peerOnPiece
  | write p wmax nwritten => exact keeps_ifAttached keeps_netWrite
  | keepalive p => exact keeps_ifAttached keeps_onPeer
  | ulChoke p => exact keeps_ifAttached keeps_onPeer
  | ulUnchoke p => exact keeps_ifAttached keeps_onPeer
  | tick => exact keeps_torrentOnTick

/-- In a run that nothing disturbs the list is in order. -/
theorem inOrder_of_reachable (reached : (system t).Reachable disturbs n) : n.InOrder := by
  apply reached.invariant Net.InOrder (fun _ => True)
  · rintro n ⟨pieceField, blockField, data, rfl⟩
    apply Net.Listed.inOrder
    · exact ⟨List.nodup_nil, fun i mem => absurd mem List.not_mem_nil⟩
    · rfl
  · intro n e _ held
    exact keeps_handle e [] n held

end Btpd.Download
