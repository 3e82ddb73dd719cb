import Btpd.Download.Invariant

/-!
# Invariants of the whole download code

`RoutineKept` adds to `AssignKept` what the rest of the download code does to
peers.  Between taking a request off a peer and settling whether any is left, a
weaker condition `loose` holds of that peer; and between verifying a piece and
telling the peers about it, `announcing` holds for the peers still to be told.
Every routine of the download keeps such an invariant.
-/

namespace Btpd.Download

open Prog

/-- The state after a piece has been verified. -/
def Net.verified (n : Net) (piece : Nat) : Net :=
  { n with
    cm.npiecesGot := n.cm.npiecesGot + 1
    cm.pieceField := setBit n.cm.pieceField piece }

/-- The invariant is kept when requests are assigned and cancelled. -/
structure RequestKept (t : Torrent) (k : Contract Net Fn Fault) (inv : Net → Prop) : Prop
    extends AssignKept t k inv where
  cancel : ∀ {n} p req index begin length, inv n →
    Ends k.allowed ((n.peer p).cancel req (.cancel index begin length))
      fun peer => inv (n.setPeer p peer)

/-- The invariant is kept by what the routines of the download do to peers. -/
structure RoutineKept (t : Torrent) (k : Contract Net Fn Fault) (inv : Net → Prop)
    (loose : Nat → Net → Prop) (announcing : Nat → List Nat → Net → Prop) : Prop
    extends RequestKept t k inv where
  looseInside : ∀ {p n}, loose p n → n.Inside t
  looseFrame : ∀ {p} {n n' : Net}, loose p n → Net.Framed t n n' → loose p n'
  loosen : ∀ p {n}, inv n → loose p n
  unlink : ∀ {n p} req, loose p n →
    Ends k.allowed ((n.peer p).unlink req) fun peer => loose p (n.setPeer p peer)
  tighten : ∀ {n p}, loose p n →
    Ends k.allowed (n.peer p).checkNoReqs fun peer => inv (n.setPeer p peer)
  badPiece : ∀ {n} p index, inv n →
    Ends k.allowed ((n.peer p).badPiece index) fun peer => inv (n.setPeer p peer)
  goodPiece : ∀ callers n p index, inv n → k.bad ⟨.peerGoodPiece p index, callers, n⟩ ∨
    Ends k.allowed ((n.peer p).goodPiece index) fun result => inv (n.setPeer p result.2)
  ban : ∀ {n} p, inv n → inv (n.setPeer p { n.peer p with banned := true })
  verify : ∀ {n} piece, inv n → piece < t.npieces → n.cm.pieceField piece = false →
    n.cm.npiecesGot < t.npieces → announcing piece n.peers (n.verified piece)
  announce : ∀ {n} piece p rest, announcing piece (p :: rest) n →
    Ends k.allowed
      (if (n.peer p).pieceField piece then .ok (n.peer p) else (n.peer p).send (.haveMsg piece))
      fun peer => announcing piece rest (n.setPeer p peer)
  announced : ∀ {n} piece, announcing piece [] n → inv n

variable {t : Torrent} {k : Contract Net Fn Fault} {inv : Net → Prop} {loose : Nat → Net → Prop}
  {announcing : Nat → List Nat → Net → Prop} {n : Net} {callers : List Fn} {p index : Nat}

/-! ## Quiet routines -/

section Quiet

variable (control : ∀ e ∈ controlFaults, k.allowed e)

include control

theorem quiet_onFirstLog {f : BlockLog → BlockLog} : Quiet t k (onFirstLog index f) := by
  refine .onPiece fun pc => ?_
  split
  · exact control _ (by decide)
  · trivial

theorem quiet_pieceLogHashes : Quiet t k (pieceLogHashes t index) :=
  .get fun callers n => quiet_onFirstLog control callers n

theorem quiet_cmFillZeros {start : Nat} : Quiet t k (cmFillZeros t start) := by
  refine .get fun callers n => ?_
  rw [wp_ite]
  split
  · exact wp_pure.mpr .rfl
  · simp only [wp_bind, wp_assert, wp_modify]
    split
    · exact ⟨by simp [Net.outer], id⟩
    · exact control _ (by decide)

theorem quiet_cmAllocate : Quiet t k (cmAllocate t index) := by
  unfold cmAllocate
  dsimp only
  exact .seq (.assert (control _ (by decide))) fun _ =>
    .forEach fun _ _ => quiet_cmFillZeros control

/-- Blocks are stored only for a piece that is not verified yet. -/
theorem cmPutBytes_wp {begin : Nat} {buf : List UInt8} :
    (cmPutBytes t index begin buf).wp k callers
      (fun _ n' => Net.Framed t n n' ∧ n'.cm.pieceField index = false) n := by
  unfold cmPutBytes
  rw [wp_bind, wp_get, wp_bind, wp_assert]
  split
  · rw [wp_bind, wp_assert]
    split
    · rename_i unverified
      refine wp_seq (Quiet.when (quiet_cmAllocate control) callers n) fun _ n' framed => ?_
      rw [wp_bind, wp_modify, wp_modify]
      refine ⟨framed.trans ⟨by simp [Net.outer], id⟩, ?_⟩
      rw [← unverified, ← Net.cm_of_outer framed.outer]
      exact congrFun Content.write_pieceField index
    · exact control _ (by decide)
  · exact control _ (by decide)

end Quiet

/-! ## Requests in end game -/

namespace RequestKept

/-- An invariant that looks at no peer is kept along with another one. -/
theorem and (kept : RequestKept t k inv) (also : Net → Prop)
    (framed : ∀ {n n'}, also n → Net.Framed t n n' → also n')
    (setPeer : ∀ {n} p peer, also n → also (n.setPeer p peer)) :
    RequestKept t k fun n => inv n ∧ also n where
  toAssignKept := kept.toAssignKept.and framed setPeer
  cancel p req index begin length held :=
    ends_mono (kept.cancel p req index begin length held.1)
      fun _ held' => ⟨held', setPeer _ _ held.2⟩

variable (kept : RequestKept t k inv)

include kept

theorem keeps_cancelOthers {begin length : Nat} {req : BlockRequest} :
    Keeps k inv (cancelOthers index p begin length req) := by
  refine keeps_when (keeps_seq (keeps_when fun callers n held => ?_) fun _ =>
    kept.keeps_quiet (quiet_onPiece_ok _))
  rw [wp_onPeer]
  exact kept.cancel _ _ _ _ _ held

theorem keeps_dropRequest {req : BlockRequest} : Keeps k inv (dropRequest t index req) := by
  refine keeps_seq (kept.keeps_quiet (quiet_unlinkPiece kept.control)) fun _ => ?_
  refine keeps_get fun callers n held => ?_
  refine wp_seq (kept.keeps_assert (by decide) _ _ held) fun _ n₁ held => ?_
  exact keeps_when kept.keeps_dlAssignRequestsEg _ _ held

theorem keeps_dropRequests {begin : Nat} (fuel : Nat) (req : Option BlockRequest) :
    Keeps k inv (dropRequests t index begin fuel req) := by
  induction fuel generalizing req with
  | zero =>
      cases req with
      | none => exact keeps_pure
      | some req => exact Prog.keeps_fault (kept.control _ (by decide))
  | succ fuel ih =>
      cases req with
      | none => exact keeps_pure
      | some req =>
          refine keeps_get fun callers n held => ?_
          exact wp_seq (keeps_when kept.keeps_dropRequest _ _ held) fun _ n₁ held => ih _ _ _ held

end RequestKept

namespace RoutineKept

/-- An invariant that looks at no peer is kept along with another one. -/
theorem and {also : Net → Prop} (kept : RoutineKept t k inv loose announcing)
    (framed : ∀ {n n'}, also n → Net.Framed t n n' → also n')
    (setPeer : ∀ {n} p peer, also n → also (n.setPeer p peer))
    (verified : ∀ {n} piece, also n → also (n.verified piece)) :
    RoutineKept t k (fun n => inv n ∧ also n) (fun p n => loose p n ∧ also n)
      (fun piece rest n => announcing piece rest n ∧ also n) where
  toRequestKept := kept.toRequestKept.and also framed setPeer
  looseInside held := kept.looseInside held.1
  looseFrame held same := ⟨kept.looseFrame held.1 same, framed held.2 same⟩
  loosen p _ held := ⟨kept.loosen p held.1, held.2⟩
  unlink req held := ends_mono (kept.unlink req held.1) fun _ held' => ⟨held', setPeer _ _ held.2⟩
  tighten held := ends_mono (kept.tighten held.1) fun _ held' => ⟨held', setPeer _ _ held.2⟩
  badPiece p index held :=
    ends_mono (kept.badPiece p index held.1) fun _ held' => ⟨held', setPeer _ _ held.2⟩
  goodPiece callers n p index held :=
    (kept.goodPiece callers n p index held.1).imp_right fun ended =>
      ends_mono ended fun _ held' => ⟨held', setPeer _ _ held.2⟩
  ban p held := ⟨kept.ban p held.1, setPeer _ _ held.2⟩
  verify piece held inside unverified notFull :=
    ⟨kept.verify piece held.1 inside unverified notFull, verified piece held.2⟩
  announce piece p rest held :=
    ends_mono (kept.announce piece p rest held.1) fun _ held' => ⟨held', setPeer _ _ held.2⟩
  announced piece held := ⟨kept.announced piece held.1, held.2⟩

variable (kept : RoutineKept t k inv loose announcing)

include kept

theorem loose_of_quiet {α : Type} {m : Routine α} (quiet : Quiet t k m) : Keeps k (loose p) m :=
  fun callers n held => wp_mono (quiet callers n) fun _ _ same => kept.looseFrame held same

/-! ## Losing requests -/

theorem loose_unlinkRequest {req : BlockRequest} :
    Keeps k (loose p) (unlinkRequest index p req) := by
  refine keeps_seq (fun callers n held => ?_) fun _ => ?_
  · rw [wp_onPeer]
    exact kept.unlink req held
  · exact keeps_seq (kept.loose_of_quiet (quiet_unlinkPiece kept.control)) fun _ =>
      kept.loose_of_quiet (quiet_onPiece_ok _)

theorem loose_unassignRequest {req : BlockRequest} :
    Keeps k (loose p) (unassignRequest index p req) := by
  refine keeps_get fun callers n held => ?_
  refine wp_seq (Prog.keeps_assert (kept.control _ (by decide)) _ _ held) fun _ n₁ held => ?_
  refine wp_seq (kept.loose_of_quiet (quiet_onPiece_ok _) _ _ held) fun _ n₂ held => ?_
  exact kept.loose_unlinkRequest _ _ held

theorem checkNoReqs_wp (held : loose p n) :
    (onPeer p (·.checkNoReqs)).wp k callers (fun _ n' => inv n') n := by
  rw [wp_onPeer]
  exact kept.tighten held

theorem keeps_unassignPieces (fuel : Nat) : Keeps k inv (unassignPieces t p fuel) := by
  induction fuel with
  | zero => exact Prog.keeps_fault (kept.control _ (by decide))
  | succ fuel ih =>
      refine keeps_get fun callers n held => ?_
      rw [wp_ite]
      split
      · exact wp_pure.mpr held
      split
      · exact wp_fault.mpr (kept.control _ (by decide))
      · refine wp_seq (kept.keeps_quiet (quiet_dlFindPiece kept.control) _ _ held)
          fun pc n₁ held => ?_
        refine wp_seq (keeps_forEach (fun _ _ => kept.loose_unassignRequest) _ _
          (kept.loosen p held)) fun _ n₂ held => ?_
        refine wp_seq (kept.checkNoReqs_wp held) fun _ n₃ held => ?_
        refine keeps_get (fun callers n held => ?_) _ _ held
        exact wp_seq (keeps_when kept.keeps_dlOnPieceUnfull _ _ held)
          fun _ n₄ held => ih _ _ held

theorem keeps_dlUnassignRequests : Keeps k inv (dlUnassignRequests t p) := by
  refine keeps_get fun callers n held => ?_
  refine wp_seq (kept.keeps_unassignPieces _ _ _ held) fun _ n₁ held => ?_
  exact keeps_get (fun callers n held => kept.keeps_assert (by decide) _ _ held) _ _ held

theorem unassignPiecesEg_wp {tmp : List Nat} (fuel : Nat) (held : loose p n)
    (tmpInside : ∀ i ∈ tmp, i < t.npieces) :
    (unassignPiecesEg p fuel tmp).wp k callers
      (fun moved n' => loose p n' ∧ (n'.peer p).nreqsOut = 0 ∧ ∀ i ∈ moved, i < t.npieces) n := by
  induction fuel generalizing n tmp with
  | zero => exact wp_fault.mpr (kept.control _ (by decide))
  | succ fuel ih =>
      unfold unassignPiecesEg
      rw [wp_bind, wp_get, wp_ite]
      split
      · rename_i none
        exact wp_pure.mpr ⟨held, none, tmpInside⟩
      split
      · exact wp_fault.mpr (kept.control _ (by decide))
      · refine wp_seq (dlFindPiece_wp kept.control) ?_
        rintro _ _ ⟨rfl, found⟩
        refine wp_seq (keeps_forEach (fun _ _ => kept.loose_unlinkRequest) _ _ held)
          fun _ n₂ held' => ?_
        exact ih held' (List.forall_mem_cons.mpr ⟨kept.looseInside held _ found, tmpInside⟩)

theorem keeps_dlUnassignRequestsEg : Keeps k inv (dlUnassignRequestsEg p) := by
  refine keeps_get fun callers n held => ?_
  refine wp_seq (kept.unassignPiecesEg_wp _ (kept.loosen p held) (by simp)) ?_
  rintro tmp n₁ ⟨held, none, tmpInside⟩
  rw [wp_bind, wp_get, wp_bind, wp_assert]
  split
  · refine wp_between (fun _ n' => inv n') ?_ fun _ n₂ held =>
      kept.keeps_quiet (quiet_dlReinsertEg tmpInside) _ _ held
    have settled := kept.tighten held
    rw [Peer.checkNoReqs, if_pos none] at settled
    rw [wp_onPeer]
    exact settled
  · exact kept.control _ (by decide)

theorem keeps_dlOnDownload : Keeps k inv (dlOnDownload t p) := by
  refine keeps_get fun callers n held => ?_
  rw [wp_ite]
  split
  · exact kept.keeps_dlAssignRequestsEg _ _ held
  · exact kept.keeps_dlAssignRequests _ _ held

theorem keeps_dlOnUndownload : Keeps k inv (dlOnUndownload t p) := by
  refine keeps_get fun callers n held => ?_
  rw [wp_ite]
  split
  · exact kept.keeps_dlUnassignRequests _ _ held
  · exact kept.keeps_dlUnassignRequestsEg _ _ held

/-! ## Block logs -/

theorem keeps_peerGoodPiece : Keeps k inv (peerGoodPiece t p index) := by
  intro callers n held
  refine wp_call.mpr ((kept.goodPiece callers n p index held).imp_right fun ended => ?_)
  rw [wp_bind, wp_get, wp_bind, wp_ofExcept]
  refine ends_mono ended fun result held => ?_
  rw [wp_bind, wp_modify]
  exact keeps_when kept.keeps_dlOnDownload _ _ held

theorem keeps_netBanPeer : Keeps k inv (netBanPeer p) := by
  intro callers n held
  unfold netBanPeer
  rw [wp_onPeer]
  exact kept.ban p held

theorem keeps_badPiece : Keeps k inv (onPeer p (·.badPiece index)) := by
  intro callers n held
  rw [wp_onPeer]
  exact kept.badPiece p index held

theorem keeps_pieceLogSuspect {r : LogRecord} : Keeps k inv (pieceLogSuspect index r) := by
  refine keeps_get fun callers n held => ?_
  refine keeps_when ?_ _ _ held
  exact keeps_seq (keeps_when kept.keeps_peerUnwant) fun _ => kept.keeps_badPiece

theorem keeps_pieceLogBlame {log : BlockLog} {logs : List BlockLog} :
    Keeps k inv (pieceLogBlame t index log logs) := by
  refine keeps_get fun callers n held => ?_
  split
  · refine wp_seq (keeps_when kept.keeps_peerUnwant _ _ held) fun _ n₁ held => ?_
    refine wp_seq (kept.keeps_netBanPeer _ _ held) fun _ n₂ held => ?_
    exact kept.keeps_quiet (quiet_onPiece_ok _) _ _ held
  · refine wp_seq (keeps_forEach (fun _ _ => kept.keeps_pieceLogSuspect) _ _ held)
      fun _ n₁ held => ?_
    exact kept.keeps_quiet (quiet_pieceLogHashes kept.control) _ _ held

theorem keeps_pieceLogBad : Keeps k inv (pieceLogBad t index) := by
  refine keeps_call (keeps_get fun callers n held => ?_)
  split
  · exact wp_fault.mpr (kept.control _ (by decide))
  · refine wp_seq (kept.keeps_assert (by decide) _ _ held) fun _ n₁ held => ?_
    refine wp_seq (kept.keeps_pieceLogBlame _ _ held) fun _ n₂ held => ?_
    exact kept.keeps_quiet (quiet_onPiece_ok _) _ _ held

theorem keeps_clearOldLog {good : Nat → List UInt8} {bad : BlockLog} :
    Keeps k inv (clearOldLog t index good bad) := by
  refine keeps_get fun callers n held => ?_
  refine keeps_forEach (fun r _ => ?_) _ _ held
  split
  · exact Prog.keeps_fault (kept.control _ (by decide))
  · intro callers n held
    rw [wp_ite]
    split
    · exact kept.keeps_netBanPeer _ _ held
    · exact keeps_when kept.keeps_peerGoodPiece _ _ held

theorem keeps_pieceLogGood : Keeps k inv (pieceLogGood t index) := by
  refine keeps_get fun callers n held => ?_
  split
  · exact wp_fault.mpr (kept.control _ (by decide))
  · refine wp_seq (keeps_forEach (fun _ _ => keeps_when kept.keeps_peerGoodPiece) _ _ held)
      fun _ n₁ held => ?_
    rw [wp_ite]
    split
    · exact wp_pure.mpr held
    · refine wp_seq (kept.keeps_quiet (quiet_pieceLogHashes kept.control) _ _ held)
        fun _ n₂ held => ?_
      refine keeps_get (fun callers n held => ?_) _ _ held
      split
      · exact wp_fault.mpr (kept.control _ (by decide))
      · exact keeps_forEach (fun _ _ => kept.keeps_clearOldLog) _ _ held

/-! ## Tested pieces and blocks -/

theorem dlOnOkPiece_wp (held : announcing index n.peers n) :
    (dlOnOkPiece t index).wp k callers (fun _ n' => inv n') n := by
  refine wp_call.mpr (.inr ?_)
  refine wp_seq (dlFindPiece_wp kept.control) ?_
  rintro _ _ ⟨rfl, -⟩
  rw [wp_bind, wp_get]
  refine wp_seq (wp_forEach (announcing index) (fun p rest n _ held => ?_) held)
    fun _ n₁ held => ?_
  · rw [wp_onPeer]
    exact kept.announce index p rest held
  replace held := kept.announced index held
  refine wp_seq (keeps_when (keeps_forEach fun _ _ => kept.keeps_peerUnwant) _ _ held)
    fun _ n₂ held => ?_
  refine wp_seq (kept.keeps_pieceLogGood _ _ held) fun _ n₃ held => ?_
  refine keeps_get (fun callers n held => ?_) _ _ held
  refine wp_seq (kept.keeps_assert (by decide) _ _ held) fun _ n₄ held => ?_
  exact kept.keeps_quiet (quiet_pieceFree kept.control) _ _ held

theorem keeps_dlOnBadPiece : Keeps k inv (dlOnBadPiece t index) := by
  refine keeps_seq (kept.keeps_quiet (quiet_dlFindPiece kept.control)) fun _ => ?_
  refine keeps_seq (kept.keeps_quiet (quiet_onPiece_ok _)) fun _ => ?_
  refine keeps_seq kept.keeps_pieceLogBad fun _ => ?_
  refine keeps_get fun callers n held => ?_
  rw [wp_ite]
  split
  · refine keeps_forEach (fun p _ => ?_) _ _ held
    exact keeps_get fun callers n held =>
      keeps_when kept.keeps_dlAssignRequestsEg _ _ held
  · exact kept.keeps_dlOnPieceUnfull _ _ held

theorem cmTestPiece_wp (held : inv n) (inside : index < t.npieces)
    (unverified : n.cm.pieceField index = false) :
    (cmTestPiece t index).wp k callers (fun _ n' => inv n') n := by
  unfold cmTestPiece
  rw [wp_bind, wp_get]
  dsimp only
  rw [wp_ite]
  split
  · rw [wp_bind, wp_assert]
    split
    · rename_i notFull
      rw [wp_bind, wp_modify]
      exact kept.dlOnOkPiece_wp (kept.verify index held inside unverified notFull)
    · exact kept.control _ (by decide)
  · rw [wp_bind, wp_modify]
    exact kept.keeps_dlOnBadPiece _ _ (kept.frame held ⟨rfl, id⟩)

theorem keeps_dlOnBlock {req : BlockRequest} {begin length : Nat} {data : List UInt8} :
    Keeps k inv (dlOnBlock t p req index begin length data) := by
  intro callers n held
  refine wp_seq (dlFindPiece_wp kept.control) ?_
  rintro _ _ ⟨rfl, found⟩
  have inside : index < t.npieces := kept.inside held index found
  refine wp_seq (kept.keeps_quiet (quiet_onFirstLog kept.control) _ _ held) fun _ n₁ held => ?_
  refine wp_seq (cmPutBytes_wp kept.control) ?_
  rintro _ n₂ ⟨framed, unverified⟩
  -- until the piece is tested it stays unverified
  have kept' := kept.toRequestKept.and (fun n => n.cm.pieceField index = false)
    (fun unverified framed => (congrFun (Net.cm_of_outer framed.outer) _).trans unverified)
    fun _ _ unverified => unverified
  have held' := And.intro (kept.frame held framed) unverified
  refine wp_seq (kept'.keeps_quiet (quiet_onPiece_ok _) _ _ held') fun _ n₃ held => ?_
  rw [wp_bind, wp_get, wp_ite]
  split
  · refine wp_seq (keeps_forEach (fun _ _ => kept'.keeps_cancelOthers) _ _ held)
      fun _ n₄ held => ?_
    refine wp_seq (kept'.keeps_quiet (quiet_dlPieceReorderEg inside) _ _ held)
      fun _ n₅ held => ?_
    refine wp_seq (kept'.keeps_dropRequests _ _ _ _ held) fun _ n₆ held => ?_
    rw [wp_bind, wp_get, wp_when]
    split
    · exact kept.cmTestPiece_wp held.1 inside held.2
    · exact held.1
  · refine wp_seq (kept'.keeps_quiet (quiet_unlinkPiece kept.control) _ _ held)
      fun _ n₄ held => ?_
    refine wp_seq (kept'.keeps_quiet (quiet_onPiece_ok _) _ _ held) fun _ n₅ held => ?_
    rw [wp_bind, wp_get]
    refine wp_between (fun _ n' => inv n') ?_ fun _ n₆ held =>
      keeps_get (fun callers n held => keeps_when kept.keeps_dlAssignRequests _ _ held) _ _ held
    rw [wp_when]
    split
    · exact kept.cmTestPiece_wp held.1 inside held.2
    · exact held.1

/-! ## Announced pieces -/

/-- The state after an announcement has been counted. -/
theorem dlOnPieceAnn_wp (bounded : index < t.npieces ∨ k.allowed .pieceBounds)
    (counted : index < t.npieces → inv { n with
      pieceCount := Function.update n.pieceCount index (n.pieceCount index + 1) }) :
    (dlOnPieceAnn t p index).wp k callers (fun _ n' => inv n') n := by
  refine wp_call.mpr (.inr ?_)
  rw [wp_bind, wp_assert]
  split
  · rename_i inside
    replace counted := counted inside
    rw [wp_bind, wp_modify]
    generalize ({ n with
      pieceCount := Function.update n.pieceCount index (n.pieceCount index + 1) } : Net) = n'
      at counted
    rw [wp_bind, wp_get, wp_ite]
    split
    · exact wp_pure.mpr counted
    rw [wp_ite]
    split
    · refine wp_seq (kept.keeps_assert (by decide) _ _ counted) fun _ n₁ held => ?_
      refine wp_seq (kept.keeps_peerWant _ _ held) fun _ n₂ held => ?_
      exact keeps_get (fun callers n held => keeps_when kept.keeps_dlAssignRequestsEg _ _ held)
        _ _ held
    rw [wp_ite]
    split
    · refine wp_seq (kept.keeps_peerWant _ _ counted) fun _ n₁ held => ?_
      rw [wp_bind, wp_get, wp_when]
      split
      · rename_i ok
        refine wp_seq (kept.quiet_wp (quiet_dlNewPiece kept.control inside) held (.of_leechOk ok)) ?_
        rintro _ n₂ ⟨held, engaged⟩
        exact wp_mono (kept.dlPieceAssignRequests_wp held engaged) fun _ _ held => held.1
      · exact held
    rw [wp_ite]
    split
    · refine wp_seq (kept.keeps_peerWant _ _ counted) fun _ n₁ held => ?_
      rw [wp_bind, wp_get, wp_when]
      split
      · rename_i ok
        exact wp_mono (kept.dlPieceAssignRequests_wp held (.of_leechOk ok))
          fun _ _ held => held.1
      · exact held
    · exact wp_pure.mpr counted
  · rename_i outside
    exact bounded.resolve_left outside

end RoutineKept

end Btpd.Download
