import Btpd.Download.Events

/-!
# What the routines of a peer leave alone

The queue of a peer and the flags that only concern uploading do not decide what
is downloaded.  `Peer.core` forgets them, and each routine of a peer is
described by what it does to the rest.
-/

namespace Btpd.Download.Peer

open Prog (Ends ends_seq)

/-- A peer without its queue and the flags of the queue. -/
def core (peer : Peer) : Peer :=
  { peer with
    npieceMsgs := 0, outqOff := 0, outq := [], iChoke := false, pWant := false
    noRequests := false, doUnwant := false, sent := [], wire := [] }

/-- The faults of the routines of a single peer. -/
def peerFaults : List Fault :=
  [.wantBound, .wantDoUnwantSet, .wantDoUnwantClear, .unwantZero, .noReqsWanted,
    .goodPieceUnwanted, .badField, .outqOff, .pieceMsgs, .writeEmpty, .laden, .nullDeref,
    .diverge, .unlinked]

/-- The routine of a peer returns with the postcondition, or ends in a fault of
the peer. -/
abbrev Tame {α : Type} (x : Except Fault α) (post : α → Prop) : Prop :=
  Ends (· ∈ peerFaults) x post

theorem tame_error {α : Type} {e : Fault} {post : α → Prop} (mem : e ∈ peerFaults) :
    Tame (.error e) post :=
  mem

variable {peer : Peer} {index k : Nat}

theorem send_core {nb : NetBuf} :
    Tame (peer.send nb) fun peer' => peer'.core = peer.core :=
  ends_send (by decide) rfl

theorem unsendAt_core :
    Tame (peer.unsendAt k) fun result => result.2.core = peer.core :=
  ends_unsendAt (by decide) (by decide) (fun _ => rfl) fun _ _ _ _ => rfl

theorem takeBack_core {nb : NetBuf} :
    Tame (peer.takeBack nb) fun result => result.2.core = peer.core := by
  unfold takeBack
  split
  · exact unsendAt_core
  · rfl

theorem onNoReqs_core : Tame peer.onNoReqs fun peer' => peer'.core = peer.core := by
  unfold onNoReqs
  split
  · split
    · exact send_core
    · exact tame_error (by decide)
  · rfl

theorem checkNoReqs_core : Tame peer.checkNoReqs fun peer' => peer'.core = peer.core := by
  unfold checkNoReqs
  split
  · exact onNoReqs_core
  · rfl

theorem requestable_eq_false (lacks : (!peer.pieceField index || peer.hasBad index) = true) :
    peer.requestable index = false := by
  cases has : peer.pieceField index <;> simp_all [requestable]

theorem requestable_eq_true (has : ¬ (!peer.pieceField index || peer.hasBad index) = true) :
    peer.requestable index = true := by
  cases field : peer.pieceField index <;> simp_all [requestable]

/-- A wanted piece is counted, and the first one sets `PF_I_WANT`. -/
theorem want_core :
    Tame (peer.want index) fun peer' => peer'.core =
      { peer.core with
        nwant := peer.nwant + (peer.requestable index).toNat
        iWant := peer.iWant || (peer.requestable index && peer.nwant == 0) } := by
  unfold want
  split
  · rename_i lacks
    rw [requestable_eq_false lacks, Bool.false_and, Bool.or_false]
    rfl
  rename_i has
  rw [requestable_eq_true has, Bool.true_and]
  split
  · exact tame_error (by decide)
  dsimp only
  split
  · rename_i more
    have positive : (peer.nwant == 0) = false := by simp; omega
    rw [positive, Bool.or_false]
    rfl
  rename_i one
  have zero : (peer.nwant == 0) = true := by simp; omega
  rw [zero, Bool.or_true]
  split
  · rfl
  split
  · split
    · exact tame_error (by decide)
    split
    · refine ends_seq unsendAt_core ?_
      rintro ⟨unsent, peer'⟩ coreEq
      dsimp only at coreEq ⊢
      split
      · exact coreEq
      · exact Prog.ends_mono send_core fun _ sentEq => sentEq.trans coreEq
    · exact send_core
  · split
    · rfl
    · exact tame_error (by decide)

/-- An unwanted piece is counted off, and the last one clears `PF_I_WANT`. -/
theorem unwant_core :
    Tame (peer.unwant index) fun peer' =>
      (peer.requestable index = true → 0 < peer.nwant) ∧ peer'.core =
        { peer.core with
          nwant := peer.nwant - (peer.requestable index).toNat
          iWant := peer.iWant && !(peer.requestable index && peer.nwant == 1) } := by
  unfold unwant
  split
  · rename_i lacks
    rw [requestable_eq_false lacks, Bool.false_and, Bool.not_false, Bool.and_true]
    exact ⟨fun has => absurd has (by simp), rfl⟩
  rename_i has
  rw [requestable_eq_true has, Bool.true_and]
  split
  · exact tame_error (by decide)
  rename_i nonzero
  have positive : 0 < peer.nwant := Nat.pos_of_ne_zero nonzero
  dsimp only
  split
  · rename_i more
    have notLast : (peer.nwant == 1) = false := by simp; omega
    rw [notLast, Bool.not_false, Bool.and_true]
    exact ⟨fun _ => positive, rfl⟩
  rename_i last
  have isLast : (peer.nwant == 1) = true := by simp; omega
  rw [isLast, Bool.not_true, Bool.and_false]
  split
  · exact ⟨fun _ => positive, rfl⟩
  split
  · exact Prog.ends_mono send_core fun _ sentEq => ⟨fun _ => positive, sentEq⟩
  · exact ⟨fun _ => positive, rfl⟩

theorem request_core {req : BlockRequest} :
    Tame (peer.request req) fun peer' =>
      peer.nreqsOut < maxPipedRequests ∧ peer'.core =
        { peer.core with
          nreqsOut := peer.nreqsOut + 1
          myReqs := peer.myReqs ++ [req] } := by
  unfold request
  split
  · rename_i room
    exact Prog.ends_mono send_core fun _ sentEq => ⟨room, sentEq⟩
  · exact tame_error (by decide)

theorem cancel_core {req : BlockRequest} {nb : NetBuf} :
    Tame (peer.cancel req nb) fun peer' =>
      req ∈ peer.myReqs ∧ peer'.core =
        { peer.core with
          nreqsOut := peer.nreqsOut - 1
          myReqs := peer.myReqs.erase req } := by
  unfold cancel
  refine ends_seq (ends_unlink (by decide) fun linked => ⟨linked, rfl⟩ :
    Tame (peer.unlink req) fun peer' => req ∈ peer.myReqs ∧ peer' =
      { peer with nreqsOut := peer.nreqsOut - 1, myReqs := peer.myReqs.erase req }) ?_
  rintro _ ⟨linked, rfl⟩
  refine ends_seq takeBack_core ?_
  rintro ⟨removed, peer'⟩ coreEq
  dsimp only at coreEq ⊢
  split
  · exact Prog.ends_mono checkNoReqs_core fun _ checkedEq => ⟨linked, checkedEq.trans coreEq⟩
  · refine ends_seq send_core fun peer'' sentEq => ?_
    exact Prog.ends_mono checkNoReqs_core fun _ checkedEq =>
      ⟨linked, checkedEq.trans (sentEq.trans coreEq)⟩

/-- A piece that turns out bad is marked, and the third in a row makes the peer
suspect. -/
theorem badPiece_core :
    Tame (peer.badPiece index) fun peer' =>
      peer.hasBad index = false ∧ ∃ bad,
        (∀ i, bad i = (decide (i = index) || peer.hasBad i)) ∧
        peer'.core =
          { peer.core with
            badField := some bad
            npcsBad := peer.npcsBad + 1
            suspicion := peer.suspicion + 1
            suspect := peer.suspicion == 2 || peer.suspect } := by
  have allocated : Tame peer.allocBadField fun bad => ∀ i, bad i = peer.hasBad i := by
    unfold allocBadField hasBad
    split <;> split
    · exact fun _ => rfl
    · exact tame_error (by decide)
    · exact tame_error (by decide)
    · exact fun _ => rfl
  unfold badPiece
  refine ends_seq allocated fun bad badEq => ?_
  split
  · exact tame_error (by decide)
  rename_i notBad
  replace notBad : peer.hasBad index = false := by
    rw [← badEq]
    simpa using notBad
  have marked : ∀ i, setBit bad index i = (decide (i = index) || peer.hasBad i) := by
    intro i
    rw [setBit, Function.update_apply, ← badEq]
    split
    · rename_i same
      simp [same]
    · rename_i other
      simp [other]
  dsimp only
  split
  · rename_i third
    have second : (peer.suspicion == 2) = true := by simp; omega
    rw [second, Bool.true_or]
    split
    · exact Prog.ends_mono send_core fun _ sentEq => ⟨notBad, _, marked, sentEq⟩
    · exact ⟨notBad, _, marked, rfl⟩
  · rename_i notThird
    have notSecond : (peer.suspicion == 2) = false := by simp; omega
    rw [notSecond, Bool.false_or]
    exact ⟨notBad, _, marked, rfl⟩

/-- The three ways in which a good piece changes the marks of bad pieces. -/
inductive ClearsBad (peer : Peer) (index : Nat) : Option (Nat → Bool) → Nat → Prop
  | unmarked : peer.hasBad index = false → ClearsBad peer index peer.badField peer.npcsBad
  | last : peer.hasBad index = true → peer.npcsBad = 1 → ClearsBad peer index none 0
  | more : peer.hasBad index = true → 1 < peer.npcsBad →
      ClearsBad peer index (peer.badField.map (clearBit · index)) (peer.npcsBad - 1)

/-- A peer that sent good blocks is no longer suspect. -/
theorem goodPiece_core :
    Tame (peer.goodPiece index) fun result =>
      result.1 = peer.suspect ∧ ∃ field count, peer.ClearsBad index field count ∧
        result.2.core =
          { peer.core with
            badField := field
            npcsBad := count
            suspicion := 0
            suspect := false } := by
  have cleared : Tame (peer.clearBad index) fun peer' => ∃ field count,
      peer.ClearsBad index field count ∧
        peer' = { peer with badField := field, npcsBad := count } := by
    unfold clearBad
    split
    · rename_i marked
      split
      · exact tame_error (by decide)
      split
      · rename_i last
        exact ⟨_, _, .last marked last, rfl⟩
      · exact ⟨_, _, .more marked (by omega), rfl⟩
    · rename_i unmarked
      exact ⟨_, _, .unmarked (by simpa using unmarked), rfl⟩
  unfold goodPiece
  refine ends_seq cleared ?_
  rintro _ ⟨field, count, clears, rfl⟩
  dsimp only
  split
  · rename_i suspect
    split
    · split
      · refine ends_seq send_core fun _ sentEq => ?_
        exact ⟨suspect.symm, field, count, clears, sentEq⟩
      · exact tame_error (by decide)
    · exact ⟨suspect.symm, field, count, clears, rfl⟩
  · rename_i trusted
    have notSuspect : peer.suspect = false := by simpa using trusted
    refine ⟨notSuspect.symm, field, count, clears, ?_⟩
    rw [← notSuspect]
    rfl

theorem unsendPieces_core (fuel : Nat) :
    Tame (unsendPieces fuel k peer) fun peer' => peer'.core = peer.core := by
  induction fuel generalizing k peer with
  | zero => exact tame_error (by decide)
  | succ fuel ih =>
      unfold unsendPieces
      split
      · rfl
      · split
        · exact tame_error (by decide)
        refine ends_seq unsendAt_core ?_
        rintro ⟨removed, peer'⟩ coreEq
        dsimp only at coreEq ⊢
        split
        · refine ends_seq unsendAt_core ?_
          rintro ⟨_, peer''⟩ coreEq'
          exact Prog.ends_mono ih fun _ sameEq => sameEq.trans (coreEq'.trans coreEq)
        · exact Prog.ends_mono ih fun _ sameEq => sameEq.trans coreEq
      · exact ih

theorem choke_core : Tame peer.choke fun peer' => peer'.core = peer.core :=
  ends_seq (unsendPieces_core _) fun _ coreEq =>
    Prog.ends_mono send_core fun _ sentEq => sentEq.trans coreEq

theorem unsendRequests_core (fuel : Nat) :
    Tame (unsendRequests fuel k peer) fun peer' => peer'.core = peer.core := by
  induction fuel generalizing k peer with
  | zero => exact tame_error (by decide)
  | succ fuel ih =>
      unfold unsendRequests
      split
      · rfl
      · refine ends_seq unsendAt_core fun _ coreEq => ?_
        exact Prog.ends_mono ih fun _ sameEq => sameEq.trans coreEq
      · exact ih

theorem onRequest_core {begin length : Nat} :
    Tame (peer.onRequest index begin length) fun peer' => peer'.core = peer.core := by
  unfold onRequest
  split
  · rfl
  refine ends_seq send_core fun _ first => ends_seq send_core fun _ second => ?_
  dsimp only
  split
  · refine ends_seq send_core fun _ third => ends_seq send_core fun _ fourth => ?_
    exact fourth.trans (third.trans (second.trans first))
  · exact second.trans first

theorem onCancel_core {begin length : Nat} :
    Tame (peer.onCancel index begin length) fun peer' => peer'.core = peer.core := by
  unfold onCancel
  split
  · rfl
  refine ends_seq unsendAt_core ?_
  rintro ⟨removed, peer'⟩ coreEq
  dsimp only at coreEq ⊢
  split
  · exact ends_seq unsendAt_core fun _ coreEq' => coreEq'.trans coreEq
  · exact coreEq

theorem noteSent_core {nb : NetBuf} :
    Tame (peer.noteSent nb) fun peer' => peer'.core = peer.core :=
  ends_noteSent (by decide) fun _ _ => rfl

theorem written_core {bcount : Nat} (outq : List NetBuf) :
    Tame (peer.written bcount outq) fun result => result.2.core = peer.core := by
  induction outq generalizing peer bcount with
  | nil => rfl
  | cons nb outq ih =>
      unfold written
      split
      · rfl
      dsimp only
      split
      · refine ends_seq noteSent_core fun peer' coreEq => ?_
        exact ends_seq ih fun _ sameEq => sameEq.trans coreEq
      · rfl

theorem netWrite_core {readBlock : Nat → Nat → Nat → List UInt8}
    {bytes : NetBuf → List UInt8} {wmax nwritten : Nat} :
    Tame (peer.netWrite readBlock bytes wmax nwritten) fun result =>
      result.2.core = peer.core := by
  unfold netWrite
  dsimp only
  split
  · exact tame_error (by decide)
  · exact ends_seq (collect_fills (by decide) _ _ _ _) fun _ _ => written_core _

end Btpd.Download.Peer
