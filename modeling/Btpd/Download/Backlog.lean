import Btpd.Download.Wire
import Mathlib

/-!
# How many blocks wait for a peer

`npiece_msgs` counts the data buffers in the queue of a peer.  Only `peer_on_request` makes it
larger.  When the limit is reached it queues a CHOKE and an UNCHOKE behind the blocks and ignores
requests until an UNCHOKE has been sent.  That is meant to be its own; another one that was queued
before the blocks lifts the limit as well.
-/

namespace Btpd.Download

open Prog

/-- The data buffers of a queue. -/
def blocks (outq : List NetBuf) : Nat := outq.countP NetBuf.isData

theorem blocks_append {nb : NetBuf} {outq : List NetBuf} (other : nb.isData = false) :
    blocks (outq ++ [nb]) = blocks outq := by
  simp [blocks, other]

theorem blocks_append_data {data : Option (List UInt8)} {outq : List NetBuf} :
    blocks (outq ++ [.torrentData data]) = blocks outq + 1 := by
  simp [blocks, NetBuf.isData]

theorem blocks_cons {nb : NetBuf} {outq : List NetBuf} :
    blocks (nb :: outq) = blocks outq + nb.isData.toNat := by
  cases data : nb.isData with
  | true => simp [blocks, data]
  | false => simp [blocks, data]

theorem blocks_eraseIdx {outq : List NetBuf} {k : Nat} {nb : NetBuf}
    (found : outq[k]? = some nb) :
    blocks outq = blocks (outq.eraseIdx k) + nb.isData.toNat := by
  induction outq generalizing k with
  | nil => cases found
  | cons x outq ih =>
      cases k with
      | zero =>
          cases found
          exact blocks_cons
      | succ k =>
          rw [List.eraseIdx_cons_succ, blocks_cons, blocks_cons, ih (k := k) found]
          exact Nat.add_right_comm _ _ _

theorem blocks_fills {outq outq' : List NetBuf} (fills : List.Forall₂ Peer.Fills outq outq') :
    blocks outq' = blocks outq := by
  induction fills with
  | nil => rfl
  | cons first _ ih =>
      have same : ∀ {nb nb'}, Peer.Fills nb nb' → nb'.isData = nb.isData := by
        intro nb nb' fill
        cases fill with
        | same => rfl
        | fill => rfl
      rw [blocks_cons, blocks_cons, ih, same first]

namespace Peer

/-- `npiece_msgs` is the number of data buffers in the queue. -/
def Counted (peer : Peer) : Prop := peer.npieceMsgs = blocks peer.outq

/-- The count stays right and has not grown, and requests are ignored as before. -/
structure Fewer (peer peer' : Peer) : Prop where
  counted : peer.Counted → peer'.Counted
  le : peer'.npieceMsgs ≤ peer.npieceMsgs
  noRequests : peer'.noRequests = peer.noRequests

variable {base peer peer' peer'' : Peer} {index : Nat}

theorem Fewer.refl : Fewer peer peer := ⟨id, Nat.le_refl _, rfl⟩

theorem Fewer.trans (first : Fewer peer peer') (second : Fewer peer' peer'') :
    Fewer peer peer'' :=
  ⟨fun counted => second.counted (first.counted counted), Nat.le_trans second.le first.le,
    second.noRequests.trans first.noRequests⟩

/-- Nothing is done to the queue. -/
theorem Fewer.of_eq (msgs : peer'.npieceMsgs = peer.npieceMsgs) (outq : peer'.outq = peer.outq)
    (noRequests : peer'.noRequests = peer.noRequests) : Fewer peer peer' := by
  constructor
  · intro counted
    unfold Counted
    rw [msgs, outq]
    exact counted
  · exact Nat.le_of_eq msgs
  · exact noRequests

/-! ## The routines of a peer -/

theorem send_fewer {nb : NetBuf} (before : Fewer base peer) (other : nb.isData = false) :
    Returns (peer.send nb) (Fewer base) := by
  apply ends_send trivial
  constructor
  · intro counted
    show peer.npieceMsgs = blocks (peer.outq ++ [nb])
    rw [blocks_append other]
    exact before.counted counted
  · exact before.le
  · exact before.noRequests

theorem unsendAt_fewer {k : Nat} (before : Fewer base peer) :
    Returns (peer.unsendAt k) fun result => Fewer base result.2 := by
  unfold unsendAt
  split
  · exact before
  split
  · trivial
  · rename_i found
    split
    · constructor
      · intro counted
        have erased := blocks_eraseIdx found
        show peer.npieceMsgs - 1 = blocks (peer.outq.eraseIdx k)
        rw [before.counted counted, erased]
        rfl
      · exact Nat.le_trans (Nat.sub_le _ _) before.le
      · exact before.noRequests
    · trivial
  · rename_i nb notData found
    constructor
    · intro counted
      have erased := blocks_eraseIdx found
      have other : nb.isData = false := by
        cases nb with
        | torrentData data => exact absurd rfl (notData data)
        | _ => rfl
      rw [other] at erased
      exact (before.counted counted).trans erased
    · exact before.le
    · exact before.noRequests

theorem takeBack_fewer {nb : NetBuf} :
    Returns (peer.takeBack nb) fun result => Fewer peer result.2 := by
  unfold takeBack
  split
  · exact unsendAt_fewer .refl
  · exact .refl

theorem checkNoReqs_fewer : Returns peer.checkNoReqs (Fewer peer) := by
  unfold checkNoReqs
  split
  · unfold onNoReqs
    split
    · split
      · exact send_fewer (.of_eq rfl rfl rfl) rfl
      · trivial
    · exact .refl
  · exact .refl

theorem want_fewer : Returns (peer.want index) (Fewer peer) := by
  unfold want
  split
  · exact .refl
  split
  · trivial
  dsimp only
  split
  · exact .of_eq rfl rfl rfl
  split
  · exact .of_eq rfl rfl rfl
  split
  · split
    · trivial
    split
    · refine ends_between (fun result => Fewer peer result.2)
        (unsendAt_fewer (.of_eq rfl rfl rfl)) ?_
      rintro ⟨unsent, peer'⟩ fewer
      dsimp only at fewer ⊢
      split
      · exact fewer
      · exact send_fewer fewer rfl
    · exact send_fewer (.of_eq rfl rfl rfl) rfl
  · split
    · exact .of_eq rfl rfl rfl
    · trivial

theorem unwant_fewer : Returns (peer.unwant index) (Fewer peer) := by
  unfold unwant
  split
  · exact .refl
  split
  · trivial
  dsimp only
  split
  · exact .of_eq rfl rfl rfl
  split
  · exact .of_eq rfl rfl rfl
  split
  · exact send_fewer (.of_eq rfl rfl rfl) rfl
  · exact .of_eq rfl rfl rfl

theorem request_fewer {req : BlockRequest} : Returns (peer.request req) (Fewer peer) := by
  unfold request
  split
  · exact send_fewer (.of_eq rfl rfl rfl) rfl
  · trivial

theorem unlink_fewer {req : BlockRequest} : Returns (peer.unlink req) (Fewer peer) :=
  ends_unlink trivial fun _ => .of_eq rfl rfl rfl

theorem cancel_fewer {req : BlockRequest} {begin length : Nat} :
    Returns (peer.cancel req (.cancel index begin length)) (Fewer peer) := by
  unfold cancel
  apply ends_seq unlink_fewer
  intro peer₁ first
  apply ends_seq takeBack_fewer
  rintro ⟨removed, peer₂⟩ second
  dsimp only at second ⊢
  split
  · exact ends_mono checkNoReqs_fewer fun _ third => first.trans (second.trans third)
  · apply ends_seq (send_fewer (first.trans second) rfl)
    intro peer₃ third
    exact ends_mono checkNoReqs_fewer fun _ fourth => third.trans fourth

theorem badPiece_fewer : Returns (peer.badPiece index) (Fewer peer) := by
  unfold badPiece
  apply ends_seq (returns_of_forall fun _ _ => trivial : Returns _ fun _ => True)
  intro bad _
  split
  · trivial
  dsimp only
  split
  · split
    · exact send_fewer (.of_eq rfl rfl rfl) rfl
    · exact .of_eq rfl rfl rfl
  · exact .of_eq rfl rfl rfl

theorem clearBad_fewer : Returns (peer.clearBad index) (Fewer peer) := by
  unfold clearBad
  split
  · split
    · trivial
    split
    · exact .of_eq rfl rfl rfl
    · exact .of_eq rfl rfl rfl
  · exact .refl

theorem goodPiece_fewer :
    Returns (peer.goodPiece index) fun result => Fewer peer result.2 := by
  unfold goodPiece
  apply ends_seq clearBad_fewer
  intro peer' fewer
  dsimp only
  split
  · split
    · split
      · have kept : Fewer peer' { peer' with suspicion := 0, suspect := false } := .of_eq rfl rfl rfl
        exact ends_between (Fewer peer) (send_fewer (fewer.trans kept) rfl) fun _ sent => sent
      · trivial
    · exact fewer.trans (.of_eq rfl rfl rfl)
  · exact fewer.trans (.of_eq rfl rfl rfl)

theorem unsendRequests_fewer (fuel k : Nat) :
    Returns (peer.unsendRequests fuel k) (Fewer peer) := by
  induction fuel generalizing k peer with
  | zero => trivial
  | succ fuel ih =>
      unfold unsendRequests
      split
      · exact .refl
      · apply ends_seq (unsendAt_fewer .refl)
        intro _ first
        exact ends_mono (ih _) fun _ second => first.trans second
      · exact ih _

theorem unsendPieces_fewer (fuel k : Nat) :
    Returns (unsendPieces fuel k peer) (Fewer peer) := by
  induction fuel generalizing k peer with
  | zero => trivial
  | succ fuel ih =>
      unfold unsendPieces
      split
      · exact .refl
      · split
        · trivial
        apply ends_seq (unsendAt_fewer .refl)
        rintro ⟨removed, peer₁⟩ first
        dsimp only at first ⊢
        split
        · apply ends_seq (unsendAt_fewer first)
          intro _ second
          exact ends_mono (ih _) fun _ third => second.trans third
        · exact ends_mono (ih _) fun _ third => first.trans third
      · exact ih _

theorem choke_fewer : Returns peer.choke (Fewer peer) := by
  apply ends_seq (unsendPieces_fewer _ _)
  intro _ first
  exact send_fewer (first.trans (.of_eq rfl rfl rfl)) rfl

theorem unchoke_fewer : Returns peer.unchoke (Fewer peer) :=
  send_fewer (.of_eq rfl rfl rfl) rfl

theorem onCancel_fewer {begin length : Nat} :
    Returns (peer.onCancel index begin length) (Fewer peer) := by
  unfold onCancel
  split
  · exact .refl
  · apply ends_seq (unsendAt_fewer .refl)
    rintro ⟨removed, peer₁⟩ first
    dsimp only at first ⊢
    split
    · apply ends_seq (unsendAt_fewer first)
      exact fun _ second => second
    · exact first

/-! ## Writing -/

/-- The count is right and within the limit, and requests are ignored when the limit has been
reached. -/
structure Limited (peer : Peer) : Prop where
  counted : peer.Counted
  le : peer.npieceMsgs ≤ maxPieceMsgs
  full : maxPieceMsgs ≤ peer.npieceMsgs → peer.noRequests = true

/-- The first `count` bytes behind the first `off` bytes of a queue hold all of an UNCHOKE that
stands before as many blocks as may wait. -/
def EarlyUnchoke (off count : Nat) (outq : List NetBuf) : Prop :=
  ∃ k < outq.length, outq[k]? = some .unchoke ∧ maxPieceMsgs ≤ blocks (outq.drop (k + 1)) ∧
    ((outq.take (k + 1)).map NetBuf.len).sum ≤ off + count

instance {off count : Nat} {outq : List NetBuf} : Decidable (EarlyUnchoke off count outq) :=
  inferInstanceAs (Decidable (∃ k < outq.length, _))

/-- What has been sent stands before what is left. -/
theorem EarlyUnchoke.behind {off count : Nat} {nb : NetBuf} {outq : List NetBuf}
    (gone : nb.len - off ≤ count) (early : EarlyUnchoke 0 (count - (nb.len - off)) outq) :
    EarlyUnchoke off count (nb :: outq) := by
  obtain ⟨k, inside, unchoke, full, room⟩ := early
  refine ⟨k + 1, Nat.succ_lt_succ inside, unchoke, full, ?_⟩
  rw [List.take_succ_cons, List.map_cons, List.sum_cons]
  omega

/-- A queue is the same up to the data that is filled in. -/
theorem fills_eq {outq outq' : List NetBuf} (fills : List.Forall₂ Fills outq outq')
    (none : blocks outq = 0) : outq' = outq := by
  induction fills with
  | nil => rfl
  | cons first _ ih =>
      rw [blocks_cons] at none
      cases first with
      | same nb => rw [ih (Nat.eq_zero_of_add_eq_zero_right none)]
      | fill data => cases Nat.eq_zero_of_add_eq_zero_left none

/-- The data of the blocks matters for no UNCHOKE that stands before all of them. -/
theorem EarlyUnchoke.of_fills {off count : Nat} {outq outq' : List NetBuf}
    (fills : List.Forall₂ Fills outq outq') (le : blocks outq ≤ maxPieceMsgs)
    (early : EarlyUnchoke off count outq') : EarlyUnchoke off count outq := by
  obtain ⟨k, inside, unchoke, full, room⟩ := early
  have split : blocks (outq.take (k + 1)) + blocks (outq.drop (k + 1)) = blocks outq := by
    unfold blocks
    rw [← List.countP_append, List.take_append_drop]
  rw [blocks_fills (List.forall₂_drop (k + 1) fills)] at full
  have same := fills_eq (List.forall₂_take (k + 1) fills) (by omega)
  refine ⟨k, fills.length_eq ▸ inside, ?_, full, same ▸ room⟩
  have found := congrArg (·[k]?) same
  simpa [List.getElem?_take, unchoke] using found.symm

theorem noteSent_counted {nb : NetBuf} {outq : List NetBuf}
    (counted : peer.npieceMsgs = blocks (nb :: outq)) :
    Returns (peer.noteSent nb) fun peer' => peer'.npieceMsgs = blocks outq ∧
      peer'.npieceMsgs ≤ peer.npieceMsgs ∧
      (nb ≠ .unchoke → peer'.noRequests = peer.noRequests) := by
  rw [blocks_cons] at counted
  unfold noteSent
  split
  · exact ⟨counted, Nat.le_refl _, fun other => absurd rfl other⟩
  · split
    · refine ⟨?_, Nat.sub_le _ _, fun _ => rfl⟩
      show peer.npieceMsgs - 1 = blocks outq
      rw [counted]
      rfl
    · trivial
  · rename_i notUnchoke notData
    refine ⟨?_, Nat.le_refl _, fun _ => rfl⟩
    cases nb with
    | torrentData data => exact absurd rfl (notData data)
    | _ => exact counted

/-- A write keeps the limit unless it takes an UNCHOKE that stands before the blocks. -/
theorem written_limited {bcount : Nat} (outq : List NetBuf)
    (counted : peer.npieceMsgs = blocks outq) (le : peer.npieceMsgs ≤ maxPieceMsgs)
    (full : maxPieceMsgs ≤ peer.npieceMsgs → peer.noRequests = true)
    (late : ¬EarlyUnchoke peer.outqOff bcount outq) :
    Returns (peer.written bcount outq) fun result => result.2.Limited := by
  induction outq generalizing peer bcount with
  | nil => exact ⟨counted, le, full⟩
  | cons nb outq ih =>
      unfold written
      split
      · exact ⟨counted, le, full⟩
      dsimp only
      split
      case isFalse => exact ⟨counted, le, full⟩
      case isTrue gone =>
        apply ends_seq (noteSent_counted counted)
        rintro peer₁ ⟨counted₁, le₁, same⟩
        refine ends_between (fun result => result.2.Limited)
          (ih counted₁ (Nat.le_trans le₁ le) (fun reached => ?_)
            fun early => late (early.behind gone)) fun _ limited => limited
        by_cases unchoke : nb = .unchoke
        · -- as many blocks as may wait stand behind the UNCHOKE
          subst unchoke
          refine absurd ⟨0, Nat.succ_pos _, rfl, ?_, ?_⟩ late
          · exact counted₁ ▸ reached
          · simp only [List.take_succ_cons, List.take_zero, List.map_cons, List.map_nil,
              List.sum_cons, List.sum_nil]
            omega
        · exact (same unchoke).trans (full (Nat.le_trans reached le₁))

/-- No more bytes are collected than may be sent. -/
theorem length_collect {readBlock : Nat → Nat → Nat → List UInt8} {bytes : NetBuf → List UInt8}
    (fuel w blocks off : Nat) (outq : List NetBuf) :
    Returns (collect readBlock bytes fuel (some w) blocks off outq) fun result =>
      result.1.length ≤ w := by
  induction fuel generalizing w blocks off outq with
  | zero => exact Nat.zero_le _
  | succ fuel ih =>
      cases outq with
      | nil => exact Nat.zero_le _
      | cons nb rest =>
          have more : ∀ result : List UInt8 × List NetBuf,
              result.1.length ≤ w - (((bytes nb).drop off).take w).length →
                (((bytes nb).drop off).take w ++ result.1).length ≤ w := by
            intro result short
            have first := List.length_take_le w ((bytes nb).drop off)
            rw [List.length_append]
            omega
          unfold collect
          split
          · exact Nat.zero_le _
          dsimp only [Option.map_some]
          split
          · split
            · exact Nat.zero_le _
            · trivial
          · split
            · exact Nat.zero_le _
            · exact ends_seq (ih _ _ _ _) more
          · exact ends_seq (ih _ _ _ _) more

/-- The bytes that the kernel may take. -/
def mayTake (wmax nwritten : Nat) : Nat := if wmax = 0 then nwritten else min nwritten wmax

/-- A write may take an UNCHOKE that stands before the blocks. -/
def SendsEarly (peer : Peer) (wmax nwritten : Nat) : Prop :=
  EarlyUnchoke peer.outqOff (mayTake wmax nwritten) peer.outq

instance {wmax nwritten : Nat} : Decidable (peer.SendsEarly wmax nwritten) :=
  inferInstanceAs (Decidable (EarlyUnchoke _ _ _))

theorem EarlyUnchoke.mono {off count count' : Nat} {outq : List NetBuf} (le : count ≤ count')
    (early : EarlyUnchoke off count outq) : EarlyUnchoke off count' outq := by
  obtain ⟨k, inside, unchoke, full, room⟩ := early
  exact ⟨k, inside, unchoke, full, Nat.le_trans room (Nat.add_le_add_left le _)⟩

theorem Limited.netWrite {read : Nat → Nat → Nat → List UInt8} {bytes : NetBuf → List UInt8}
    {wmax nwritten : Nat} (limited : peer.Limited) (late : ¬peer.SendsEarly wmax nwritten) :
    Returns (peer.netWrite read bytes wmax nwritten) fun result => result.2.Limited := by
  unfold Peer.netWrite
  dsimp only
  split
  · trivial
  refine ends_seq (ends_and_returns (collect_fills trivial _ _ _ _)
    (returns_of_forall fun result collected => ?_ : Returns _ fun result =>
      min nwritten result.1.length ≤ mayTake wmax nwritten)) ?_
  · unfold mayTake
    split
    · exact Nat.min_le_left _ _
    · rename_i limit
      rw [if_neg limit] at collected
      exact min_le_min_left nwritten ((length_collect _ _ _ _ _).of_ok collected)
  · rintro ⟨iovs, outq⟩ ⟨fills, short⟩
    have counted : peer.npieceMsgs = blocks peer.outq := limited.counted
    apply written_limited outq
    · exact counted.trans (blocks_fills fills).symm
    · exact limited.le
    · exact limited.full
    · exact fun early => late ((early.of_fills fills (counted ▸ limited.le)).mono short)

/-! ## Requests of the peer -/

theorem send_eq {nb : NetBuf} :
    Returns (peer.send nb) fun peer' => peer' = { peer with outq := peer.outq ++ [nb] } :=
  ends_send trivial rfl

/-- A request is counted unless requests are ignored, and they are when the limit is reached. -/
theorem onRequest_counted {begin length : Nat} :
    Returns (peer.onRequest index begin length) fun peer' => (peer.Counted → peer'.Counted) ∧
      peer'.npieceMsgs = (if peer.noRequests then peer.npieceMsgs else peer.npieceMsgs + 1) ∧
      (peer.noRequests = false → maxPieceMsgs ≤ peer'.npieceMsgs → peer'.noRequests = true) ∧
      (peer.noRequests = true → peer' = peer) := by
  unfold onRequest
  split
  · rename_i ignored
    exact ⟨id, rfl, fun taken => absurd (ignored.symm.trans taken) Bool.noConfusion, fun _ => rfl⟩
  · rename_i taken
    apply ends_seq send_eq
    rintro _ rfl
    apply ends_seq send_eq
    rintro _ rfl
    have queued : peer.Counted → peer.npieceMsgs + 1 =
        blocks (peer.outq ++ [.piece index begin length] ++ [.torrentData none]) := by
      intro counted
      rw [blocks_append_data, blocks_append rfl, counted]
    dsimp only
    split
    · apply ends_seq send_eq
      rintro _ rfl
      apply ends_seq send_eq
      rintro _ rfl
      refine ⟨fun counted => ?_, rfl, fun _ _ => rfl, fun ignored => absurd ignored taken⟩
      show peer.npieceMsgs + 1 = blocks (_ ++ [.choke] ++ [.unchoke])
      rw [blocks_append rfl, blocks_append rfl]
      exact queued counted
    · rename_i room
      exact ⟨queued, rfl, fun _ reached => absurd reached room, fun ignored => absurd ignored taken⟩

/-- A request is taken only as long as there is room for its block. -/
theorem Limited.onRequest {begin length : Nat} (limited : peer.Limited) :
    Returns (peer.onRequest index begin length) Limited := by
  refine ends_mono onRequest_counted fun peer' ⟨counted, msgs, full, same⟩ => ?_
  cases ignored : peer.noRequests with
  | true =>
      rw [same ignored]
      exact limited
  | false =>
      refine ⟨counted limited.counted, ?_, full ignored⟩
      have room : ¬maxPieceMsgs ≤ peer.npieceMsgs := fun reached =>
        Bool.noConfusion (ignored.symm.trans (limited.full reached))
      rw [msgs, ignored]
      exact Nat.lt_of_not_le room

theorem Limited.fewer (limited : peer.Limited) (fewer : Fewer peer peer') : peer'.Limited :=
  ⟨fewer.counted limited.counted, Nat.le_trans fewer.le limited.le,
    fun reached => fewer.noRequests.trans (limited.full (Nat.le_trans reached fewer.le))⟩

theorem Limited.of_eq (limited : peer.Limited) (msgs : peer'.npieceMsgs = peer.npieceMsgs)
    (outq : peer'.outq = peer.outq) (noRequests : peer'.noRequests = peer.noRequests) :
    peer'.Limited :=
  limited.fewer (.of_eq msgs outq noRequests)

theorem Limited.ends {x : Except Fault Peer} (limited : peer.Limited)
    (fewer : Returns x (Fewer peer)) : Returns x Limited :=
  ends_mono fewer fun _ => limited.fewer

end Peer

/-! ## Runs -/

/-- No write takes an UNCHOKE that stands before as many blocks as may wait. -/
def Orderly (n : Net) : Event → Prop
  | .write p wmax nwritten => p ∈ n.peers → ¬(n.peer p).SendsEarly wmax nwritten
  | _ => True

instance (n : Net) : DecidablePred (Orderly n)
  | .write .. => inferInstanceAs (Decidable (_ → ¬_))
  | .shake _ | .kill _ | .choke _ | .unchoke _ | .interest _ | .uninterest _ | .haveMsg ..
  | .bitfield .. | .request .. | .cancel .. | .piece .. | .keepalive _ | .ulChoke _
  | .ulUnchoke _ | .tick => .isTrue trivial

variable {t : Torrent} {n n' : Net}

/-- Every event but a write keeps the limit. -/
theorem limited_peerKept : PeerKept t whenReturns (fun _ => False)
    (fun _ peer => peer.Limited) fun _ peer => peer.Limited where
  control _ _ := trivial
  bounded _ _ _ _ _ := .inr ⟨trivial, trivial⟩
  want _ _ _ _ limited := .inr (limited.ends Peer.want_fewer)
  unwant _ limited := limited.ends Peer.unwant_fewer
  request _ limited _ := limited.ends Peer.request_fewer
  cancel _ _ _ _ limited := limited.ends Peer.cancel_fewer
  loosen limited := limited
  unlink _ limited := limited.ends Peer.unlink_fewer
  tighten limited := limited.ends Peer.checkNoReqs_fewer
  badPiece _ limited := limited.ends Peer.badPiece_fewer
  goodPiece _ _ _ _ limited := .inr (ends_mono Peer.goodPiece_fewer fun _ => limited.fewer)
  ban limited := limited.of_eq rfl rfl rfl
  announce limited _ _ := by
    split
    · exact limited
    · exact limited.ends (Peer.send_fewer .refl rfl)
  missed _ limited _ := limited
  leave limited := limited
  pWant _ limited := limited.of_eq rfl rfl rfl
  pChoke _ limited := limited.of_eq rfl rfl rfl
  field _ limited _ := limited.of_eq rfl rfl rfl
  setBit _ _ limited := limited.of_eq rfl rfl rfl
  count _ limited := limited.of_eq rfl rfl rfl
  unsendRequests _ limited := limited.ends (Peer.unsendRequests_fewer _ _)
  keepalive limited := limited.ends (Peer.send_fewer .refl rfl)
  choke limited := limited.ends Peer.choke_fewer
  unchoke limited := limited.ends Peer.unchoke_fewer
  onRequest _ _ _ _ _ _ limited _ _ _ _ _ := .inr limited.onRequest
  onCancel _ _ _ limited := limited.ends Peer.onCancel_fewer
  write _ _ _ _ never _ := never.elim

theorem limited_create (unwritten : Option (Fin 68)) : (Peer.create t unwritten).Limited := by
  cases unwritten with
  | none => exact ⟨rfl, Nat.zero_le _, nofun⟩
  | some off => exact ⟨rfl, Nat.zero_le _, nofun⟩

theorem limited_shakes : Shakes t whenReturns fun _ peer => peer.Limited := by
  intro n unwritten _ _
  have created := limited_create (t := t) unwritten
  unfold Peer.onShake
  dsimp only
  split
  · exact created
  split
  · exact created.ends (Peer.send_fewer .refl rfl)
  · apply ends_seq (created.ends (Peer.send_fewer .refl rfl))
    intro _ limited
    exact limited.ends (Peer.send_fewer .refl rfl)

/-- The limit of each peer. -/
abbrev AllLimited (t : Torrent) (n : Net) : Prop :=
  Peerwise t (fun _ peer => peer.Limited) (everything t) n

theorem netWrite_limited {p wmax nwritten : Nat} {callers : List Fn} (held : AllLimited t n)
    (late : ¬(n.peer p).SendsEarly wmax nwritten) :
    (netWrite t p wmax nwritten).wp whenReturns callers (fun _ => AllLimited t) n := by
  unfold netWrite
  rw [wp_bind, wp_get, wp_bind, wp_ofExcept]
  refine ends_mono (ends_and_returns ((held.each p).netWrite late)
    (.of_ends Peer.netWrite_samePieces)) ?_
  rintro ⟨uploaded, peer⟩ ⟨limited, same⟩
  have held' : AllLimited t (n.setPeer p peer) := held.setPeer same limited
  rw [wp_modify]
  exact ⟨⟨held'.inside, held'.nodup, held'.fresh, held'.got, held'.npieces, held'.pieceCount⟩,
    held'.each⟩

theorem limited_step {e : Event} (held : AllLimited t n) (orderly : Orderly n e)
    (step : (system t).Steps (fun _ => False) n e n') : AllLimited t n' := by
  refine step.returned _ ?_
  by_cases write : ∃ p wmax nwritten, e = .write p wmax nwritten
  · obtain ⟨p, wmax, nwritten, rfl⟩ := write
    exact PeerKept.ifAttached_wp (fun mem => netWrite_limited held (orderly mem)) held
  · exact limited_peerKept.handle_wp e (fun _ _ => limited_shakes)
      (fun p wmax nwritten same => write ⟨p, wmax, nwritten, same⟩) held

/-- As long as no UNCHOKE is sent that was queued before `MAXPIECEMSGS` blocks that wait,
`npiece_msgs` is the number of blocks that wait for a peer and within the limit, and what the peer
asks for is ignored when the limit has been reached. -/
theorem limited_of_within (within : (system t).Within Orderly n) (p : Nat) :
    (n.peer p).npieceMsgs = blocks (n.peer p).outq ∧ (n.peer p).npieceMsgs ≤ maxPieceMsgs ∧
      (maxPieceMsgs ≤ (n.peer p).npieceMsgs → (n.peer p).noRequests = true) := by
  have limited := (within.invariant (AllLimited t)
    (fun _ start => Peerwise.start (fun _ _ => limited_create none) start)
    fun _ _ _ _ held orderly step => limited_step held orderly step).each p
  exact ⟨limited.counted, limited.le, limited.full⟩

/-- A torrent of one byte, which we have. -/
def oneByte : Torrent :=
  ⟨1, 1, [1], id, Vector.replicate 20 0, Vector.replicate 20 0, fun _ => [], id, 0, fun _ => 0⟩

def oneByteStart : Net :=
  Net.create oneByte (startupTestEnd oneByte (fun _ => true) (fun _ _ => true) fun _ => 0)

/-- A peer is unchoked, and asks for the byte as often as it may while nothing goes out. -/
def askedOften : List Event :=
  [.shake none, .write 0 0 1000, .interest 0, .ulUnchoke 0] ++
    List.replicate maxPieceMsgs (.request 0 0 0 1)

/-- The UNCHOKE goes out before the peer asks, and what it asks for when the limit has been
reached is ignored. -/
theorem limited_of_within_askedOften :
    ∃ n, (system oneByte).Within Orderly n ∧ (n.peer 0).npieceMsgs = 128 ∧
      ((n.peer 0).npieceMsgs = blocks (n.peer 0).outq ∧
        (n.peer 0).npieceMsgs ≤ maxPieceMsgs ∧
        (maxPieceMsgs ≤ (n.peer 0).npieceMsgs → (n.peer 0).noRequests = true)) := by
  have start : (system oneByte).Within Orderly oneByteStart := .start ⟨_, _, _, rfl⟩
  obtain ⟨n, within, holds⟩ := System.Within.of_events
    (P := fun n => (n.peer 0).npieceMsgs = 128) start
    ([.shake none, .write 0 0 1000, .interest 0, .ulUnchoke 0, .write 0 0 5] ++
      List.replicate (maxPieceMsgs + 1) (.request 0 0 0 1)) (by decide +kernel)
  exact ⟨n, within, holds, limited_of_within within 0⟩

/-- The UNCHOKE before the blocks goes out, and the next request exceeds the limit. -/
theorem not_limited_of_reachable :
    ¬∀ n, (system oneByte).Reachable (fun _ => False) n → ∀ p,
      (n.peer p).npieceMsgs = blocks (n.peer p).outq ∧ (n.peer p).npieceMsgs ≤ maxPieceMsgs := by
  intro claim
  have start : (system oneByte).Reachable (fun _ => False) oneByteStart :=
    .start ⟨_, _, _, rfl⟩
  obtain ⟨n, reached, many⟩ := System.Reachable.of_after
    (P := fun n => maxPieceMsgs < (n.peer 0).npieceMsgs)
    (askedOften ++ [.write 0 5 5, .request 0 0 0 1]) start (by decide +kernel)
  exact absurd (claim n reached 0).2 (Nat.not_le_of_gt many)

end Btpd.Download
