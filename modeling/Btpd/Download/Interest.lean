import Btpd.Download.Events
import Mathlib

/-!
# What a peer is told about our interest

The messages INTEREST and UNINTEREST that have been sent to a peer or still wait
in its queue alternate and begin with INTEREST.  `Interested` ties the last of
them to the flags and counters of the peer, and every routine that touches the
peer keeps it.
-/

namespace Btpd.Download

/-- What a message tells a peer about our interest. -/
def NetBuf.tells : NetBuf → Option Bool
  | .interest => some true
  | .uninterest => some false
  | _ => none

/-- A message that is neither a piece header nor the data that follows it, and
says nothing of our interest. -/
def NetBuf.plain : NetBuf → Bool
  | .interest | .uninterest | .piece .. | .torrentData _ => false
  | _ => true

theorem NetBuf.tells_of_plain {nb : NetBuf} (plain : nb.plain = true) : nb.tells = none := by
  cases nb <;> first | rfl | cases plain

/-- Every piece header in a queue is followed by its data. -/
def Paired (outq : List NetBuf) : Prop :=
  ∀ k index begin length, outq[k]? = some (.piece index begin length) →
    ∃ data, outq[k + 1]? = some (.torrentData data)

namespace Paired

variable {outq : List NetBuf}

theorem append {nb : NetBuf} (paired : Paired outq)
    (lone : ∀ index begin length, nb ≠ .piece index begin length) : Paired (outq ++ [nb]) := by
  intro k index begin length found
  rcases Nat.lt_trichotomy k outq.length with inside | last | beyond
  · rw [List.getElem?_append_left inside] at found
    obtain ⟨len, data⟩ := paired k index begin length found
    have : k + 1 < outq.length := (List.getElem?_eq_some_iff.mp data).1
    exact ⟨len, by rw [List.getElem?_append_left this, data]⟩
  · subst last
    rw [List.getElem?_append_right (Nat.le_refl _), Nat.sub_self] at found
    cases found
    exact absurd rfl (lone index begin length)
  · rw [List.getElem?_eq_none (by simp; omega)] at found
    cases found

theorem append_plain {nb : NetBuf} (paired : Paired outq) (plain : nb.plain = true) :
    Paired (outq ++ [nb]) :=
  paired.append fun _ _ _ piece => by
    rw [piece] at plain
    cases plain

theorem tail {nb : NetBuf} (paired : Paired (nb :: outq)) : Paired outq :=
  fun k index begin length found => paired (k + 1) index begin length found

theorem append_piece {index begin length : Nat} {data : Option (List UInt8)}
    (paired : Paired outq) :
    Paired (outq ++ [.piece index begin length] ++ [.torrentData data]) := by
  intro k index' begin' length' found
  rcases Nat.lt_trichotomy k outq.length with inside | last | beyond
  · rw [List.append_assoc, List.getElem?_append_left inside] at found
    obtain ⟨len', data⟩ := paired k _ _ _ found
    have : k + 1 < outq.length := (List.getElem?_eq_some_iff.mp data).1
    exact ⟨len', by rw [List.append_assoc, List.getElem?_append_left this, data]⟩
  · exact ⟨data, by subst last; simp⟩
  · obtain ⟨inside, getEq⟩ := List.getElem?_eq_some_iff.mp found
    have : k = outq.length + 1 := by simp at inside; omega
    subst this
    simp at getEq

theorem eraseIdx {k : Nat} {nb : NetBuf} (paired : Paired outq) (found : outq[k]? = some nb)
    (lone : ∀ len, nb ≠ .torrentData len) : Paired (outq.eraseIdx k) := by
  intro i index begin length header
  rw [List.getElem?_eraseIdx] at header ⊢
  split at header
  · rename_i before
    obtain ⟨len, data⟩ := paired i index begin length header
    have : i + 1 ≠ k := by
      rintro rfl
      rw [data] at found
      cases found
      exact lone len rfl
    exact ⟨len, by rw [if_pos (by omega), data]⟩
  · rename_i after
    obtain ⟨len, data⟩ := paired (i + 1) index begin length header
    exact ⟨len, by rw [if_neg (by omega), data]⟩

theorem eraseIdx_plain {k : Nat} {nb : NetBuf} (paired : Paired outq)
    (found : outq[k]? = some nb) (plain : nb.plain = true) : Paired (outq.eraseIdx k) :=
  paired.eraseIdx found fun len data => by
    rw [data] at plain
    cases plain

theorem fills {outq' : List NetBuf} (paired : Paired outq)
    (fills : List.Forall₂ Peer.Fills outq outq') : Paired outq' := by
  have sameAt : ∀ (k : Nat) (nb' : NetBuf), outq'[k]? = some nb' →
      ∃ nb, outq[k]? = some nb ∧ Peer.Fills nb nb' := by
    intro k nb' found
    obtain ⟨inside, getEq⟩ := List.getElem?_eq_some_iff.mp found
    have inside' : k < outq.length := fills.length_eq ▸ inside
    subst getEq
    exact ⟨outq[k], List.getElem?_eq_getElem inside', fills.get inside' inside⟩
  intro k index begin length header
  obtain ⟨nb, found, filled⟩ := sameAt k _ header
  cases filled
  obtain ⟨data, follows⟩ := paired k index begin length found
  have inside : k + 1 < outq.length := (List.getElem?_eq_some_iff.mp follows).1
  have inside' : k + 1 < outq'.length := fills.length_eq ▸ inside
  obtain ⟨nb', found', filled'⟩ := sameAt (k + 1) _ (List.getElem?_eq_getElem inside')
  rw [follows] at found'
  cases found'
  rw [List.getElem?_eq_getElem inside']
  generalize outq'[k + 1] = nb' at filled'
  cases filled' with
  | same => exact ⟨data, rfl⟩
  | fill filled => exact ⟨some filled, rfl⟩

/-- A piece header goes together with its data. -/
theorem eraseIdx_piece {k index begin length : Nat} (paired : Paired outq)
    (found : outq[k]? = some (.piece index begin length)) :
    Paired ((outq.eraseIdx k).eraseIdx k) := by
  obtain ⟨len, follows⟩ := paired k index begin length found
  intro i index' begin' length' header
  have shift : ∀ j, ((outq.eraseIdx k).eraseIdx k)[j]? =
      if j < k then outq[j]? else outq[j + 2]? := by
    intro j
    rw [List.getElem?_eraseIdx]
    split
    · rw [List.getElem?_eraseIdx, if_pos (by omega)]
    · rw [List.getElem?_eraseIdx, if_neg (by omega)]
  rw [shift] at header ⊢
  split at header
  · rename_i before
    obtain ⟨len', data⟩ := paired i _ _ _ header
    have : i + 1 ≠ k := by
      rintro rfl
      rw [data] at found
      cases found
    exact ⟨len', by rw [if_pos (by omega), data]⟩
  · rename_i after
    obtain ⟨len', data⟩ := paired (i + 2) _ _ _ header
    exact ⟨len', by rw [if_neg (by omega), data]⟩

end Paired

namespace Peer

/-- What a peer has been told or will be told by its queue, oldest first. -/
def interestLog (peer : Peer) : List Bool := (peer.sent ++ peer.outq).filterMap NetBuf.tells

/-- The last thing it is told; initially it takes us as not interested. -/
def toldInterest (peer : Peer) : Bool := peer.interestLog.getLastD false

/-- The flags of a peer agree with its counters and with what it is told.  A
peer may still be marked for a deferred UNINTEREST without requests. -/
structure Interested (peer : Peer) : Prop where
  wanted : peer.iWant = true ↔ 0 < peer.nwant
  deferred : peer.doUnwant = true → peer.nwant = 0
  pending : peer.suspect = false → peer.nwant = 0 → 0 < peer.nreqsOut → peer.doUnwant = true
  told : peer.toldInterest = true ↔
    (0 < peer.nwant ∧ peer.suspect = false) ∨ peer.doUnwant = true
  alternates : (false :: peer.interestLog).IsChain (· ≠ ·)
  suspicious : peer.suspect = true ↔ 3 ≤ peer.suspicion
  paired : Paired peer.outq

/-- The condition between routines: a deferred UNINTEREST waits for requests. -/
structure Settled (peer : Peer) : Prop extends Interested peer where
  waiting : peer.doUnwant = true → 0 < peer.nreqsOut

/-! ## The log under the queue operations -/

theorem isChain_append_iff {log : List Bool} {b : Bool} :
    (false :: (log ++ [b])).IsChain (· ≠ ·) ↔
      (false :: log).IsChain (· ≠ ·) ∧ log.getLastD false ≠ b := by
  rw [← List.cons_append, List.isChain_append]
  cases log with
  | nil => simp
  | cons x log => simp [List.getLast?_cons]

variable {peer : Peer}

theorem interestLog_append {nb : NetBuf} :
    ({ peer with outq := peer.outq ++ [nb] } : Peer).interestLog =
      peer.interestLog ++ nb.tells.toList := by
  cases told : nb.tells <;> simp [interestLog, told]

theorem filterMap_eraseIdx {outq : List NetBuf} {k : Nat} {nb : NetBuf}
    (found : outq[k]? = some nb) (silent : nb.tells = none) :
    (outq.eraseIdx k).filterMap NetBuf.tells = outq.filterMap NetBuf.tells := by
  induction outq generalizing k with
  | nil => rfl
  | cons x outq ih =>
      cases k with
      | zero =>
          cases found
          rw [List.eraseIdx_cons_zero, List.filterMap_cons_none silent]
      | succ k =>
          rw [List.eraseIdx_cons_succ, List.filterMap_cons, List.filterMap_cons, ih found]

theorem interestLog_eraseIdx {k count : Nat} {nb : NetBuf} (found : peer.outq[k]? = some nb)
    (silent : nb.tells = none) :
    ({ peer with outq := peer.outq.eraseIdx k, npieceMsgs := count } : Peer).interestLog =
      peer.interestLog := by
  simp [interestLog, filterMap_eraseIdx found silent]

/-- Taking back the UNINTEREST at the end of the queue. -/
theorem interestLog_of_getLast (last : peer.outq.getLast? = some .uninterest) (count : Nat) :
    peer.interestLog =
      ({ peer with
        outq := peer.outq.eraseIdx (peer.outq.length - 1)
        npieceMsgs := count } : Peer).interestLog ++ [false] := by
  obtain ⟨front, outqEq⟩ := List.getLast?_eq_some_iff.mp last
  have erased : (front ++ [NetBuf.uninterest]).eraseIdx front.length = front := by
    rw [List.eraseIdx_append_of_length_le (Nat.le_refl _)]
    simp
  simp [interestLog, outqEq, NetBuf.tells, erased]

/-- The invariant only looks at the counters, four flags and the log. -/
theorem Interested.congr {peer' : Peer} (kept : peer.Interested)
    (iWant : peer'.iWant = peer.iWant) (nwant : peer'.nwant = peer.nwant)
    (doUnwant : peer'.doUnwant = peer.doUnwant) (suspect : peer'.suspect = peer.suspect)
    (suspicion : peer'.suspicion = peer.suspicion)
    (reqs : 0 < peer'.nreqsOut → 0 < peer.nwant ∨ 0 < peer.nreqsOut)
    (log : peer'.interestLog = peer.interestLog) (paired : Paired peer'.outq) :
    peer'.Interested where
  wanted := by rw [iWant, nwant]; exact kept.wanted
  deferred := by rw [doUnwant, nwant]; exact kept.deferred
  pending := by
    rw [suspect, nwant, doUnwant]
    intro trusted unwanted out
    exact kept.pending trusted unwanted ((reqs out).resolve_left (by omega))
  told := by
    rw [toldInterest, log, nwant, suspect, doUnwant]
    exact kept.told
  alternates := by rw [log]; exact kept.alternates
  suspicious := by rw [suspect, suspicion]; exact kept.suspicious
  paired := paired

theorem Settled.congr {peer' : Peer} (kept : peer.Settled)
    (iWant : peer'.iWant = peer.iWant) (nwant : peer'.nwant = peer.nwant)
    (doUnwant : peer'.doUnwant = peer.doUnwant) (suspect : peer'.suspect = peer.suspect)
    (suspicion : peer'.suspicion = peer.suspicion) (reqs : peer'.nreqsOut = peer.nreqsOut)
    (log : peer'.interestLog = peer.interestLog) (paired : Paired peer'.outq) :
    peer'.Settled :=
  { kept.toInterested.congr iWant nwant doUnwant suspect suspicion
      (fun out => .inr (reqs ▸ out)) log paired with
    waiting := by rw [doUnwant, reqs]; exact kept.waiting }

/-! ## Each routine of a peer keeps the agreement -/

/-- The assertions that speak of our interest. -/
def interestFaults : List Fault :=
  [.wantDoUnwantSet, .wantDoUnwantClear, .noReqsWanted, .goodPieceUnwanted]

section

variable {index : Nat}

/-- A peer that is told the truth by a message that is sent now. -/
theorem Interested.send_tells (peer : Peer) (nb : NetBuf) {b : Bool} (tells : nb.tells = some b)
    (changed : peer.toldInterest ≠ b) (alternates : (false :: peer.interestLog).IsChain (· ≠ ·))
    (wanted : peer.iWant = true ↔ 0 < peer.nwant)
    (deferred : peer.doUnwant = true → peer.nwant = 0)
    (pending : peer.suspect = false → peer.nwant = 0 → 0 < peer.nreqsOut → peer.doUnwant = true)
    (truth : b = true ↔ (0 < peer.nwant ∧ peer.suspect = false) ∨ peer.doUnwant = true)
    (suspicious : peer.suspect = true ↔ 3 ≤ peer.suspicion) (paired : Paired peer.outq) :
    ({ peer with outq := peer.outq ++ [nb] } : Peer).Interested := by
  have logEq : ({ peer with outq := peer.outq ++ [nb] } : Peer).interestLog =
      peer.interestLog ++ [b] := by
    rw [interestLog_append, tells, Option.toList_some]
  exact
    { wanted := wanted
      deferred := deferred
      pending := pending
      told := by
        rw [toldInterest, logEq, List.getLastD_concat]
        exact truth
      alternates := by
        rw [logEq]
        exact isChain_append_iff.mpr ⟨alternates, changed⟩
      suspicious := suspicious
      paired := paired.append fun _ _ _ piece => by
        rw [piece] at tells
        cases tells }

theorem interestLog_send {nb : NetBuf} (plain : nb.plain = true) :
    ({ peer with outq := peer.outq ++ [nb] } : Peer).interestLog = peer.interestLog := by
  rw [interestLog_append, NetBuf.tells_of_plain plain, Option.toList_none, List.append_nil]

theorem send_settled {nb : NetBuf} (kept : peer.Settled) (plain : nb.plain = true) :
    Prog.Ends (· ∉ interestFaults) (peer.send nb) Settled :=
  ends_send (by decide) (kept.congr rfl rfl rfl rfl rfl rfl (interestLog_send plain)
    (kept.paired.append_plain plain))

theorem unsendAt_settled {k : Nat} (kept : peer.Settled)
    (plain : ∀ nb, peer.outq[k]? = some nb → nb.plain = true) :
    Prog.Ends (· ∉ interestFaults) (peer.unsendAt k) fun result => result.2.Settled := by
  refine ends_unsendAt (by decide) (by decide) (fun _ => kept) fun nb count _ found => ?_
  exact kept.congr rfl rfl rfl rfl rfl rfl
    (interestLog_eraseIdx found (NetBuf.tells_of_plain (plain nb found)))
    (kept.paired.eraseIdx_plain found (plain nb found))

/-- A count that stays above zero changes nothing else. -/
theorem Settled.recount {count : Nat} (kept : peer.Settled) (before : 0 < peer.nwant)
    (after : 0 < count) : ({ peer with nwant := count } : Peer).Settled := by
  have notDeferred : peer.doUnwant = false := by
    by_contra deferred
    have := kept.deferred (by simpa using deferred)
    omega
  have wanted := kept.wanted.mpr before
  have told := kept.told
  simp only [before, true_and, notDeferred] at told
  exact
    { wanted := by simp [wanted, after]
      deferred := by simp [notDeferred]
      pending := fun _ zero => absurd zero (Nat.ne_of_gt after)
      told := by
        show peer.toldInterest = true ↔
          (0 < count ∧ peer.suspect = false) ∨ peer.doUnwant = true
        simpa [after, notDeferred] using told
      alternates := kept.alternates
      suspicious := kept.suspicious
      paired := kept.paired
      waiting := by simp [notDeferred] }

/-- A trusted peer without requests that we start to want. -/
theorem becomeWanted_settled (kept : peer.Settled) (zero : peer.nwant = 0)
    (trusted : peer.suspect = false) (notDeferred : peer.doUnwant = false) :
    Prog.Ends (· ∉ interestFaults)
      (let wanted := { peer with nwant := 1, iWant := true }
       if wanted.outq.getLast? = some .uninterest then do
         let (unsent, peer') ← wanted.unsendAt (wanted.outq.length - 1)
         if unsent then .ok peer' else peer'.send .interest
       else wanted.send .interest) Settled := by
  have toldFalse : peer.toldInterest = false := by
    have told := kept.told
    simp only [zero, Nat.lt_irrefl, false_and, notDeferred, Bool.false_eq_true, or_false,
      iff_false] at told
    simpa using told
  have sent : Prog.Ends (· ∉ interestFaults)
      (({ peer with nwant := 1, iWant := true } : Peer).send .interest) Settled := by
    refine ends_send (by decide) ?_
    have interested := Interested.send_tells
      { peer with nwant := 1, iWant := true } .interest rfl
      (by show peer.toldInterest ≠ true; simp [toldFalse]) kept.alternates (by simp) (by simp [notDeferred]) (by simp) (by simp [trusted])
      kept.suspicious kept.paired
    exact { interested with waiting := by simp [notDeferred] }
  dsimp only
  split
  · rename_i last
    refine Prog.ends_between (fun result =>
      result = (false, ({ peer with nwant := 1, iWant := true } : Peer)) ∨
        ∃ count, result = (true, { peer with
          nwant := 1, iWant := true
          outq := peer.outq.eraseIdx (peer.outq.length - 1)
          npieceMsgs := count }))
      (ends_unsendAt (by decide) (by decide) (fun _ => .inl rfl)
        fun nb count _ found => .inr ⟨count, rfl⟩) ?_
    rintro _ (rfl | ⟨count, rfl⟩)
    · exact sent
    · -- the UNINTEREST that is taken back was preceded by an INTEREST
      have logEq := interestLog_of_getLast last count
      have alternates := kept.alternates
      rw [logEq] at alternates
      obtain ⟨alternates, changed⟩ := isChain_append_iff.mp alternates
      exact
        { wanted := by simp
          deferred := by simp [notDeferred]
          pending := by simp
          told := by
            have told : _ = true := eq_true_of_ne_false changed
            exact iff_of_true told (.inl ⟨Nat.one_pos, trusted⟩)
          alternates := alternates
          suspicious := kept.suspicious
          paired := kept.paired.eraseIdx (List.getLast?_eq_getElem? ▸ last) (by simp)
          waiting := by simp [notDeferred] }
  · exact sent

/-- `peer_want` keeps the agreement, unless the peer is suspect and still marked
for a deferred UNINTEREST. -/
theorem want_settled (kept : peer.Settled)
    (safe : ¬ (peer.requestable index = true ∧ peer.nwant = 0 ∧ peer.suspect = true ∧
      peer.doUnwant = true)) :
    Prog.Ends (· ∉ interestFaults) (peer.want index) Settled := by
  unfold want
  split
  · exact kept
  rename_i has
  split
  · simp [interestFaults]
  dsimp only
  split
  · rename_i more
    exact kept.recount (by omega) (by omega)
  rename_i one
  have zero : peer.nwant = 0 := by omega
  simp only [zero, Nat.zero_add]
  split
  · rename_i suspect
    have notDeferred : peer.doUnwant = false := by
      by_contra deferred
      exact safe ⟨by simpa [requestable] using has, zero, suspect, by simpa using deferred⟩
    have told := kept.told
    simp only [zero, Nat.lt_irrefl, false_and, false_or] at told
    exact
      { wanted := by simp
        deferred := by simp [notDeferred]
        pending := by simp
        told := by
          show peer.toldInterest = true ↔ (0 < 1 ∧ peer.suspect = false) ∨ peer.doUnwant = true
          simpa [suspect] using told
        alternates := kept.alternates
        suspicious := kept.suspicious
        paired := kept.paired
        waiting := kept.waiting }
  rename_i trusted
  replace trusted : peer.suspect = false := by simpa using trusted
  split
  · rename_i noReqs
    have notDeferred : peer.doUnwant = false := by
      by_contra deferred
      have := kept.waiting (by simpa using deferred)
      omega
    rw [if_neg (by simp [notDeferred])]
    exact becomeWanted_settled kept zero trusted notDeferred
  · rename_i reqs
    have deferred : peer.doUnwant = true := kept.pending trusted zero (Nat.pos_of_ne_zero reqs)
    simp only [deferred, if_true]
    exact
      { wanted := by simp
        deferred := by simp
        pending := by simp
        told := iff_of_true (kept.told.mpr (.inr deferred)) (.inl ⟨Nat.one_pos, trusted⟩)
        alternates := kept.alternates
        suspicious := kept.suspicious
        paired := kept.paired
        waiting := by simp }

/-- `peer_unwant` keeps the agreement. -/
theorem unwant_settled (kept : peer.Settled) :
    Prog.Ends (· ∉ interestFaults) (peer.unwant index) Settled := by
  unfold unwant
  split
  · exact kept
  split
  · simp [interestFaults]
  rename_i positive
  have before : 0 < peer.nwant := Nat.pos_of_ne_zero positive
  have notDeferred : peer.doUnwant = false := by
    by_contra deferred
    exact positive (kept.deferred (by simpa using deferred))
  dsimp only
  split
  · rename_i more
    exact kept.recount before (Nat.pos_of_ne_zero more)
  rename_i last
  have zero : peer.nwant - 1 = 0 := by simpa using last
  simp only [zero]
  have told := kept.told
  simp only [before, true_and, notDeferred, Bool.false_eq_true, or_false] at told
  split
  · rename_i suspect
    exact
      { wanted := by simp
        deferred := by simp
        pending := by simp [suspect]
        told := by
          show peer.toldInterest = true ↔ (0 < 0 ∧ peer.suspect = false) ∨ peer.doUnwant = true
          simpa [suspect, notDeferred] using told
        alternates := kept.alternates
        suspicious := kept.suspicious
        paired := kept.paired
        waiting := kept.waiting }
  rename_i trusted
  replace trusted : peer.suspect = false := by simpa using trusted
  simp only [trusted, iff_true] at told
  split
  · rename_i noReqs
    refine ends_send (by decide) ?_
    have interested := Interested.send_tells
      { peer with nwant := 0, iWant := false } .uninterest rfl
      (by show peer.toldInterest ≠ false; simp [told]) kept.alternates (by simp) (by simp)
      (by simp [noReqs]) (by simp [notDeferred]) kept.suspicious kept.paired
    exact { interested with waiting := by simp [notDeferred] }
  · rename_i reqs
    exact
      { wanted := by simp
        deferred := by simp
        pending := by simp
        told := iff_of_true told (.inr rfl)
        alternates := kept.alternates
        suspicious := kept.suspicious
        paired := kept.paired
        waiting := fun _ => Nat.pos_of_ne_zero reqs }

/-- `peer_on_no_reqs` settles a deferred UNINTEREST once no request is out. -/
theorem onNoReqs_settled (kept : peer.Interested) (idle : peer.nreqsOut = 0) :
    Prog.Ends (· ∉ interestFaults) peer.onNoReqs Settled := by
  unfold onNoReqs
  split
  · rename_i deferred
    have zero := kept.deferred deferred
    rw [if_pos zero]
    refine ends_send (by decide) ?_
    have interested := Interested.send_tells
      { peer with doUnwant := false } .uninterest rfl
      (by show peer.toldInterest ≠ false; simp [kept.told.mpr (.inr deferred)])
      kept.alternates kept.wanted (by simp) (by simp [idle]) (by simp [zero]) kept.suspicious
      kept.paired
    exact { interested with waiting := by simp }
  · rename_i notDeferred
    exact { kept with waiting := fun deferred => absurd deferred notDeferred }

/-- What follows every removed request. -/
theorem checkNoReqs_settled (kept : peer.Interested) :
    Prog.Ends (· ∉ interestFaults) peer.checkNoReqs Settled := by
  unfold checkNoReqs
  split
  · rename_i idle
    exact onNoReqs_settled kept idle
  · rename_i busy
    exact { kept with waiting := fun _ => Nat.pos_of_ne_zero busy }

/-- A request goes to a peer that we want or that has requests already. -/
theorem request_settled {req : BlockRequest} (kept : peer.Settled)
    (engaged : peer.iWant = true ∨ 0 < peer.nreqsOut) :
    Prog.Ends (· ∉ interestFaults) (peer.request req) Settled := by
  unfold request
  split
  · refine ends_send (by decide) ?_
    have interested : ({ peer with
        nreqsOut := peer.nreqsOut + 1
        myReqs := peer.myReqs ++ [req]
        outq := peer.outq ++ [.request req.msg] } : Peer).Interested := by
      refine kept.toInterested.congr rfl rfl rfl rfl rfl
        (fun _ => engaged.imp_left kept.wanted.mp) ?_
        (kept.paired.append_plain rfl)
      show List.filterMap _ _ = List.filterMap _ _
      simp [NetBuf.tells]
    exact { interested with waiting := fun _ => Nat.succ_pos _ }
  · simp [interestFaults]

theorem unlink_interested {req : BlockRequest} (kept : peer.Interested) :
    Prog.Ends (· ∉ interestFaults) (peer.unlink req) Interested :=
  ends_unlink (by decide) fun _ =>
    kept.congr rfl rfl rfl rfl rfl (fun out => .inr (Nat.lt_of_lt_of_le out (Nat.sub_le _ _))) rfl
      kept.paired

theorem unsendAt_interested {k : Nat} (kept : peer.Interested)
    (plain : ∀ nb, peer.outq[k]? = some nb → nb.plain = true) :
    Prog.Ends (· ∉ interestFaults) (peer.unsendAt k)
      fun result : Bool × Peer => result.2.Interested := by
  refine ends_unsendAt (by decide) (by decide) (fun _ => kept) fun nb count _ found => ?_
  exact kept.congr rfl rfl rfl rfl rfl .inr
    (interestLog_eraseIdx found (NetBuf.tells_of_plain (plain nb found)))
    (kept.paired.eraseIdx_plain found (plain nb found))

theorem send_interested {nb : NetBuf} (kept : peer.Interested) (plain : nb.plain = true) :
    Prog.Ends (· ∉ interestFaults) (peer.send nb) Interested :=
  ends_send (by decide) (kept.congr rfl rfl rfl rfl rfl .inr (interestLog_send plain)
    (kept.paired.append_plain plain))

theorem cancel_settled {req : BlockRequest} {index begin length : Nat} (kept : peer.Settled) :
    Prog.Ends (· ∉ interestFaults) (peer.cancel req (.cancel index begin length)) Settled := by
  unfold cancel
  refine Prog.ends_seq (unlink_interested kept.toInterested) fun peer' kept' => ?_
  refine Prog.ends_between (fun result : Bool × Peer => result.2.Interested) ?_ ?_
  · unfold takeBack
    split
    · rename_i k found
      refine unsendAt_interested kept' fun nb getEq => ?_
      rw [eq_of_findIdx found] at getEq
      cases getEq
      rfl
    · exact kept'
  rintro ⟨removed, peer''⟩ kept''
  dsimp only
  split
  · exact checkNoReqs_settled kept''
  · exact Prog.ends_seq (send_interested kept'' rfl) fun _ kept => checkNoReqs_settled kept

/-- `peer_bad_piece` keeps the agreement: a peer that becomes suspect is told
that we have lost interest. -/
theorem badPiece_settled (kept : peer.Settled) :
    Prog.Ends (· ∉ interestFaults) (peer.badPiece index) Settled := by
  have notDeferred : 0 < peer.nwant → peer.doUnwant = false := by
    intro positive
    by_contra deferred
    exact Nat.ne_of_gt positive (kept.deferred (by simpa using deferred))
  have allocated : Prog.Ends (· ∉ interestFaults) peer.allocBadField fun _ => True := by
    unfold allocBadField
    split <;> split <;> simp [interestFaults]
  unfold badPiece
  refine Prog.ends_seq allocated fun bad _ => ?_
  split
  · simp [interestFaults]
  dsimp only
  split
  · rename_i third
    have trusted : peer.suspect = false := by
      by_contra suspect
      have := kept.suspicious.mp (by simpa using suspect)
      omega
    split
    · rename_i positive
      refine ends_send (by decide) ?_
      have interested := Interested.send_tells
        { peer with
          badField := some (setBit bad index), npcsBad := peer.npcsBad + 1
          suspicion := peer.suspicion + 1, suspect := true, doUnwant := false }
        .uninterest rfl
        (by show peer.toldInterest ≠ false; simp [kept.told.mpr (.inl ⟨positive, trusted⟩)])
        kept.alternates kept.wanted (by simp) (by simp) (by simp) (by simp; omega) kept.paired
      exact { interested with waiting := by simp }
    · rename_i zero
      have told := kept.told
      simp only [zero, false_and, false_or] at told
      exact
        { wanted := kept.wanted
          deferred := kept.deferred
          pending := by simp
          told := by
            show peer.toldInterest = true ↔
              (0 < peer.nwant ∧ true = false) ∨ peer.doUnwant = true
            simpa using told
          alternates := kept.alternates
          suspicious := by simp; omega
          paired := kept.paired
          waiting := kept.waiting }
  · rename_i notThird
    exact
      { wanted := kept.wanted
        deferred := kept.deferred
        pending := kept.pending
        told := kept.told
        alternates := kept.alternates
        suspicious := by
          have := kept.suspicious
          simp only [this]
          omega
        paired := kept.paired
        waiting := kept.waiting }

/-- `peer_good_piece` keeps the agreement, unless it clears a suspect peer that
we do not want, that has requests out and that is not marked for a deferred
UNINTEREST. -/
theorem goodPiece_settled (kept : peer.Settled)
    (safe : ¬ (peer.suspect = true ∧ peer.nwant = 0 ∧ 0 < peer.nreqsOut ∧
      peer.doUnwant = false)) :
    Prog.Ends (· ∉ interestFaults) (peer.goodPiece index) fun result => result.2.Settled := by
  unfold goodPiece
  refine Prog.ends_between (fun peer' : Peer => peer'.Settled ∧
    peer'.suspect = peer.suspect ∧ peer'.nwant = peer.nwant ∧
    peer'.nreqsOut = peer.nreqsOut ∧ peer'.doUnwant = peer.doUnwant) ?_ ?_
  · unfold clearBad
    split
    · split
      · simp [interestFaults]
      · split <;>
          exact ⟨kept.congr rfl rfl rfl rfl rfl rfl rfl kept.paired, rfl, rfl, rfl, rfl⟩
    · exact ⟨kept, rfl, rfl, rfl, rfl⟩
  rintro peer' ⟨kept', suspectEq, nwantEq, reqsEq, doUnwantEq⟩
  rw [← suspectEq, ← nwantEq, ← reqsEq, ← doUnwantEq] at safe
  dsimp only
  split
  · rename_i suspect
    split
    · rename_i positive
      have notDeferred : peer'.doUnwant = false := by
        by_contra deferred
        exact Nat.ne_of_gt positive (kept'.deferred (by simpa using deferred))
      rw [if_pos (kept'.wanted.mpr positive)]
      refine Prog.ends_between Settled (ends_send (by decide) ?_) fun _ kept => kept
      have toldFalse : peer'.toldInterest ≠ true := by
        intro told
        rcases kept'.told.mp told with ⟨-, trusted⟩ | deferred
        · simp [suspect] at trusted
        · simp [notDeferred] at deferred
      have interested := Interested.send_tells
        { peer' with suspicion := 0, suspect := false } .interest rfl
        toldFalse kept'.alternates kept'.wanted kept'.deferred
        (fun _ zero => absurd zero (Nat.ne_of_gt positive)) (by simp [positive]) (by simp)
        kept'.paired
      exact { interested with waiting := kept'.waiting }
    · rename_i zero
      have told := kept'.told
      simp only [zero, false_and, false_or] at told
      exact
        { wanted := kept'.wanted
          deferred := kept'.deferred
          pending := by
            intro _ unwanted out
            by_contra notDeferred
            exact safe ⟨suspect, unwanted, out, by simpa using notDeferred⟩
          told := by
            show peer'.toldInterest = true ↔
              (0 < peer'.nwant ∧ false = false) ∨ peer'.doUnwant = true
            simpa [zero] using told
          alternates := kept'.alternates
          suspicious := by simp
          paired := kept'.paired
          waiting := kept'.waiting }
  · rename_i trusted
    exact
      { wanted := kept'.wanted
        deferred := kept'.deferred
        pending := kept'.pending
        told := kept'.told
        alternates := kept'.alternates
        suspicious := by simpa using trusted
        paired := kept'.paired
        waiting := kept'.waiting }

/-! ## Uploading and writing -/

theorem unchoke_settled (kept : peer.Settled) :
    Prog.Ends (· ∉ interestFaults) peer.unchoke Settled :=
  send_settled (kept.congr rfl rfl rfl rfl rfl rfl rfl kept.paired) rfl

/-- A piece header and its data are taken back, or neither of them. -/
theorem unsendPiece_settled {k begin length : Nat} (kept : peer.Settled)
    (found : peer.outq[k]? = some (.piece index begin length)) :
    Prog.Ends (· ∉ interestFaults) (peer.unsendAt k) fun result =>
      if result.1 = true then
        Prog.Ends (· ∉ interestFaults) (result.2.unsendAt k) fun result' => result'.2.Settled
      else result.2.Settled := by
  obtain ⟨len, follows⟩ := kept.paired k index begin length found
  refine ends_unsendAt (by decide) (by decide) (fun _ => by simpa using kept) ?_
  intro nb count free _
  have data : (peer.outq.eraseIdx k)[k]? = some (.torrentData len) := by
    rw [List.getElem?_eraseIdx, if_neg (Nat.lt_irrefl k), follows]
  rw [if_pos rfl]
  refine ends_unsendAt (by decide) (by decide) (fun pinned => absurd pinned free) ?_
  intro nb' count' _ _
  refine kept.congr rfl rfl rfl rfl rfl rfl ?_ (kept.paired.eraseIdx_piece found)
  calc
    _ = ({ peer with
          outq := peer.outq.eraseIdx k, npieceMsgs := count } : Peer).interestLog :=
      interestLog_eraseIdx data rfl
    _ = peer.interestLog := interestLog_eraseIdx found rfl

theorem unsendPieces_settled (fuel k : Nat) (kept : peer.Settled) :
    Prog.Ends (· ∉ interestFaults) (unsendPieces fuel k peer) Settled := by
  induction fuel generalizing k peer with
  | zero => simp [unsendPieces, interestFaults]
  | succ fuel ih =>
      unfold unsendPieces
      split
      · exact kept
      · rename_i found
        split
        · simp [interestFaults]
        refine Prog.ends_seq (unsendPiece_settled kept found) ?_
        rintro ⟨removed, peer'⟩ result
        dsimp only at result ⊢
        split
        · rename_i isRemoved
          rw [if_pos isRemoved] at result
          exact Prog.ends_seq result fun _ kept' => ih _ kept'
        · rename_i notRemoved
          rw [if_neg notRemoved] at result
          exact ih _ result
      · exact ih _ kept

theorem choke_settled (kept : peer.Settled) :
    Prog.Ends (· ∉ interestFaults) peer.choke Settled :=
  Prog.ends_seq (unsendPieces_settled _ _ kept) fun _ kept' =>
    send_settled (kept'.congr rfl rfl rfl rfl rfl rfl rfl kept'.paired) rfl

theorem unsendRequests_settled (fuel k : Nat) (kept : peer.Settled) :
    Prog.Ends (· ∉ interestFaults) (unsendRequests fuel k peer) Settled := by
  induction fuel generalizing k peer with
  | zero => simp [unsendRequests, interestFaults]
  | succ fuel ih =>
      unfold unsendRequests
      split
      · exact kept
      · rename_i msg found
        refine Prog.ends_seq (unsendAt_settled kept ?_) fun result kept' => ih _ kept'
        intro nb getEq
        rw [found] at getEq
        cases getEq
        rfl
      · exact ih _ kept

theorem onRequest_settled {begin length : Nat} (kept : peer.Settled) :
    Prog.Ends (· ∉ interestFaults) (peer.onRequest index begin length) Settled := by
  unfold onRequest
  split
  · exact kept
  refine Prog.ends_between (fun peer' =>
    peer' = { peer with outq := peer.outq ++ [.piece index begin length] })
    (ends_send (by decide) rfl) ?_
  rintro _ rfl
  refine Prog.ends_between Settled (ends_send (by decide) ?_) fun peer kept => ?_
  · refine kept.congr rfl rfl rfl rfl rfl rfl ?_ kept.paired.append_piece
    simp [interestLog, NetBuf.tells]
  have counted : ({ peer with npieceMsgs := peer.npieceMsgs + 1 } : Peer).Settled :=
    kept.congr rfl rfl rfl rfl rfl rfl rfl kept.paired
  dsimp only
  split
  · refine Prog.ends_seq (send_settled counted rfl) fun _ kept => ?_
    refine Prog.ends_seq (send_settled kept rfl) fun _ kept => ?_
    exact kept.congr rfl rfl rfl rfl rfl rfl rfl kept.paired
  · exact counted

theorem onCancel_settled {begin length : Nat} (kept : peer.Settled) :
    Prog.Ends (· ∉ interestFaults) (peer.onCancel index begin length) Settled := by
  unfold onCancel
  split
  · exact kept
  rename_i k found
  refine Prog.ends_seq (unsendPiece_settled kept (eq_of_findIdx found)) ?_
  rintro ⟨removed, peer'⟩ result
  dsimp only at result ⊢
  split
  · rename_i isRemoved
    rw [if_pos isRemoved] at result
    exact Prog.ends_seq result fun _ kept' => kept'
  · rename_i notRemoved
    rw [if_neg notRemoved] at result
    exact result

theorem filterMap_fills {outq outq' : List NetBuf} (fills : List.Forall₂ Fills outq outq') :
    outq'.filterMap NetBuf.tells = outq.filterMap NetBuf.tells := by
  induction fills with
  | nil => rfl
  | cons first _ ih =>
      cases first with
      | same nb => rw [List.filterMap_cons, List.filterMap_cons, ih]
      | fill data => exact ih

theorem written_settled {bcount : Nat} (outq : List NetBuf)
    (kept : ({ peer with outq := outq } : Peer).Settled) :
    Prog.Ends (· ∉ interestFaults) (peer.written bcount outq)
      fun result => result.2.Settled := by
  induction outq generalizing peer bcount with
  | nil => exact kept
  | cons nb outq ih =>
      unfold written
      split
      · exact kept
      dsimp only
      split
      · refine Prog.ends_between (fun peer' =>
          ∃ count flag, peer' = { peer with npieceMsgs := count, noRequests := flag })
          (ends_noteSent (by decide) fun count flag => ⟨count, flag, rfl⟩) ?_
        rintro _ ⟨count, flag, rfl⟩
        refine Prog.ends_seq (ih ?_) fun _ kept' => kept'
        refine kept.congr rfl rfl rfl rfl rfl rfl ?_ kept.paired.tail
        simp [interestLog]
      · exact kept.congr rfl rfl rfl rfl rfl rfl rfl kept.paired

theorem netWrite_settled {readBlock : Nat → Nat → Nat → List UInt8}
    {bytes : NetBuf → List UInt8} {wmax nwritten : Nat}
    (kept : peer.Settled) :
    Prog.Ends (· ∉ interestFaults) (peer.netWrite readBlock bytes wmax nwritten)
      fun result => result.2.Settled := by
  unfold netWrite
  dsimp only
  split
  · simp [interestFaults]
  refine Prog.ends_seq (collect_fills (by decide) _ _ _ _) ?_
  rintro ⟨total, outq⟩ fills
  refine written_settled outq (kept.congr rfl rfl rfl rfl rfl rfl ?_ (kept.paired.fills fills))
  simp [interestLog, filterMap_fills fills]

end

end Peer

end Btpd.Download
