import Btpd.Download.Line

/-!
# The steps that the routines of a peer take

Each routine of a peer takes steps of its output line, and `LineKept` collects
what an invariant of the line needs to be kept on every run.
-/

namespace Btpd.Download

open Prog (Ends Returns ends_seq ends_mono)

namespace Peer

variable {peer : Peer} {index : Nat}

open Line (Step Steps Write Writes)

/-! ## Sending and taking back -/

theorem send_line {nb : NetBuf} :
    Returns (peer.send nb) fun peer' => peer.line.Ready ∧ peer'.line = peer.line.push [nb] := by
  unfold send
  split
  · trivial
  · rename_i ready
    exact ⟨fun empty => Decidable.not_not.mp ((not_and.mp ready) empty), rfl⟩

theorem send_steps {nb : NetBuf} (remark : nb.remark = true) :
    Returns (peer.send nb) fun peer' => Steps peer.line peer'.line :=
  ends_mono send_line fun _ sent => by
    rw [sent.2]
    exact .single (.say remark sent.1)

theorem unsendAt_line {k : Nat} :
    Returns (peer.unsendAt k) fun result =>
      (result.1 = false ∧ peer.line.Begun k ∧ result.2.line = peer.line) ∨
      (result.1 = true ∧ ¬ peer.line.Begun k ∧ (∃ nb, peer.outq[k]? = some nb) ∧
        result.2.line = { peer.line with outq := peer.outq.eraseIdx k }) :=
  ends_unsendAt trivial trivial (fun begun => .inl ⟨rfl, begun, rfl⟩)
    fun nb _ free found => .inr ⟨rfl, free, ⟨nb, found⟩, rfl⟩

/-- A message that says nothing of pieces or choking is taken back. -/
theorem unsendAt_steps {k : Nat} {nb : NetBuf} (remark : nb.remark = true)
    (found : peer.outq[k]? = some nb) :
    Returns (peer.unsendAt k) fun result => Steps peer.line result.2.line := by
  refine ends_mono unsendAt_line ?_
  rintro result (⟨-, -, same⟩ | ⟨-, free, -, taken⟩)
  · rw [same]
  · rw [taken]
    exact .single (.unsay remark found free)

theorem takeBack_steps {req : ReqMsg} :
    Returns (peer.takeBack (.request req)) fun result =>
      Steps peer.line result.2.line := by
  unfold takeBack
  split
  · rename_i k found
    exact unsendAt_steps rfl (eq_of_findIdx found)
  · exact .refl

theorem onNoReqs_steps :
    Returns peer.onNoReqs fun peer' => Steps peer.line peer'.line := by
  unfold onNoReqs
  split
  · split
    · exact send_steps rfl
    · trivial
  · exact .refl

theorem checkNoReqs_steps :
    Returns peer.checkNoReqs fun peer' => Steps peer.line peer'.line := by
  unfold checkNoReqs
  split
  · exact onNoReqs_steps
  · exact .refl

/-! ## Interest and requests -/

theorem want_steps :
    Returns (peer.want index) fun peer' => Steps peer.line peer'.line := by
  unfold want
  split
  · exact .refl
  split
  · trivial
  dsimp only
  split
  · exact .refl
  split
  · exact .refl
  split
  · split
    · trivial
    split
    · rename_i last
      rw [List.getLast?_eq_getElem?] at last
      refine ends_seq (unsendAt_steps rfl last) ?_
      · rintro ⟨unsent, peer'⟩ steps
        dsimp only at steps ⊢
        split
        · exact steps
        · exact ends_mono (send_steps rfl) fun _ sent => steps.trans sent
    · exact send_steps rfl
  · split
    · exact .refl
    · trivial

theorem unwant_steps :
    Returns (peer.unwant index) fun peer' => Steps peer.line peer'.line := by
  unfold unwant
  split
  · exact .refl
  split
  · trivial
  dsimp only
  split
  · exact .refl
  split
  · exact .refl
  split
  · exact send_steps rfl
  · exact .refl

theorem request_steps {req : BlockRequest} :
    Returns (peer.request req) fun peer' => Steps peer.line peer'.line := by
  unfold request
  split
  · exact send_steps rfl
  · trivial

theorem unlink_steps {req : BlockRequest} :
    Returns (peer.unlink req) fun peer' => Steps peer.line peer'.line :=
  ends_unlink trivial fun _ => .refl

theorem cancel_steps {req : BlockRequest} {begin length : Nat} :
    Returns (peer.cancel req (.cancel index begin length)) fun peer' =>
      Steps peer.line peer'.line := by
  unfold cancel
  refine ends_seq unlink_steps fun peer₁ first => ?_
  refine ends_seq takeBack_steps ?_
  rintro ⟨removed, peer₂⟩ second
  dsimp only at second ⊢
  split
  · exact ends_mono checkNoReqs_steps fun _ third => first.trans (second.trans third)
  · refine ends_seq (send_steps rfl) fun peer₃ third => ?_
    exact ends_mono checkNoReqs_steps fun _ fourth =>
      first.trans (second.trans (third.trans fourth))

theorem badPiece_steps :
    Returns (peer.badPiece index) fun peer' => Steps peer.line peer'.line := by
  unfold badPiece
  refine ends_seq (Prog.returns_of_forall fun _ _ => trivial : Returns _ fun _ => True)
    fun bad _ => ?_
  split
  · trivial
  dsimp only
  split
  · split
    · exact send_steps rfl
    · exact .refl
  · exact .refl

theorem clearBad_line : Returns (peer.clearBad index) fun peer' => peer'.line = peer.line := by
  unfold clearBad
  split
  · split
    · trivial
    split <;> rfl
  · rfl

theorem goodPiece_steps :
    Returns (peer.goodPiece index) fun result => Steps peer.line result.2.line := by
  unfold goodPiece
  refine ends_seq clearBad_line fun peer' lineEq => ?_
  rw [← lineEq]
  dsimp only
  split
  · split
    · split
      · exact ends_seq (send_steps rfl) fun _ steps => steps
      · trivial
    · exact .refl
  · exact .refl

theorem unsendRequests_steps (fuel k : Nat) :
    Returns (peer.unsendRequests fuel k) fun peer' => Steps peer.line peer'.line := by
  induction fuel generalizing k peer with
  | zero => trivial
  | succ fuel ih =>
      unfold unsendRequests
      split
      · exact .refl
      · rename_i found
        refine ends_seq (unsendAt_steps rfl found) fun _ first => ?_
        exact ends_mono (ih _) fun _ second => first.trans second
      · exact ih _

/-! ## Blocks -/

/-- The data of a block is taken back after its header. -/
theorem unsendBlock_line {k begin length : Nat} {peer₁ : Peer}
    (found : peer.outq[k]? = some (.piece index begin length)) (free : ¬ peer.line.Begun k)
    (taken : peer₁.line = { peer.line with outq := peer.outq.eraseIdx k }) :
    Returns (peer₁.unsendAt k) fun result => Step peer.line result.2.line ∧
      result.2.line = { peer.line with outq := (peer.outq.eraseIdx k).eraseIdx k } := by
  have outqEq : peer₁.outq = peer.outq.eraseIdx k := congrArg Line.outq taken
  have offEq : peer₁.outqOff = peer.outqOff := congrArg Line.outqOff taken
  have free' : ¬ peer₁.line.Begun k := by
    show ¬ (k = 0 ∧ 0 < peer₁.outqOff)
    rw [offEq]
    exact free
  refine ends_mono unsendAt_line ?_
  rintro result (⟨-, begun, -⟩ | ⟨-, -, ⟨nb, follows⟩, taken'⟩)
  · exact absurd begun free'
  · rw [outqEq] at follows
    have inside : k < peer.outq.length := (List.getElem?_eq_some_iff.mp found).1
    have inside' := (List.getElem?_eq_some_iff.mp follows).1
    rw [List.length_eraseIdx_of_lt inside] at inside'
    have lineEq : result.2.line =
        { peer.line with outq := (peer.outq.eraseIdx k).eraseIdx k } := by
      rw [taken', taken, outqEq]
    refine ⟨?_, lineEq⟩
    rw [lineEq]
    exact .unsayBlock found (show k + 1 < peer.outq.length by omega) free

theorem onCancel_steps {begin length : Nat} :
    Returns (peer.onCancel index begin length) fun peer' =>
      Steps peer.line peer'.line := by
  unfold onCancel
  split
  · exact .refl
  · rename_i k found
    refine ends_seq unsendAt_line ?_
    rintro ⟨removed, peer₁⟩ (⟨kept, -, same⟩ | ⟨removed, free, -, taken⟩)
    · dsimp only at kept same ⊢
      rw [kept, if_neg (by decide)]
      show Steps peer.line peer₁.line
      rw [same]
    · dsimp only at removed taken ⊢
      rw [removed, if_pos rfl]
      exact ends_seq (unsendBlock_line (eq_of_findIdx found) free taken)
        fun _ both => .single both.1

/-- Every header before place `k` of the queue has begun to go out, or follows
one that has. -/
def HeadsBegun (l : Line) (k : Nat) : Prop :=
  ∀ j nb, j < k → l.outq[j]? = some nb → nb.heads = true → l.Begun j ∨
    (j = 1 ∧ ∃ first, l.outq[0]? = some first ∧ first.heads = true)

theorem unsendPieces_steps (fuel k : Nat) (before : HeadsBegun peer.line k) :
    Returns (unsendPieces fuel k peer) fun peer' =>
      Steps peer.line peer'.line ∧ ∀ m, HeadsBegun peer'.line m := by
  induction fuel generalizing k peer with
  | zero => trivial
  | succ fuel ih =>
      unfold unsendPieces
      split
      · rename_i ended
        refine ⟨.refl, fun m j nb _ found => before j nb ?_ found⟩
        have inside := (List.getElem?_eq_some_iff.mp found).1
        exact Nat.lt_of_lt_of_le inside (List.getElem?_eq_none_iff.mp ended)
      · rename_i found
        split
        · trivial
        refine ends_seq unsendAt_line ?_
        rintro ⟨removed, peer₁⟩ (⟨kept, begun, same⟩ | ⟨removed, free, -, taken⟩)
        · dsimp only at kept same ⊢
          rw [kept, if_neg (by decide)]
          have zero : k = 0 := begun.1
          subst zero
          rw [← same] at begun ⊢
          refine ih 2 fun j nb early _ _ => ?_
          have outqEq : peer₁.outq = peer.outq := congrArg Line.outq same
          rcases Nat.eq_zero_or_pos j with rfl | later
          · exact .inl begun
          · refine .inr ⟨by omega, _, show peer₁.outq[0]? = _ from outqEq ▸ found, ?_⟩
            rfl
        · dsimp only at removed taken ⊢
          rw [removed, if_pos rfl]
          refine ends_seq (unsendBlock_line found free taken) ?_
          rintro ⟨_, peer₂⟩ ⟨moved, taken'⟩
          dsimp only at moved taken' ⊢
          refine ends_mono (ih k fun j nb early found' heads => ?_) fun _ both =>
            ⟨.head moved both.1, both.2⟩
          have shift : ∀ j < k, peer₂.line.outq[j]? = peer.line.outq[j]? := by
            intro j early
            rw [taken']
            show ((peer.outq.eraseIdx k).eraseIdx k)[j]? = peer.outq[j]?
            rw [List.getElem?_eraseIdx_of_lt early, List.getElem?_eraseIdx_of_lt early]
          have offEq : peer₂.line.outqOff = peer.line.outqOff :=
            (congrArg Line.outqOff taken' :)
          rw [shift j early] at found'
          rcases before j nb early found' heads with begun | ⟨one, first, here, heads'⟩
          · left
            unfold Line.Begun at begun ⊢
            rwa [offEq]
          · exact .inr ⟨one, first, by rw [shift 0 (by omega)]; exact here, heads'⟩
      · rename_i notPiece found
        refine ih (k + 1) fun j nb early found' heads => ?_
        rcases Nat.lt_succ_iff_lt_or_eq.mp early with earlier | rfl
        · exact before j nb earlier found' heads
        · cases nb with
          | piece index begin length =>
              exact absurd (Option.some.inj (found.symm.trans found'))
                (notPiece index begin length)
          | _ => cases heads

theorem choke_steps :
    Returns peer.choke fun peer' => Steps peer.line peer'.line := by
  unfold choke
  refine ends_seq (unsendPieces_steps _ 0 fun j _ early => absurd early (Nat.not_lt_zero j))
    ?_
  rintro peer₁ ⟨steps, begun⟩
  refine ends_mono send_line ?_
  rintro peer₂ ⟨ready, sent⟩
  rw [sent]
  exact steps.tail (.choke ready fun k nb => begun (k + 1) k nb (Nat.lt_succ_self k))

theorem unchoke_steps :
    Returns peer.unchoke fun peer' => Steps peer.line peer'.line := by
  refine ends_mono send_line ?_
  rintro peer' ⟨ready, sent⟩
  rw [sent]
  exact .single (.unchoke (l := peer.line) ready)

/-- A request that is accepted puts a block on the queue, and may be followed by
the messages of the limiter. -/
theorem onRequest_steps {begin length : Nat} (unchoked : peer.iChoke = false) :
    Returns (peer.onRequest index begin length) fun peer' =>
      peer'.line = peer.line ∨ (peer.line.Ready ∧
        Steps (peer.line.push [.piece index begin length, .torrentData none])
          peer'.line) := by
  unfold onRequest
  split
  · exact .inl rfl
  refine ends_seq send_line ?_
  rintro peer₁ ⟨ready, first⟩
  refine ends_seq send_line ?_
  rintro peer₂ ⟨-, second⟩
  have both : peer₂.line = peer.line.push [.piece index begin length, .torrentData none] := by
    rw [second, first]
    simp [Line.push]
  have unchoked' : peer₂.line.iChoke = false := by
    rw [both]
    exact unchoked
  dsimp only
  split
  · refine ends_seq send_line ?_
    rintro peer₃ ⟨ready', third⟩
    refine ends_seq send_line ?_
    rintro peer₄ ⟨-, fourth⟩
    right
    refine ⟨ready, .single ?_⟩
    have limited : peer₄.line = peer₂.line.push [.choke, .unchoke] := by
      rw [fourth, third]
      simp [Line.push, Peer.line]
    show Step _ peer₄.line
    rw [limited, ← both]
    exact .limit ready' unchoked'
  · exact .inr ⟨ready, by rw [← both]; exact .refl⟩

/-! ## Writing -/

section

variable {read : Nat → Nat → Nat → List UInt8} {bytes : NetBuf → List UInt8}

/-- When no byte may be taken any more, none is collected. -/
theorem collect_exhausted (fuel blocks off : Nat) (outq : List NetBuf) :
    Returns (collect read bytes fuel (some 0) blocks off outq) fun result => result.1 = [] := by
  cases fuel with
  | zero => rfl
  | succ fuel =>
      cases outq with
      | nil => rfl
      | cons nb outq =>
          unfold collect
          rw [if_pos rfl]
          rfl

/-- The bytes collected from a message and from the rest of the queue, with a
limit that may cut the message. -/
theorem iov_prefix {wmax : Option Nat} {message tail iovs : List UInt8}
    (iov : List UInt8)
    (iovEq : iov = match wmax with
      | none => message
      | some w => message.take w)
    (others : iovs <+: tail) (exhausted : wmax.map (· - iov.length) = some 0 → iovs = []) :
    iov ++ iovs <+: message ++ tail := by
  subst iovEq
  cases wmax with
  | none => exact (List.prefix_append_right_inj message).mpr others
  | some w =>
      dsimp only
      rcases Nat.lt_or_ge message.length w with roomy | tight
      · rw [List.take_of_length_le (Nat.le_of_lt roomy)]
        exact (List.prefix_append_right_inj message).mpr others
      · rw [exhausted (by simp; omega), List.append_nil]
        exact (List.take_prefix w message).trans (List.prefix_append message tail)

/-- The buffer after the header of a block, with the data filled in. -/
def loadData (block : List UInt8) : NetBuf → NetBuf
  | .torrentData none => .torrentData (some block)
  | data => data

theorem loaded_loadData {block : List UInt8} {data : NetBuf} {outq : List NetBuf}
    {index begin length : Nat} :
    Line.Loaded (.piece index begin length :: loadData block data :: outq) := by
  intro index' begin' length' rest same
  rw [List.cons.injEq, List.cons.injEq] at same
  have unread := same.2.1
  unfold loadData at unread
  split at unread
  · cases unread
  · contradiction

theorem filled_loadData {block : Nat → Nat → Nat → List UInt8} {data : NetBuf}
    {outq outq' : List NetBuf} {index begin length : Nat}
    (fills : Filled block (loadData (block index begin length) data :: outq) outq') :
    Filled block (.piece index begin length :: data :: outq)
      (.piece index begin length :: outq') := by
  unfold loadData at fills
  split at fills
  · cases fills with
    | same _ fills => exact .block index begin length fills
  · exact .same _ fills

/-- What is collected are the first bytes of the queue that are still to go out. -/
theorem collect_line (fuel : Nat) (wmax : Option Nat) (blocks off : Nat) (outq : List NetBuf) :
    Returns (collect read bytes fuel wmax blocks off outq) fun result =>
      Filled read outq result.2 ∧ result.1 <+: Line.rest bytes off result.2 := by
  induction fuel generalizing wmax blocks off outq with
  | zero => exact ⟨.refl outq, List.nil_prefix⟩
  | succ fuel ih =>
      -- what is known of the rest of the queue
      have rest : ∀ wmax blocks outq, Returns (collect read bytes fuel wmax blocks 0 outq)
          fun result => (Filled read outq result.2 ∧ result.1 <+: Line.rest bytes 0 result.2) ∧
            (wmax = some 0 → result.1 = []) := by
        intro wmax blocks outq
        refine Prog.ends_and_returns (ih wmax blocks 0 outq) ?_
        by_cases zero : wmax = some 0
        · subst zero
          exact ends_mono (collect_exhausted fuel blocks 0 outq) fun _ none _ => none
        · exact Prog.returns_of_forall fun _ _ same => absurd same zero
      cases outq with
      | nil => exact ⟨.nil, List.nil_prefix⟩
      | cons nb outq =>
          unfold collect
          split
          · exact ⟨.refl _, List.nil_prefix⟩
          dsimp only
          split
          · split
            · exact ⟨.refl _, List.nil_prefix⟩
            · trivial
          · rename_i index begin length data outq'
            split
            · exact ⟨.refl _, List.nil_prefix⟩
            refine ends_seq (rest _ _ _) ?_
            rintro ⟨iovs, outq''⟩ ⟨⟨filled, others⟩, exhausted⟩
            change Filled read (loadData (read index begin length) data :: outq') outq'' at filled
            obtain ⟨tail, tailEq⟩ := filled.head
            refine ⟨filled_loadData filled, ?_⟩
            show _ <+: Line.rest bytes off (.piece index begin length :: outq'')
            rw [Line.rest_cons (tailEq ▸ loaded_loadData)]
            exact iov_prefix _ rfl others exhausted
          · rename_i single double
            refine ends_seq (rest _ _ _) ?_
            rintro ⟨iovs, outq'⟩ ⟨⟨filled, others⟩, exhausted⟩
            refine ⟨.same _ filled, ?_⟩
            have loaded : Line.Loaded (nb :: outq') := by
              intro index begin length rest' same
              rw [List.cons.injEq] at same
              cases outq with
              | nil => exact single index begin length same.1 rfl
              | cons data outq => exact double index begin length data outq same.1 rfl
            rw [Line.rest_cons loaded]
            exact iov_prefix _ rfl others exhausted

end

theorem noteSent_line {nb : NetBuf} :
    Returns (peer.noteSent nb) fun peer' => peer'.line = peer.line :=
  ends_noteSent trivial fun _ _ => rfl

/-- The loop over the bytes that went out takes the messages off the queue one
by one; `wire` is what the socket had taken before. -/
theorem written_writes (t : Torrent) (cm : Content) (outq : List NetBuf) (bcount : Nat)
    (wire : List UInt8)
    (enough : bcount ≤ (Line.rest (NetBuf.bytes t cm.pieceField) peer.outqOff outq).length) :
    Returns (peer.written bcount outq) fun result =>
      Writes t cm { peer.line with outq := outq, wire := wire }
        { result.2.line with
          wire := wire ++ (Line.rest (NetBuf.bytes t cm.pieceField) peer.outqOff outq).take bcount }
      ∧ result.2.wire = peer.wire := by
  induction outq generalizing peer bcount wire with
  | nil => exact ⟨by simp [Line.rest]; exact .refl, rfl⟩
  | cons nb outq ih =>
      unfold written
      split
      · rename_i zero
        subst zero
        exact ⟨by simp [Peer.line]; exact .refl, rfl⟩
      rename_i some
      dsimp only
      have loaded : Line.Loaded (nb :: outq) :=
        Line.loaded_of_rest (List.length_pos_iff.mp
          (Nat.lt_of_lt_of_le (Nat.pos_of_ne_zero some) enough))
      have lengthEq : ((nb.bytes t cm.pieceField).drop peer.outqOff).length =
          nb.len - peer.outqOff := by
        rw [List.length_drop, nb.length_bytes]
      rw [Line.rest_cons loaded] at enough ⊢
      rw [List.length_append, lengthEq] at enough
      split
      · rename_i whole
        refine ends_seq noteSent_line fun peer₁ lineEq => ?_
        have sentEq : peer₁.sent = peer.sent := congrArg Line.sent lineEq
        have wireEq : peer₁.wire = peer.wire := congrArg Line.wire lineEq
        have chokeEq : peer₁.iChoke = peer.iChoke := congrArg Line.iChoke lineEq
        refine ends_seq (ih _ (wire ++ (nb.bytes t cm.pieceField).drop peer.outqOff)
          (show _ ≤ (Line.rest _ 0 outq).length by omega)) ?_
        rintro ⟨uploaded, peer₂⟩ ⟨steps, sameWire⟩
        dsimp only at steps sameWire ⊢
        refine ⟨?_, sameWire.trans wireEq⟩
        have first : Write t cm { peer.line with outq := nb :: outq, wire := wire }
            ⟨peer.sent ++ [nb], outq, 0,
              wire ++ (nb.bytes t cm.pieceField).drop peer.outqOff, peer.iChoke⟩ :=
          .whole rfl loaded
        rw [List.take_append, lengthEq, List.take_of_length_le (by omega), ← List.append_assoc]
        refine .head first ?_
        simp only [Peer.line, sentEq, chokeEq] at steps ⊢
        exact steps
      · rename_i cut
        refine ⟨.single ?_, rfl⟩
        rw [List.take_append_of_le_length (by omega)]
        exact .part (l := { peer.line with outq := nb :: outq, wire := wire }) rfl loaded
          (Nat.pos_of_ne_zero some) (show bcount < nb.len - peer.outqOff by omega)

theorem netWrite_writes (t : Torrent) (cm : Content) {wmax nwritten : Nat} :
    Returns (peer.netWrite (cm.readBlock t) (NetBuf.bytes t cm.pieceField) wmax nwritten)
      fun result => Writes t cm peer.line result.2.line := by
  unfold netWrite
  dsimp only
  split
  · trivial
  refine ends_seq (collect_line _ _ _ _ _) ?_
  rintro ⟨iovs, outq⟩ ⟨filled, taken⟩
  dsimp only at filled taken ⊢
  refine ends_mono (written_writes t cm outq _ peer.wire
    (Nat.le_trans (Nat.min_le_right _ _) taken.length_le)) ?_
  rintro ⟨uploaded, peer'⟩ ⟨steps, wireEq⟩
  dsimp only at steps wireEq ⊢
  have bytesEq : iovs.take nwritten =
      (Line.rest (NetBuf.bytes t cm.pieceField) peer.outqOff outq).take
        (min nwritten iovs.length) := by
    obtain ⟨tail, tailEq⟩ := taken
    rw [← tailEq, List.take_append_of_le_length (Nat.min_le_right _ _),
      List.take_eq_take_iff]
    omega
  have lineEq : ({ peer'.line with
      wire := peer.wire ++ (Line.rest (NetBuf.bytes t cm.pieceField) peer.outqOff outq).take
        (min nwritten iovs.length) } : Line) = peer'.line := by
    rw [← bytesEq, ← wireEq]
    rfl
  rw [← lineEq]
  exact .head (.fill filled) steps

end Peer

/-! ## Invariants of the line -/

/-- The invariant of what peers have, what they are told and what is written to
them is kept by the steps of the line and by what else concerns it. -/
structure LineKept (t : Torrent) (bad : Call Net Fn → Prop) (between : Net → Prop)
    (J : View → (Nat → Bool) → Line → Prop) : Prop where
  step : ∀ {v field l l'}, Line.Step l l' → J v field l → J v field l'
  write : ∀ {v field l l'} (n : Net), between n → n.cm.pieceField = v.held →
    Line.Write t n.cm l l' → J v field l → J v field l'
  block : ∀ callers (n : Net) p index begin length,
    J (n.view p) (n.peer p).pieceField (n.peer p).line → (n.peer p).iChoke = false →
    length ≤ pieceBlocklen → index < t.npieces → n.cm.pieceField index = true →
    ((begin + length) % 2 ^ 32 : Nat) ≤ t.torrentPieceSize index → (n.peer p).line.Ready →
    bad ⟨.peerOnRequest p index begin length, callers, n⟩ ∨
      J (n.view p) (n.peer p).pieceField
        ((n.peer p).line.push [.piece index begin length, .torrentData none])
  had : ∀ {v field l piece}, J v field l → v.attached → v.held piece = false →
    field piece = true → J (v.verified piece) field l
  told : ∀ {v field l piece}, J v field l → v.attached → v.held piece = false → l.Ready →
    J (v.verified piece) field (l.push [.haveMsg piece])
  missed : ∀ {v field l} piece, J v field l → ¬ v.attached → J (v.verified piece) field l
  leave : ∀ {v field l}, J v field l → J { v with attached := False } field l
  field : ∀ {v field l} field', J v field l → (∀ i < t.npieces, field i = false) → J v field' l
  setBit : ∀ {v field l} index, J v field l → J v (setBit field index) l

namespace LineKept

variable {t : Torrent} {bad : Call Net Fn → Prop} {between : Net → Prop}
  {J : View → (Nat → Bool) → Line → Prop} (kept : LineKept t bad between J)

include kept

/-- A routine that takes steps of the line. -/
theorem of_steps {v : View} {peer : Peer} {x : Except Fault Peer}
    (held : J v peer.pieceField peer.line)
    (steps : Returns x fun peer' => Line.Steps peer.line peer'.line)
    (same : Peer.Tame x peer.SamePieces) :
    Returns x fun peer' => J v peer'.pieceField peer'.line := by
  refine ends_mono (Prog.ends_and_returns steps (.of_ends same)) ?_
  rintro peer' ⟨steps, field, -⟩
  rw [field]
  exact Line.keep steps (fun _ _ step before => kept.step step before) held

/-- The invariant is kept by the routines of a peer. -/
theorem peerKept : PeerKept t ⟨bad, fun _ => True⟩ between
    (fun v peer => J v peer.pieceField peer.line)
    (fun v peer => J v peer.pieceField peer.line) where
  control _ _ := trivial
  bounded _ _ _ _ _ := .inr ⟨trivial, trivial⟩
  want _ _ _ _ held := .inr (kept.of_steps held Peer.want_steps Peer.want_samePieces)
  unwant _ held := kept.of_steps held Peer.unwant_steps Peer.unwant_samePieces
  request _ held _ := kept.of_steps held Peer.request_steps Peer.request_samePieces
  cancel _ _ _ _ held := kept.of_steps held Peer.cancel_steps Peer.cancel_samePieces
  loosen held := held
  unlink _ held := kept.of_steps held Peer.unlink_steps Peer.unlink_samePieces
  tighten held := kept.of_steps held Peer.checkNoReqs_steps
    (Peer.samePieces_of_core Peer.checkNoReqs_core)
  badPiece _ held := kept.of_steps held Peer.badPiece_steps Peer.badPiece_samePieces
  goodPiece callers n p index held := by
    right
    refine ends_mono (Prog.ends_and_returns Peer.goodPiece_steps
      (.of_ends Peer.goodPiece_samePieces)) ?_
    rintro result ⟨steps, field, -⟩
    rw [field]
    exact Line.keep steps (fun _ _ step before => kept.step step before) held
  ban held := held
  announce {v peer piece} held attached unverified := by
    split
    · rename_i has
      exact kept.had held attached unverified has
    · refine ends_mono (Prog.ends_and_returns Peer.send_line
        (.of_ends (Peer.samePieces_of_core Peer.send_core))) ?_
      rintro peer' ⟨⟨ready, lineEq⟩, field, -⟩
      rw [field, lineEq]
      exact kept.told held attached unverified ready
  missed piece held lost := kept.missed piece held lost
  leave held := kept.leave held
  pWant _ held := held
  pChoke _ held := held
  field field' held none := kept.field field' held none
  setBit index _ held := kept.setBit index held
  count _ held := held
  unsendRequests fuel held := kept.of_steps held (Peer.unsendRequests_steps fuel 0)
    (Peer.samePieces_of_core (Peer.unsendRequests_core fuel))
  keepalive held := kept.of_steps held (Peer.send_steps rfl)
    (Peer.samePieces_of_core Peer.send_core)
  choke held := kept.of_steps held Peer.choke_steps (Peer.samePieces_of_core Peer.choke_core)
  unchoke held := kept.of_steps held Peer.unchoke_steps (Peer.samePieces_of_core Peer.send_core)
  onRequest callers n p index begin length held unchoked short inside verified fits := by
    have requested : Returns ((n.peer p).onRequest index begin length) _ :=
      Prog.ends_and_returns (Peer.onRequest_steps unchoked)
        (.of_ends (Peer.samePieces_of_core Peer.onRequest_core))
    by_cases ready : (n.peer p).line.Ready
    · refine (kept.block callers n p index begin length held unchoked short inside verified fits
        ready).imp_right fun after => ends_mono requested ?_
      rintro peer' ⟨same | ⟨-, steps⟩, field, -⟩
      · rw [field, same]
        exact held
      · rw [field]
        exact Line.keep steps (fun _ _ step before => kept.step step before) after
    · refine .inr (ends_mono requested ?_)
      rintro peer' ⟨same | ⟨ready', -⟩, field, -⟩
      · rw [field, same]
        exact held
      · exact absurd ready' ready
  onCancel index begin length held := kept.of_steps held Peer.onCancel_steps
    (Peer.samePieces_of_core Peer.onCancel_core)
  write n p wmax nwritten reached held := by
    refine ends_mono (Prog.ends_and_returns (Peer.netWrite_writes t n.cm)
      (.of_ends Peer.netWrite_samePieces)) ?_
    rintro result ⟨writes, field, -⟩
    rw [field]
    exact Line.keep writes (fun _ _ write before => kept.write n reached rfl write before) held

end LineKept

/-- What a new peer has been sent when its handshake has been read. -/
theorem Peer.onShake_line {t : Torrent} {n : Net} {unwritten : Option (Fin 68)} :
    Returns (Peer.onShake t n unwritten) fun peer =>
      peer.pieceField = (fun _ => false) ∧
      ((n.cm.npiecesGot = 0 ∧ peer.line = (Peer.create t unwritten).line) ∨
        peer.line = (Peer.create t unwritten).line.push [.multihave (multihavePieces t n)] ∨
        peer.line = (Peer.create t unwritten).line.push
          [.bitfield, .bitdata t.fieldBytes ((List.range t.npieces).filter n.cm.pieceField)]) := by
  refine ends_mono (Prog.ends_and_returns (?_ : Returns _ _) (.of_ends Peer.onShake_samePieces))
    fun _ both => ⟨both.2.1, both.1⟩
  unfold Peer.onShake
  dsimp only
  split
  · rename_i none
    exact .inl ⟨none, rfl⟩
  split
  · exact ends_mono Peer.send_line fun _ sent => .inr (.inl sent.2)
  · refine ends_seq Peer.send_line fun _ first => ?_
    refine ends_mono Peer.send_line fun _ second => .inr (.inr ?_)
    rw [second.2, first.2]
    simp [Line.push]

section

variable {t : Torrent} {bad : Call Net Fn → Prop} {J : View → (Nat → Bool) → Line → Prop} {n : Net}

/-- In every state of a run without bad calls the invariant of the lines holds. -/
theorem LineKept.of_reachable (kept : LineKept t bad ((system t).Reachable bad) J)
    (shakes : Shakes t ⟨bad, fun _ => True⟩ fun v peer => J v peer.pieceField peer.line)
    (begins : ∀ p held, J ⟨p, False, held⟩ (fun _ => false) (Peer.create t none).line)
    (reached : (system t).Reachable bad n) (p : Nat) :
    J (n.view p) (n.peer p).pieceField (n.peer p).line :=
  (kept.peerKept.of_reachable shakes begins reached).each p

/-- In every state of a run the invariant holds that may speak of the states
visited before. -/
theorem LineKept.of_run {J : List Net → View → (Nat → Bool) → Line → Prop} {earlier : List Net}
    (kept : ∀ visited, LineKept t bad (· ∈ visited) (J visited))
    (more : ∀ visited n v field l, J visited v field l → J (n :: visited) v field l)
    (shakes : ∀ visited, Shakes t ⟨bad, fun _ => True⟩
      fun v peer => J visited v peer.pieceField peer.line)
    (begins : ∀ visited p held,
      J visited ⟨p, False, held⟩ (fun _ => false) (Peer.create t none).line)
    (run : (system t).Run bad (n :: earlier)) (p : Nat) :
    J (n :: earlier) (n.view p) (n.peer p).pieceField (n.peer p).line := by
  refine (run.invariant (fun visited n =>
    Peerwise t (fun v peer => J visited v peer.pieceField peer.line) (everything t) n)
    (fun _ => True) (fun n start => ?_) fun n e earlier _ held => ?_).each p
  · exact Peerwise.start (begins [n]) start
  · refine Prog.wp_mono ((kept (n :: earlier)).peerKept.handle_wp e
      (fun _ _ => shakes (n :: earlier)) (fun _ _ _ _ => List.mem_cons_self) held) ?_
    exact fun _ n' held' => ⟨held'.toBase, fun q => more _ n' _ _ _ (held'.each q)⟩

/-- An invariant that says nothing of the lines is kept. -/
theorem plain_lineKept {between : Net → Prop} : LineKept t bad between fun _ _ _ => True where
  step _ _ := trivial
  write _ _ _ _ _ := trivial
  block _ _ _ _ _ _ _ _ _ _ _ _ _ := .inr trivial
  had _ _ _ _ := trivial
  told _ _ _ _ := trivial
  missed _ _ _ := trivial
  leave _ := trivial
  field _ _ _ := trivial
  setBit _ _ := trivial

/-- The lists and counters of the torrent are right in every reachable state. -/
theorem base_of_reachable (reached : (system t).Reachable bad n) : Base t (everything t) n := by
  have shakes : Shakes t ⟨bad, fun _ => True⟩ fun _ _ => True :=
    fun _ _ _ _ => Prog.returns_of_forall fun _ _ => trivial
  exact (plain_lineKept.peerKept.of_reachable shakes (fun _ _ => trivial) reached).toBase

/-- A new peer leaves the attached ones alone. -/
theorem peerOnShake_others {p : Nat} {unwritten : Option (Fin 68)} {callers : List Fn}
    (base : Base t (everything t) n) (mem : p ∈ n.peers) :
    (peerOnShake t unwritten).wp ⟨bad, fun _ => True⟩ callers
      (fun _ n' => n'.peer p = n.peer p ∧ n'.view p = n.view p) n := by
  unfold peerOnShake
  rw [Prog.wp_bind, Prog.wp_get, Prog.wp_bind, Prog.wp_ofExcept]
  refine Prog.returns_of_forall fun peer _ => ?_
  rw [Prog.wp_modify]
  have other : p ≠ n.nextPeer := Nat.ne_of_lt (base.fresh p mem)
  constructor
  · show (n.setPeer n.nextPeer peer).peer p = n.peer p
    rw [Net.setPeer_peer, if_neg other]
  · have attached : (p ∈ n.nextPeer :: n.peers) = (p ∈ n.peers) := by simp [mem]
    show (⟨p, p ∈ n.nextPeer :: n.peers, n.cm.pieceField⟩ : View) = n.view p
    rw [attached]
    rfl

/-- What the steps of a line keep holds of the line of an attached peer after an
event if it held before. -/
theorem LineKept.of_event {p : Nat} {e : Event} {n' : Net}
    (kept : LineKept t bad ((system t).Reachable bad) fun v field l => v.p = p → J v field l)
    (reached : (system t).Reachable bad n) (mem : p ∈ n.peers)
    (before : J (n.view p) (n.peer p).pieceField (n.peer p).line)
    (step : (system t).Steps bad n e n') :
    J (n'.view p) (n'.peer p).pieceField (n'.peer p).line := by
  have base := base_of_reachable reached
  by_cases shakes : ∃ unwritten, e = .shake unwritten
  · obtain ⟨unwritten, rfl⟩ := shakes
    obtain ⟨peerEq, viewEq⟩ := System.Steps.of_wp (peerOnShake_others base mem) step
    rw [peerEq, viewEq]
    exact before
  · have held := System.Steps.of_wp (kept.peerKept.handle_wp e
      (fun unwritten same => absurd ⟨unwritten, same⟩ shakes) (fun _ _ _ _ => reached)
      ⟨base, fun q here => (show q = p from here) ▸ before⟩) step
    exact held.each p rfl

end

end Btpd.Download
