import Btpd.Download.Messages
import Btpd.Download.Counts

/-!
# Choking

The last CHOKE or UNCHOKE that a peer has been sent, or that waits in its queue,
agrees with the flag `PF_I_CHOKE`; and while the flag is set no block waits for
the peer except one whose header has begun to go out.
-/

namespace Btpd.Download

open Prog

/-- What a message tells a peer about choking. -/
def NetBuf.choking : NetBuf → Option Bool
  | .choke => some true
  | .unchoke => some false
  | _ => none

theorem NetBuf.choking_of_remark {nb : NetBuf} (remark : nb.remark = true) :
    nb.choking = none := by
  cases nb with
  | interest | uninterest | request | cancel | keepalive => rfl
  | _ => cases remark

/-- Whether a peer knows itself choked after the messages; it starts choked. -/
def toldChoked (log : List NetBuf) : Bool := (log.filterMap NetBuf.choking).getLastD true

/-- The line agrees with the flag, and a choked peer has no block waiting. -/
structure Choked (nbytes : Nat) (l : Line) : Prop where
  spoken : l.Spoken (fun _ _ _ _ => True) nbytes
  told : toldChoked l.log = l.iChoke
  begun : l.iChoke = true → ∀ k nb, l.outq[k]? = some nb → nb.heads = true → l.Begun k

namespace Line

variable {l l' : Line} {nb : NetBuf} {k : Nat}

theorem toldChoked_append {log : List NetBuf} :
    toldChoked (log ++ [nb]) = nb.choking.getD (toldChoked log) := by
  unfold toldChoked
  rw [List.filterMap_append]
  cases choking : nb.choking with
  | none => simp [choking]
  | some b => simp [choking]

theorem toldChoked_eraseIdx {log : List NetBuf} (found : log[k]? = some nb)
    (silent : nb.choking = none) : toldChoked (log.eraseIdx k) = toldChoked log := by
  rw [toldChoked, filterMap_eraseIdx found silent, toldChoked]

theorem toldChoked_filled {read : Nat → Nat → Nat → List UInt8} {log log' : List NetBuf}
    (fills : Filled read log log') : toldChoked log' = toldChoked log := by
  rw [toldChoked, fills.filterMap_eq fun _ => rfl, toldChoked]

theorem getElem?_push {nbs : List NetBuf} (found : (l.push nbs).outq[k]? = some nb) :
    l.outq[k]? = some nb ∨ nb ∈ nbs := by
  unfold push at found
  rcases Nat.lt_or_ge k l.outq.length with inside | beyond
  · rw [List.getElem?_append_left inside] at found
    exact .inl found
  · rw [List.getElem?_append_right beyond] at found
    exact .inr (List.mem_of_getElem? found)

/-- Messages that say nothing of choking and bring no block are put on the queue. -/
theorem choked_push {nbytes : Nat} {nbs : List NetBuf} (choked : Choked nbytes l)
    (messages : Messages (fun _ _ _ _ => True) nbytes nbs)
    (silent : ∀ nb ∈ nbs, nb.choking = none ∧ nb.heads = false) : Choked nbytes (l.push nbs) where
  spoken := choked.spoken.push messages
  told := by
    have none : nbs.filterMap NetBuf.choking = [] :=
      List.filterMap_eq_nil_iff.mpr fun nb mem => (silent nb mem).1
    rw [log_push, toldChoked, List.filterMap_append, none, List.append_nil]
    exact choked.told
  begun isChoked k nb found heads := by
    rcases getElem?_push found with before | here
    · exact choked.begun isChoked k nb before heads
    · rw [(silent nb here).2] at heads
      cases heads

theorem choked_push_one {nbytes : Nat} (choked : Choked nbytes l) (alone : nb.alone = true)
    (silent : nb.choking = none) : Choked nbytes (l.push [nb]) := by
  refine choked_push choked (.singleton alone) fun nb' mem => ?_
  rw [List.mem_singleton.mp mem]
  refine ⟨silent, ?_⟩
  cases nb with
  | piece => cases alone
  | _ => rfl

/-- Headers that have begun stay where they are when others are taken out. -/
theorem begun_eraseIdx {nbytes : Nat} (choked : Choked nbytes l) {outq : List NetBuf}
    (shift : ∀ j, j < k → outq[j]? = l.outq[j]?)
    (later : ∀ j nb, k ≤ j → outq[j]? = some nb → ∃ i, j < i ∧ l.outq[i]? = some nb)
    (isChoked : l.iChoke = true) (j : Nat) (nb : NetBuf) (found : outq[j]? = some nb)
    (heads : nb.heads = true) : l.Begun j := by
  rcases Nat.lt_or_ge j k with early | late
  · rw [shift j early] at found
    exact choked.begun isChoked j nb found heads
  · obtain ⟨i, after, found'⟩ := later j nb late found
    have zero := (choked.begun isChoked i nb found' heads).1
    omega

theorem choked_step {nbytes : Nat} (choked : Choked nbytes l) (step : Step l l') :
    Choked nbytes l' := by
  have spoken := choked.spoken.step step
  cases step with
  | say remark _ =>
      exact choked_push_one choked (NetBuf.alone_of_remark remark) (NetBuf.choking_of_remark remark)
  | @unsay k nb remark found _ =>
      refine ⟨spoken, ?_, ?_⟩
      · rw [log_unsay,
          toldChoked_eraseIdx (log_getElem?.trans found) (NetBuf.choking_of_remark remark)]
        exact choked.told
      · refine begun_eraseIdx (k := k) choked (fun j early => ?_) fun j nb' late found' => ?_
        · exact List.getElem?_eraseIdx_of_lt early
        · rw [List.getElem?_eraseIdx_of_ge late] at found'
          exact ⟨j + 1, Nat.lt_succ_self j, found'⟩
  | @unsayBlock k index begin length found _ _ =>
      refine ⟨spoken, ?_, ?_⟩
      · obtain ⟨data, follows⟩ := choked.spoken.follows found
        rw [log_unsayBlock, toldChoked_eraseIdx follows rfl,
          toldChoked_eraseIdx (log_getElem?.trans found) rfl]
        exact choked.told
      · refine begun_eraseIdx (k := k) choked (fun j early => ?_) fun j nb' late found' => ?_
        · rw [List.getElem?_eraseIdx_of_lt early, List.getElem?_eraseIdx_of_lt early]
        · rw [List.getElem?_eraseIdx_of_ge late,
            List.getElem?_eraseIdx_of_ge (Nat.le_succ_of_le late)] at found'
          exact ⟨j + 1 + 1, by omega, found'⟩
  | unchoke _ =>
      refine ⟨spoken, ?_, fun unchoked => nomatch unchoked⟩
      show toldChoked (l.push [.unchoke]).log = false
      rw [log_push, toldChoked_append]
      rfl
  | choke _ begun =>
      refine ⟨spoken, ?_, fun _ k nb found heads => ?_⟩
      · show toldChoked (l.push [.choke]).log = true
        rw [log_push, toldChoked_append]
        rfl
      · rcases getElem?_push found with before | here
        · rcases begun k nb before heads with begun | ⟨rfl, first, here, heads'⟩
          · exact begun
          · -- a header is followed by data, so the second buffer is none
            exfalso
            obtain ⟨rest, logEq, messages⟩ := choked.spoken
            cases first with
            | piece index begin length =>
                have header : l.log[l.sent.length + 0]? = some (.piece index begin length) :=
                  log_getElem?.trans here
                have second : l.log[l.sent.length + 1]? = some nb := log_getElem?.trans before
                rw [logEq] at header second
                rw [Nat.add_zero] at header
                generalize l.sent.length = j at header second
                cases j with
                | zero => cases header
                | succ j =>
                    obtain ⟨data, follows, -⟩ := messages.follows header
                    have same : some nb = some (.torrentData data) :=
                      second.symm.trans follows
                    cases same
                    cases heads
            | _ => cases heads'
        · rw [List.mem_singleton.mp here] at heads
          cases heads
  | limit _ unchoked =>
      refine ⟨spoken, ?_, fun isChoked => ?_⟩
      · have twice : l.push [.choke, .unchoke] = (l.push [.choke]).push [.unchoke] := by
          simp [push]
        rw [twice, log_push, toldChoked_append]
        exact unchoked.symm
      · exact absurd (unchoked.symm.trans isChoked) (by decide)

theorem choked_write {nbytes : Nat} {t : Torrent} {cm : Content} (choked : Choked nbytes l)
    (write : Write t cm l l') : Choked nbytes l' := by
  have spoken := choked.spoken.write write fun _ _ _ _ => trivial
  cases write with
  | @fill outq fills =>
      refine ⟨spoken, ?_, fun isChoked => ?_⟩
      · show toldChoked (l.sent ++ outq) = l.iChoke
        rw [toldChoked_filled (fills.append l.sent)]
        exact choked.told
      · intro j nb' found heads
        exact choked.begun isChoked j nb' (fills.getElem?_heads found heads) heads
  | @whole nb outq here _ =>
      refine ⟨spoken, ?_, fun isChoked j nb' found heads => ?_⟩
      · show toldChoked ((l.sent ++ [nb]) ++ outq) = l.iChoke
        rw [log_whole here]
        exact choked.told
      · have begun := choked.begun isChoked (j + 1) nb' (by rw [here]; exact found) heads
        exact absurd begun.1 (Nat.succ_ne_zero j)
  | part here _ some _ =>
      refine ⟨spoken, choked.told, fun isChoked j nb' found heads => ?_⟩
      exact ⟨(choked.begun isChoked j nb' found heads).1, Nat.add_pos_right _ some⟩

end Line

/-! ## Runs -/

variable {t : Torrent} {n : Net}

theorem choked_lineKept (t : Torrent) :
    LineKept t (fun _ => False) ((system t).Reachable fun _ => False)
      fun _ _ l => Choked t.fieldBytes l where
  step step choked := Line.choked_step choked step
  write _ _ _ write choked := Line.choked_write choked write
  block _ n p index begin length choked unchoked _ _ _ _ _ := by
    refine .inr ⟨choked.spoken.push (.block trivial .nil), ?_, fun isChoked => ?_⟩
    · rw [Line.log_push, toldChoked, List.filterMap_append]
      exact (congrArg (List.getLastD · true) (List.append_nil _)).trans choked.told
    · exact absurd (unchoked.symm.trans isChoked) (by decide)
  had choked _ _ _ := choked
  told choked _ _ _ := Line.choked_push_one choked rfl rfl
  missed _ choked _ := choked
  leave choked := choked
  field _ choked _ := choked
  setBit _ choked := choked

/-- A new peer is choked and has no block waiting. -/
theorem choked_create (unwritten : Option (Fin 68)) :
    Choked t.fieldBytes (Peer.create t unwritten).line := by
  cases unwritten with
  | none => exact ⟨⟨[], rfl, .nil⟩, rfl, fun _ _ _ found => nomatch found⟩
  | some off =>
      refine ⟨⟨[], rfl, .nil⟩, rfl, fun _ k nb found heads => ?_⟩
      cases k with
      | zero =>
          cases found
          cases heads
      | succ k => cases found

theorem choked_shakes :
    Shakes t ⟨fun _ => False, fun _ => True⟩ fun _ peer => Choked t.fieldBytes peer.line := by
  intro n unwritten _ _
  refine ends_mono Peer.onShake_line ?_
  rintro peer ⟨-, ⟨-, lineEq⟩ | lineEq | lineEq⟩
  · rw [lineEq]
    exact choked_create unwritten
  · rw [lineEq]
    exact Line.choked_push_one (choked_create unwritten) rfl rfl
  · rw [lineEq]
    exact Line.choked_push (choked_create unwritten) (.field .nil) (by simp [NetBuf.choking, NetBuf.heads])

theorem choked_of_reachable (reached : (system t).Reachable (fun _ => False) n) (p : Nat) :
    Choked t.fieldBytes (n.peer p).line :=
  (choked_lineKept t).of_reachable choked_shakes (fun _ _ => choked_create none) reached p

/-! ## Blocks are queued for peers that are not choked -/

/-- The blocks that have been queued for a peer and not been taken back. -/
def Line.blocks (l : Line) : Nat := l.log.countP NetBuf.heads

/-- `peer_on_request` is entered for the peer `p` while it is not choked. -/
def openRequest (p : Nat) (c : Call Net Fn) : Prop :=
  match c.fn with
  | .peerOnRequest q _ _ _ => q = p ∧ (c.entry.peer p).iChoke = false
  | _ => False

theorem Line.blocks_push {l : Line} {nbs : List NetBuf} (none : ∀ nb ∈ nbs, nb.heads = false) :
    (l.push nbs).blocks = l.blocks := by
  have zero : nbs.countP NetBuf.heads = 0 :=
    List.countP_eq_zero.mpr fun nb mem => by simp [none nb mem]
  rw [blocks, log_push, List.countP_append, zero]
  rfl

theorem Line.blocks_push_one {l : Line} {nb : NetBuf} (none : nb.heads = false) :
    (l.push [nb]).blocks = l.blocks :=
  Line.blocks_push fun _ mem => by rw [List.mem_singleton.mp mem, none]

theorem Line.blocks_filled {read : Nat → Nat → Nat → List UInt8} {log log' : List NetBuf}
    (fills : Filled read log log') : log'.countP NetBuf.heads = log.countP NetBuf.heads := by
  rw [List.countP_eq_length_filter, List.countP_eq_length_filter, fills.filter_eq fun _ => rfl]

theorem Line.blocks_step {l l' : Line} (step : Line.Step l l') : l'.blocks ≤ l.blocks := by
  cases step with
  | say remark _ => exact Nat.le_of_eq (Line.blocks_push_one (NetBuf.heads_of_remark remark))
  | unsay _ _ _ =>
      rw [blocks, log_unsay]
      exact (List.eraseIdx_sublist _ _).countP_le
  | unsayBlock _ _ _ =>
      rw [blocks, log_unsayBlock]
      exact ((List.eraseIdx_sublist _ _).trans (List.eraseIdx_sublist _ _)).countP_le
  | unchoke _ => exact Nat.le_of_eq (Line.blocks_push_one (l := l) rfl)
  | choke _ _ => exact Nat.le_of_eq (Line.blocks_push_one (l := l) rfl)
  | limit _ _ => exact Nat.le_of_eq (Line.blocks_push (by simp [NetBuf.heads]))

theorem Line.blocks_write {t : Torrent} {cm : Content} {l l' : Line}
    (write : Line.Write t cm l l') : l'.blocks ≤ l.blocks := by
  cases write with
  | fill fills => exact Nat.le_of_eq (Line.blocks_filled (fills.append l.sent))
  | @whole nb outq here _ =>
      exact Nat.le_of_eq (congrArg (List.countP NetBuf.heads) (log_whole here))
  | part _ _ _ _ => exact Nat.le_refl _

/-- Only a request of a peer that is not choked puts a block on its queue. -/
theorem blocks_lineKept (t : Torrent) (p m : Nat) :
    LineKept t (openRequest p) (fun _ => True) fun v _ l => v.p = p → l.blocks ≤ m where
  step step few here := Nat.le_trans (Line.blocks_step step) (few here)
  write _ _ _ write few here := Nat.le_trans (Line.blocks_write write) (few here)
  block _ n q index begin length few unchoked _ _ _ _ _ := by
    by_cases here : q = p
    · subst here
      exact .inl ⟨rfl, unchoked⟩
    · exact .inr fun same => absurd same here
  had few _ _ _ := few
  told few _ _ _ here := Nat.le_trans (Nat.le_of_eq (Line.blocks_push_one rfl)) (few here)
  missed _ few _ := few
  leave few := few
  field _ few _ := few
  setBit _ few := few

theorem blocks_shakes {p m : Nat} :
    Shakes t ⟨openRequest p, fun _ => True⟩ fun v peer => v.p = p → peer.line.blocks ≤ m := by
  intro n unwritten _ _
  have created : (Peer.create t unwritten).line.blocks = 0 := by
    cases unwritten <;> rfl
  refine ends_mono Peer.onShake_line ?_
  rintro peer ⟨-, ⟨-, lineEq⟩ | lineEq | lineEq⟩ _
  · rw [lineEq, created]
    exact Nat.zero_le _
  · rw [lineEq, Line.blocks_push_one rfl, created]
    exact Nat.zero_le _
  · rw [lineEq, Line.blocks_push (by simp [NetBuf.heads]), created]
    exact Nat.zero_le _

/-- In every reachable state the messages to a peer agree with `PF_I_CHOKE`, and
no block waits for a choked peer unless its header has begun to go out; an event
queues a block for a peer only when it serves a request while the peer is not
choked. -/
theorem choking_agrees {p : Nat} (reached : (system t).Reachable (fun _ => False) n) :
    toldChoked ((n.peer p).sent ++ (n.peer p).outq) = (n.peer p).iChoke ∧
    ((n.peer p).iChoke = true → ∀ k index begin length,
      (n.peer p).outq[k]? = some (.piece index begin length) → k = 0 ∧ 0 < (n.peer p).outqOff) ∧
    ((n.peer p).iChoke = true → ∀ k data,
      (n.peer p).outq[k]? = some (.torrentData data) → ∃ index begin length,
        (k = 0 ∧ (n.peer p).sent.getLast? = some (.piece index begin length)) ∨
        (k = 1 ∧ (n.peer p).outq[0]? = some (.piece index begin length) ∧
          0 < (n.peer p).outqOff)) ∧
    ∀ e n', (system t).Steps (fun _ => False) n e n' →
      (n.peer p).line.blocks < (n'.peer p).line.blocks →
      ∃ c ∈ (handle t e [] n).1, ∃ index begin length,
        c.fn = .peerOnRequest p index begin length ∧ (c.entry.peer p).iChoke = false := by
  have choked := choked_of_reachable reached p
  refine ⟨choked.told, fun isChoked k index begin length found => ?_,
    fun isChoked k data found => ?_, fun e n' step more => ?_⟩
  · exact choked.begun isChoked k _ found rfl
  · obtain ⟨i, index, begin, length, before, header⟩ := Line.precedes choked.spoken found
    refine ⟨index, begin, length, ?_⟩
    cases k with
    | zero =>
        left
        refine ⟨rfl, ?_⟩
        have last : i < (n.peer p).line.sent.length := by omega
        rw [Line.log, List.getElem?_append_left last] at header
        rw [List.getLast?_eq_getElem?, ← header]
        congr 1
        show (n.peer p).line.sent.length - 1 = i
        omega
    | succ k =>
        right
        have iEq : i = (n.peer p).line.sent.length + k := by omega
        rw [iEq, Line.log_getElem?] at header
        obtain ⟨rfl, out⟩ := choked.begun isChoked k _ header rfl
        exact ⟨rfl, header, out⟩
  · by_contra none
    simp only [not_exists, not_and] at none
    have base := ((choked_lineKept t).peerKept.of_reachable choked_shakes
      (fun _ _ => choked_create Option.none) reached).toBase
    have steps : (system t).Steps (openRequest p) n e n' := by
      refine ⟨step.1, fun c mem isOpen => ?_⟩
      unfold openRequest at isOpen
      split at isOpen
      · rename_i q index begin length fnEq
        exact none c mem index begin length (isOpen.1 ▸ fnEq) isOpen.2
      · exact isOpen
    have few := System.Steps.of_wp ((blocks_lineKept t p (n.peer p).line.blocks).peerKept.handle_wp
      e (fun _ _ => blocks_shakes) (fun _ _ _ _ => trivial) ⟨base, fun q here => here ▸ Nat.le_refl _⟩) steps
    exact absurd (few.each p rfl) (Nat.not_le_of_lt more)

theorem choking_agrees_ninePieces : ∃ n, ((n.peer 0).iChoke = true ∧
      (n.peer 0).outq = [.piece 1 0 4, .torrentData (some [0, 0, 0, 0]), .choke]) ∧
    toldChoked ((n.peer 0).sent ++ (n.peer 0).outq) = (n.peer 0).iChoke ∧
    ((n.peer 0).iChoke = true → ∀ k index begin length,
      (n.peer 0).outq[k]? = some (.piece index begin length) →
        k = 0 ∧ 0 < (n.peer 0).outqOff) ∧
    ((n.peer 0).iChoke = true → ∀ k data,
      (n.peer 0).outq[k]? = some (.torrentData data) → ∃ index begin length,
        (k = 0 ∧ (n.peer 0).sent.getLast? = some (.piece index begin length)) ∨
        (k = 1 ∧ (n.peer 0).outq[0]? = some (.piece index begin length) ∧
          0 < (n.peer 0).outqOff)) ∧
    ∀ e n', (system ninePieces).Steps (fun _ => False) n e n' →
      (n.peer 0).line.blocks < (n'.peer 0).line.blocks →
      ∃ c ∈ (handle ninePieces e [] n).1, ∃ index begin length,
        c.fn = .peerOnRequest 0 index begin length ∧ (c.entry.peer 0).iChoke = false := by
  obtain ⟨n, reached, state⟩ : ∃ n, (system ninePieces).Reachable (fun _ => False) n ∧
      (n.peer 0).iChoke = true ∧
      (n.peer 0).outq = [.piece 1 0 4, .torrentData (some [0, 0, 0, 0]), .choke] :=
    System.Reachable.of_after
      [.shake none, .interest 0, .ulUnchoke 0, .request 0 1 0 4, .request 0 1 0 4,
        .write 0 0 20, .ulChoke 0]
      (.start (ninePieces.start fun i => i == 1)) (by decide +kernel)
  exact ⟨n, state, choking_agrees reached⟩

end Btpd.Download
