import Btpd.Download.Wire

/-!
# Counting what is uploaded

`uploaded` counts the bytes of blocks that the sockets of all peers have taken.
Only a write changes it, and only a handshake makes a new peer.
-/

namespace Btpd.Download

open Prog

variable {t : Torrent} {n : Net} {callers : List Fn} {p : Nat}

/-! ## What most events leave alone -/

/-- The counters that only a write and a handshake change. -/
def Tally (t : Torrent) (uploaded nextPeer : Nat) (n : Net) : Prop :=
  n.Inside t ∧ n.uploaded = uploaded ∧ n.nextPeer = nextPeer

section

variable {uploaded nextPeer : Nat}

theorem Tally.framed {n' : Net} (tally : Tally t uploaded nextPeer n)
    (framed : Net.Framed t n n') : Tally t uploaded nextPeer n' := by
  have outer := framed.outer
  simp only [Net.outer, Prod.mk.injEq] at outer
  obtain ⟨-, -, -, -, -, nextPeerEq, -, uploadedEq⟩ := outer
  exact ⟨framed.inside tally.1, uploadedEq.trans tally.2.1, nextPeerEq.trans tally.2.2⟩

/-- No routine of the download changes the counters. -/
theorem tallyKept : RoutineKept t whenReturns (Tally t uploaded nextPeer)
    (fun _ => Tally t uploaded nextPeer) fun _ _ => Tally t uploaded nextPeer where
  control _ _ := trivial
  inside tally := tally.1
  frame tally framed := tally.framed framed
  want _ _ _ _ tally := .inr (returns_of_forall fun _ _ => tally)
  unwant _ _ _ tally := returns_of_forall fun _ _ => tally
  request _ _ _ tally _ := returns_of_forall fun _ _ => tally
  cancel _ _ _ _ _ tally := returns_of_forall fun _ _ => tally
  looseInside tally := tally.1
  looseFrame tally framed := tally.framed framed
  loosen _ _ tally := tally
  unlink _ tally := returns_of_forall fun _ _ => tally
  tighten tally := returns_of_forall fun _ _ => tally
  badPiece _ _ tally := returns_of_forall fun _ _ => tally
  goodPiece _ _ _ _ tally := .inr (returns_of_forall fun _ _ => tally)
  ban _ tally := tally
  verify _ tally _ _ _ := tally
  announce _ _ _ tally := returns_of_forall fun _ _ => tally
  announced _ tally := tally

theorem tally_onPeer {f : Peer → Except Fault Peer} :
    Keeps whenReturns (Tally t uploaded nextPeer) (onPeer p f) := by
  intro callers n tally
  rw [wp_onPeer]
  exact returns_of_forall fun _ _ => tally

theorem tally_assert {c : Prop} [Decidable c] {e : Fault} :
    Keeps whenReturns (Tally t uploaded nextPeer) (assert c e : Routine Unit) :=
  keeps_assert trivial

theorem tally_peerKill : Keeps whenReturns (Tally t uploaded nextPeer) (peerKill t p) := by
  refine keeps_seq (keeps_modify fun _ tally => tally) fun _ => ?_
  refine keeps_seq (keeps_modify fun _ tally => tally) fun _ => ?_
  exact keeps_get fun _ _ => keeps_when tallyKept.keeps_dlOnUndownload _ _

theorem tally_dlOnPieceAnn {index : Nat} :
    Keeps whenReturns (Tally t uploaded nextPeer) (dlOnPieceAnn t p index) :=
  fun _ _ tally => tallyKept.dlOnPieceAnn_wp (.inr trivial) fun _ => tally

theorem tally_peerOnPiece {index begin : Nat} {data : List UInt8} :
    Keeps whenReturns (Tally t uploaded nextPeer) (peerOnPiece t p index begin data) := by
  refine keeps_get fun callers n tally => ?_
  dsimp only
  split
  · exact wp_pure.mpr tally
  · refine keeps_seq tally_assert (fun _ => ?_) _ _ tally
    refine keeps_seq tally_onPeer fun _ => keeps_seq tally_onPeer fun _ => ?_
    exact tallyKept.keeps_dlOnBlock

theorem tally_torrentOnTick :
    Keeps whenReturns (Tally t uploaded nextPeer) (torrentOnTick t) := by
  refine keeps_get fun callers n tally => ?_
  rw [wp_ite]
  split
  · rw [wp_bind, wp_modify]
    have seeding : Tally t uploaded nextPeer { n with seed := true } := tally
    refine keeps_forEach (fun p _ => keeps_get fun callers n tally => ?_) _ _ seeding
    exact keeps_seq tally_assert (fun _ => keeps_when tally_peerKill) _ _ tally
  · exact wp_pure.mpr tally

theorem keeps_ite {α : Type} {inv : Net → Prop} {k : Contract Net Fn Fault} {c : Prop} [Decidable c]
    {m m' : Routine α} (first : Keeps k inv m) (second : Keeps k inv m') :
    Keeps k inv (if c then m else m') := by
  split
  · exact first
  · exact second

/-- An event that is neither a write nor a handshake changes no counter. -/
theorem tally_handle (e : Event) (notShake : ∀ unwritten, e ≠ .shake unwritten)
    (notWrite : ∀ p wmax nwritten, e ≠ .write p wmax nwritten) :
    Keeps whenReturns (Tally t uploaded nextPeer) (handle t e) := by
  have attached : ∀ p (m : Routine Unit), Keeps whenReturns (Tally t uploaded nextPeer) m →
      Keeps whenReturns (Tally t uploaded nextPeer) (ifAttached p m) :=
    fun p m kept => keeps_get fun callers n => keeps_ite kept keeps_pure callers n
  cases e with
  | shake unwritten => exact absurd rfl (notShake unwritten)
  | write p wmax nwritten => exact absurd rfl (notWrite p wmax nwritten)
  | kill p => exact attached p _ tally_peerKill
  | choke p =>
      refine attached p _ (keeps_get fun callers n => keeps_ite keeps_pure ?_ callers n)
      refine keeps_seq tally_onPeer fun _ => keeps_seq ?_ fun _ => tally_onPeer
      exact keeps_get fun _ _ => keeps_when tallyKept.keeps_dlOnUndownload _ _
  | unchoke p =>
      refine attached p _ (keeps_get fun callers n => keeps_ite ?_ keeps_pure callers n)
      refine keeps_seq tally_onPeer fun _ => ?_
      exact keeps_get fun _ _ => keeps_when tallyKept.keeps_dlOnDownload _ _
  | interest p => exact attached p _ tally_onPeer
  | uninterest p => exact attached p _ tally_onPeer
  | haveMsg p index =>
      refine attached p _ (keeps_call (keeps_seq tally_assert fun _ => ?_))
      refine keeps_get fun callers n => keeps_ite keeps_pure ?_ callers n
      exact keeps_seq tally_onPeer fun _ => tally_dlOnPieceAnn
  | bitfield p field =>
      refine attached p _ (keeps_get fun callers n => keeps_ite ?_ tally_peerKill callers n)
      refine keeps_call (keeps_get fun callers n => keeps_seq tally_assert (fun _ => ?_) callers n)
      refine keeps_seq tally_onPeer fun _ => keeps_forEach fun i _ => ?_
      refine keeps_get fun callers n => keeps_when ?_ callers n
      exact keeps_seq tally_onPeer fun _ => tally_dlOnPieceAnn
  | request p index begin length =>
      refine attached p _ (keeps_get fun callers n => keeps_ite ?_ keeps_pure callers n)
      exact keeps_ite tally_peerKill (keeps_call tally_onPeer)
  | cancel p index begin length => exact attached p _ tally_onPeer
  | piece p index begin data => exact attached p _ tally_peerOnPiece
  | keepalive p => exact attached p _ tally_onPeer
  | ulChoke p => exact attached p _ tally_onPeer
  | ulUnchoke p => exact attached p _ tally_onPeer
  | tick => exact tally_torrentOnTick

end

/-! ## The bytes of blocks that are out -/

theorem NetBuf.dataBytes_zero {nb : NetBuf} : nb.dataBytes 0 = 0 := by
  cases nb <;> rfl

theorem NetBuf.dataBytes_add {nb : NetBuf} {k m : Nat} :
    nb.dataBytes (k + m) = nb.dataBytes k + nb.dataBytes m := by
  cases nb <;> rfl

section

variable {l l' : Line}

theorem Line.begunBytes_zero {outq : List NetBuf} : begunBytes 0 outq = 0 := by
  cases outq with
  | nil => rfl
  | cons nb outq => exact NetBuf.dataBytes_zero

/-- The queue changes behind the message that has begun to go out. -/
theorem Line.blockBytes_requeue {outq : List NetBuf}
    (same : 0 < l.outqOff → outq.head? = l.outq.head?) :
    ({ l with outq := outq } : Line).blockBytes = l.blockBytes := by
  show _ + begunBytes l.outqOff outq = _ + begunBytes l.outqOff l.outq
  rcases Nat.eq_zero_or_pos l.outqOff with zero | out
  · rw [zero, begunBytes_zero, begunBytes_zero]
  · rw [begunBytes, begunBytes, same out]

theorem Line.blockBytes_push {nbs : List NetBuf} (ready : l.Ready) :
    (l.push nbs).blockBytes = l.blockBytes := by
  refine blockBytes_requeue fun out => ?_
  cases outqEq : l.outq with
  | nil =>
      rw [ready outqEq] at out
      exact absurd out (Nat.lt_irrefl 0)
  | cons nb outq => rfl

theorem Line.blockBytes_step (step : Line.Step l l') : l'.blockBytes = l.blockBytes := by
  cases step with
  | say _ ready => exact blockBytes_push ready
  | unsay _ _ free => exact blockBytes_requeue (head?_eraseIdx free)
  | @unsayBlock k _ _ _ _ _ free =>
      refine blockBytes_requeue fun out => ?_
      have second : ((l.outq.eraseIdx k).eraseIdx k).head? = (l.outq.eraseIdx k).head? :=
        head?_eraseIdx (l := { l with outq := l.outq.eraseIdx k }) free out
      exact second.trans (head?_eraseIdx free out)
  | unchoke ready => exact (blockBytes_push ready :)
  | choke ready _ => exact (blockBytes_push ready :)
  | limit ready _ => exact blockBytes_push ready

theorem blockBytes_lineKept (t : Torrent) (p count : Nat) :
    LineKept t (fun _ => False) (fun _ => False) fun v _ l => v.p = p → l.blockBytes = count where
  step step held here := (Line.blockBytes_step step).trans (held here)
  write _ never := never.elim
  block _ _ _ _ _ _ held _ _ _ _ _ ready := .inr fun here =>
    (Line.blockBytes_push ready).trans (held here)
  had held _ _ _ := held
  told held _ _ ready here := (Line.blockBytes_push ready).trans (held here)
  missed _ held _ := held
  leave held := held
  field _ held _ := held
  setBit _ held := held

/-- A write counts the bytes of blocks that it takes off the queue. -/
theorem Peer.written_blockBytes {peer : Peer} (outq : List NetBuf) (bcount : Nat)
    (fits : ∀ nb, outq.head? = some nb → peer.outqOff ≤ nb.len) :
    Returns (peer.written bcount outq) fun result =>
      result.2.line.blockBytes = ({ peer.line with outq := outq } : Line).blockBytes + result.1 := by
  induction outq generalizing peer bcount with
  | nil => rfl
  | cons nb outq ih =>
      unfold written
      split
      · rfl
      dsimp only
      split
      · refine ends_seq noteSent_line fun peer₁ lineEq => ?_
        have sentEq : peer₁.sent = peer.sent := congrArg Line.sent lineEq
        refine ends_seq (ih _ fun _ _ => Nat.zero_le _) ?_
        rintro ⟨uploaded, peer₂⟩ counted
        dsimp only at counted ⊢
        show peer₂.line.blockBytes = _ + (_ + uploaded)
        rw [counted]
        have fitsHere := fits nb rfl
        have split : nb.dataBytes nb.len =
            nb.dataBytes peer.outqOff + nb.dataBytes (nb.len - peer.outqOff) := by
          rw [← NetBuf.dataBytes_add, Nat.add_sub_cancel' fitsHere]
        have sum : ((peer.sent ++ [nb]).map fun nb => nb.dataBytes nb.len).sum =
            (peer.sent.map fun nb => nb.dataBytes nb.len).sum + nb.dataBytes nb.len := by
          simp
        show ((peer₁.sent ++ [nb]).map fun nb => nb.dataBytes nb.len).sum +
          Line.begunBytes 0 outq + uploaded = (peer.sent.map fun nb => nb.dataBytes nb.len).sum +
            nb.dataBytes peer.outqOff + (nb.dataBytes (nb.len - peer.outqOff) + uploaded)
        rw [sentEq, Line.begunBytes_zero, sum]
        omega
      · show _ + nb.dataBytes (peer.outqOff + bcount) = _ + nb.dataBytes peer.outqOff + _
        rw [NetBuf.dataBytes_add, Nat.add_assoc]
        rfl

theorem Peer.netWrite_blockBytes {peer : Peer} {cm : Content} {wmax nwritten : Nat}
    (fits : ∀ nb, peer.outq.head? = some nb → peer.outqOff ≤ nb.len) :
    Returns (peer.netWrite (cm.readBlock t) (NetBuf.bytes t cm.pieceField) wmax nwritten)
      fun result => result.2.line.blockBytes = peer.line.blockBytes + result.1 := by
  unfold netWrite
  dsimp only
  split
  · trivial
  rename_i some
  refine ends_seq (collect_line _ _ _ _ _) ?_
  rintro ⟨iovs, outq⟩ ⟨filled, -⟩
  dsimp only at filled ⊢
  have same : outq.head? = peer.outq.head? := by
    match outqEq : peer.outq with
    | [] => exact absurd outqEq some
    | nb :: rest =>
        rw [outqEq] at filled
        obtain ⟨rest', rfl⟩ := filled.head
        rfl
  refine ends_mono (written_blockBytes outq _ (same ▸ fits)) fun result counted => ?_
  rw [counted]
  congr 1
  exact Line.blockBytes_requeue (l := peer.line) fun _ => same

end

/-! ## Runs -/

/-- `uploaded` counts the bytes of blocks that the sockets of all peers have taken. -/
def Counted (n : Net) : Prop :=
  n.uploaded = ((List.range n.nextPeer).map fun p => (n.peer p).line.blockBytes).sum

/-- The first message of the queue is no shorter than what is out of it. -/
theorem Line.Wired.fits {l : Line} (wired : l.Wired t) (nb : NetBuf)
    (found : l.outq.head? = some nb) : l.outqOff ≤ nb.len := by
  obtain ⟨_, part, -, -, lengthEq, -, first⟩ := wired
  obtain ⟨bytes, carries, cut⟩ := first nb found
  rw [← lengthEq, ← carries.1]
  exact cut.length_le

theorem blockBytes_create {unwritten : Option (Fin 68)} :
    (Peer.create t unwritten).line.blockBytes = 0 := by
  cases unwritten <;> rfl

theorem blockBytes_onShake {unwritten : Option (Fin 68)} :
    Returns (Peer.onShake t n unwritten) fun peer => peer.line.blockBytes = 0 := by
  refine ends_mono Peer.onShake_line ?_
  rintro peer ⟨-, ⟨-, lineEq⟩ | lineEq | lineEq⟩
  · rw [lineEq, blockBytes_create]
  · rw [lineEq, Line.blockBytes_push (ready_create unwritten), blockBytes_create]
  · rw [lineEq, Line.blockBytes_push (ready_create unwritten), blockBytes_create]

theorem counted_peerOnShake {unwritten : Option (Fin 68)} (counted : Counted n) :
    (peerOnShake t unwritten).wp whenReturns callers (fun _ n' => Counted n') n := by
  unfold peerOnShake
  rw [wp_bind, wp_get, wp_bind, wp_ofExcept]
  refine ends_mono blockBytes_onShake fun peer none => ?_
  rw [wp_modify]
  show n.uploaded = ((List.range (n.nextPeer + 1)).map fun p =>
    ((n.setPeer n.nextPeer peer).peer p).line.blockBytes).sum
  have others : (List.range n.nextPeer).map (fun p =>
      ((n.setPeer n.nextPeer peer).peer p).line.blockBytes) =
        (List.range n.nextPeer).map fun p => (n.peer p).line.blockBytes := by
    refine List.map_congr_left fun p mem => ?_
    rw [Net.setPeer_peer, if_neg (Nat.ne_of_lt (List.mem_range.mp mem))]
  rw [List.range_succ, List.map_append, List.sum_append, others, counted]
  simp [none]

theorem counted_netWrite {wmax nwritten : Nat} (counted : Counted n) (known : p < n.nextPeer)
    (wired : (n.peer p).line.Wired t) :
    (netWrite t p wmax nwritten).wp whenReturns callers (fun _ n' => Counted n') n := by
  unfold netWrite
  rw [wp_bind, wp_get, wp_bind, wp_ofExcept]
  refine ends_mono (Peer.netWrite_blockBytes wired.fits) ?_
  rintro ⟨uploaded, peer⟩ more
  rw [wp_modify]
  show n.uploaded + uploaded = ((List.range n.nextPeer).map fun q =>
    ((n.setPeer p peer).peer q).line.blockBytes).sum
  rw [counted]
  refine (Count.sum_map_add List.nodup_range (List.mem_range.mpr known) ?_
    fun q _ other => ?_).symm
  · rw [Net.setPeer_peer, if_pos rfl]
    exact more
  · rw [Net.setPeer_peer, if_neg other]

/-- Each event adds to `uploaded` what it adds to the blocks on the wire. -/
theorem counted_handle {earlier : List Net}
    (run : (system t).Run (fun _ => False) (n :: earlier)) (e : Event) (counted : Counted n) :
    (handle t e).wp whenReturns [] (fun _ n' => Counted n') n := by
  have base := base_of_reachable run.reachable
  by_cases shakes : ∃ unwritten, e = .shake unwritten
  · obtain ⟨unwritten, rfl⟩ := shakes
    exact counted_peerOnShake counted
  by_cases writes : ∃ p wmax nwritten, e = .write p wmax nwritten
  · obtain ⟨p, wmax, nwritten, rfl⟩ := writes
    refine PeerKept.ifAttached_wp (fun mem => ?_) counted
    exact counted_netWrite counted (base.fresh p mem) (streamed_of_run run p).wired
  · have tally := tally_handle e (fun unwritten same => shakes ⟨unwritten, same⟩)
      (fun p wmax nwritten same => writes ⟨p, wmax, nwritten, same⟩) [] n
      ⟨base.inside, rfl, rfl⟩
    have blocks : ∀ p, (handle t e).wp whenReturns []
        (fun _ n' => (n'.peer p).line.blockBytes = (n.peer p).line.blockBytes) n := by
      intro p
      refine wp_mono ((blockBytes_lineKept t p _).peerKept.handle_wp e
        (fun unwritten same => absurd ⟨unwritten, same⟩ shakes)
        (fun p wmax nwritten same => absurd ⟨p, wmax, nwritten, same⟩ writes)
        ⟨base, fun q here => ?_⟩) fun _ n' held => held.each p rfl
      rw [show q = p from here]
    unfold wp at tally blocks ⊢
    right
    split
    · rename_i n' ran
      rw [ran] at tally
      obtain ⟨-, uploadedEq, nextPeerEq⟩ := tally.resolve_left (fun ⟨_, _, bad⟩ => bad)
      rw [Counted, uploadedEq, nextPeerEq, counted]
      refine congrArg List.sum (List.map_congr_left fun p _ => ?_)
      have same := (blocks p).resolve_left (fun ⟨_, _, bad⟩ => bad)
      rw [ran] at same
      exact same.symm
    · trivial

theorem counted_of_run {earlier : List Net}
    (run : (system t).Run (fun _ => False) (n :: earlier)) : Counted n := by
  refine run.invariant (fun _ n => Counted n) (fun _ => True) ?_ ?_
  · rintro n ⟨_, _, _, rfl⟩
    rfl
  · exact fun n e earlier run counted => counted_handle run e counted

/-- The marked bytes that are out begin with the handshake. -/
theorem Out.stream {visited : List Net} {rest : List NetBuf} {out : List (UInt8 × Bool)}
    (messages : Messages (wholeBlock t visited) t.fieldBytes rest)
    (written : Out t (.shake :: rest) out) :
    ∃ ms : List Message, out <+: (shakeBytes t).map (·, false) ++ ms.flatMap Message.marked ∧
      ∀ m ∈ ms, m.Honest t visited := by
  have shake : ∀ {bytes : List UInt8}, NetBuf.shake.Carries t bytes → bytes = shakeBytes t :=
    fun carries => carries.eq (by simp) fun _ => false
  cases written with
  | nothing => exact ⟨[], List.nil_prefix, nofun⟩
  | part _ carries cut =>
      rw [shake carries] at cut
      exact ⟨[], (cut.map (·, false)).trans (List.prefix_append _ _), nofun⟩
  | whole _ carries written =>
      obtain ⟨ms, cut, honest⟩ := messages.out written
      rw [shake carries]
      exact ⟨ms, (List.prefix_append_right_inj _).mpr cut, honest⟩

/-- The blocks among the bytes that are out lie behind the handshake. -/
theorem countP_stream {ms : List Message} {out : List (UInt8 × Bool)}
    (cut : out <+: (shakeBytes t).map (·, false) ++ ms.flatMap Message.marked) :
    out.countP Prod.snd = Message.blockBytes ms (out.length - 68) := by
  have shake : ((shakeBytes t).map (·, false)).length = 68 := by
    rw [List.length_map, shakeBytes_length]
  have silent : (((shakeBytes t).map (·, false)).take out.length).countP Prod.snd = 0 := by
    refine List.countP_eq_zero.mpr fun b mem => ?_
    obtain ⟨_, -, rfl⟩ := List.mem_map.mp (List.mem_of_mem_take mem)
    nofun
  have split := List.prefix_iff_eq_take.mp cut
  rw [List.take_append, shake] at split
  rw [Message.blockBytes]
  conv_lhs => rw [split]
  rw [List.countP_append, silent, Nat.zero_add]

/-- At each moment of a run the socket of a peer has taken the first bytes of the
handshake and of whole messages, whose blocks the content held at a moment of the
run; `uploaded` counts the bytes of blocks among them.  What the socket has taken
only grows, and no message is taken back of which a byte is out. -/
theorem wire_messages {earlier : List Net}
    (run : (system t).Run (fun _ => False) (n :: earlier)) :
    (∃ ms : Nat → List Message,
      (∀ p, (n.peer p).wire <+: shakeBytes t ++ (ms p).flatMap Message.encode ∧
        ∀ m ∈ ms p, m.Honest t (n :: earlier)) ∧
      n.uploaded = ((List.range n.nextPeer).map fun p =>
        Message.blockBytes (ms p) ((n.peer p).wire.length - 68)).sum) ∧
    ∀ p ∈ n.peers, ∀ e n', (system t).Steps (fun _ => False) n e n' →
      (n.peer p).wire <+: (n'.peer p).wire ∧
        (n.peer p).line.started <+: (n'.peer p).line.started := by
  have each : ∀ p, ∃ ms : List Message,
      ((n.peer p).wire <+: shakeBytes t ++ ms.flatMap Message.encode ∧
        ∀ m ∈ ms, m.Honest t (n :: earlier)) ∧
      (n.peer p).line.blockBytes = Message.blockBytes ms ((n.peer p).wire.length - 68) := by
    intro p
    have streamed := streamed_of_run run p
    obtain ⟨out, written, wireEq, blocksEq⟩ := streamed.wired.out streamed.read
    obtain ⟨rest, logEq, messages⟩ := streamed.spoken
    rw [logEq] at written
    obtain ⟨ms, cut, honest⟩ := written.stream messages
    have lengthEq : (n.peer p).wire.length = out.length := by
      rw [show (n.peer p).wire = out.map Prod.fst from wireEq.symm, List.length_map]
    refine ⟨ms, ⟨?_, honest⟩, ?_⟩
    · have cut' := cut.map Prod.fst
      rw [List.map_append, map_fst_mark, Message.fst_marked, wireEq] at cut'
      exact cut'
    · rw [← blocksEq, lengthEq]
      exact countP_stream cut
  choose ms streamed blocks using each
  refine ⟨⟨ms, streamed, ?_⟩, fun p mem e n' step => wire_grows run.reachable mem step⟩
  rw [counted_of_run run]
  exact congrArg List.sum (List.map_congr_left fun p _ => blocks p)

theorem wire_messages_ninePieces : ∃ n earlier,
    ((n.peer 0).wire.length = 68 + 7 + 5 + 13 + 2 ∧ n.uploaded = 2) ∧
    (∃ ms : Nat → List Message,
      (∀ p, (n.peer p).wire <+: shakeBytes ninePieces ++ (ms p).flatMap Message.encode ∧
        ∀ m ∈ ms p, m.Honest ninePieces (n :: earlier)) ∧
      n.uploaded = ((List.range n.nextPeer).map fun p =>
        Message.blockBytes (ms p) ((n.peer p).wire.length - 68)).sum) ∧
    ∀ p ∈ n.peers, ∀ e n', (system ninePieces).Steps (fun _ => False) n e n' →
      (n.peer p).wire <+: (n'.peer p).wire ∧
        (n.peer p).line.started <+: (n'.peer p).line.started := by
  obtain ⟨n, reached, state⟩ : ∃ n, (system ninePieces).Reachable (fun _ => False) n ∧
      (n.peer 0).wire.length = 68 + 7 + 5 + 13 + 2 ∧ n.uploaded = 2 :=
    System.Reachable.of_after
      [.shake (some 10), .interest 0, .ulUnchoke 0, .request 0 1 0 4, .write 0 0 60,
        .request 0 1 2 2, .write 0 25 100, .ulChoke 0]
      (.start (ninePieces.start fun i => i == 1)) (by decide +kernel)
  obtain ⟨earlier, run⟩ := reached.run
  exact ⟨n, earlier, state, wire_messages run⟩

end Btpd.Download
