import Btpd.Download.Messages
import Btpd.Download.Counts

/-!
# What a peer receives

The bytes that the socket of a peer has taken are the first bytes of a handshake
and of messages in their encoding, each with its length before it.  A block is
the data that was read from the content at some earlier moment of the run.
-/

namespace Btpd.Download

open Prog

/-! ## Messages and their bytes -/

/-- A message of the protocol. -/
inductive Message
  | keepalive
  | choke
  | unchoke
  | interest
  | uninterest
  | haveMsg (index : Nat)
  | bitfield (field : List UInt8)
  | request (index begin length : Nat)
  | piece (index begin : Nat) (data : List UInt8)
  | cancel (index begin length : Nat)

namespace Message

/-- The block that a message carries. -/
def data : Message → List UInt8
  | .piece _ _ data => data
  | _ => []

/-- The number of the message and what follows it, up to a block. -/
def fields : Message → List UInt8
  | .keepalive => []
  | .choke => [0]
  | .unchoke => [1]
  | .interest => [2]
  | .uninterest => [3]
  | .haveMsg index => 4 :: encBe32 index
  | .bitfield field => 5 :: field
  | .request index begin length => 6 :: (encBe32 index ++ encBe32 begin ++ encBe32 length)
  | .piece index begin _ => 7 :: (encBe32 index ++ encBe32 begin)
  | .cancel index begin length => 8 :: (encBe32 index ++ encBe32 begin ++ encBe32 length)

/-- The length of a message, and the message up to its block. -/
def head (m : Message) : List UInt8 := encBe32 (m.fields.length + m.data.length) ++ m.fields

def encode (m : Message) : List UInt8 := m.head ++ m.data

/-- The encoding, with each byte of a block marked. -/
def marked (m : Message) : List (UInt8 × Bool) := m.head.map (·, false) ++ m.data.map (·, true)

/-- The number of bytes of blocks among the first `k` bytes of the messages. -/
def blockBytes (ms : List Message) (k : Nat) : Nat :=
  ((ms.flatMap marked).take k).countP Prod.snd

/-- A block is what the content held at some moment; a bit field has a bit for
each piece. -/
def Honest (t : Torrent) (visited : List Net) : Message → Prop
  | .piece index begin data => data.length ≤ pieceBlocklen ∧
      ∃ n ∈ visited, data = n.cm.readBlock t index begin data.length
  | .bitfield field => field.length = t.fieldBytes
  | _ => True

end Message

theorem map_fst_mark {bytes : List UInt8} {b : Bool} : (bytes.map (·, b)).map Prod.fst = bytes := by
  rw [List.map_map]
  exact List.map_id bytes

theorem Message.fst_marked (ms : List Message) :
    (ms.flatMap marked).map Prod.fst = ms.flatMap encode := by
  rw [List.map_flatMap]
  refine List.flatMap_congr fun m _ => ?_
  rw [marked, List.map_append, map_fst_mark, map_fst_mark, encode]

/-! ## Buffers and their bytes -/

/-- The bytes that a buffer may have when it is written.  A bit field is the live
piece field, so its bytes may change while it is written. -/
def NetBuf.Carries (t : Torrent) (nb : NetBuf) (bytes : List UInt8) : Prop :=
  bytes.length = nb.len ∧
    ((∀ nbytes held, nb ≠ .bitdata nbytes held) → ∀ held, bytes = nb.bytes t held)

/-- The data of a block. -/
def NetBuf.isData : NetBuf → Bool
  | .torrentData _ => true
  | _ => false

/-- The bytes of a buffer, marked when they are a block. -/
def NetBuf.mark (nb : NetBuf) (bytes : List UInt8) : List (UInt8 × Bool) :=
  bytes.map (·, nb.isData)

/-- The messages that a buffer by itself consists of. -/
def NetBuf.messages : NetBuf → List Message
  | .choke => [.choke]
  | .unchoke => [.unchoke]
  | .interest => [.interest]
  | .uninterest => [.uninterest]
  | .haveMsg index => [.haveMsg index]
  | .request msg => [.request msg.index msg.begin msg.length]
  | .cancel index begin length => [.cancel index begin length]
  | .multihave pieces => pieces.map .haveMsg
  | .keepalive => [.keepalive]
  | _ => []

variable {t : Torrent} {nb : NetBuf} {bytes : List UInt8}

theorem NetBuf.carries_bytes (nb : NetBuf) (held : Nat → Bool) : nb.Carries t (nb.bytes t held) := by
  refine ⟨nb.length_bytes, fun notField held' => ?_⟩
  cases nb with
  | bitdata nbytes pieces => exact absurd rfl (notField nbytes pieces)
  | _ => rfl

/-- A buffer that has begun to go out may go on with the bytes it has now. -/
theorem NetBuf.Carries.resume {part : List UInt8}
    (carries : nb.Carries t bytes) (cut : part <+: bytes) (held : Nat → Bool) :
    nb.Carries t (part ++ (nb.bytes t held).drop part.length) := by
  have short := cut.length_le
  refine ⟨?_, fun notField held' => ?_⟩
  · rw [List.length_append, List.length_drop, nb.length_bytes]
    have lengthEq := carries.1
    omega
  · have same := carries_bytes (t := t) nb held
    rw [same.2 notField held', ← carries.2 notField held']
    obtain ⟨tail, rfl⟩ := cut
    rw [List.drop_left]

theorem NetBuf.Carries.eq (carries : nb.Carries t bytes)
    (notField : ∀ nbytes held, nb ≠ .bitdata nbytes held) (held : Nat → Bool) :
    bytes = nb.bytes t held :=
  carries.2 notField held

/-- A buffer by itself is written as its messages are encoded. -/
theorem NetBuf.mark_messages (alone : nb.alone = true) (carries : nb.Carries t bytes) :
    nb.mark bytes = nb.messages.flatMap Message.marked := by
  have bytesEq : ∀ held, bytes = nb.bytes t held := by
    refine carries.2 ?_
    rintro nbytes held rfl
    cases alone
  cases nb with
  | piece | torrentData | bitfield | bitdata | shake => cases alone
  | multihave pieces =>
      rw [bytesEq fun _ => false]
      show (pieces.flatMap haveBytes).map _ = (pieces.map Message.haveMsg).flatMap Message.marked
      rw [List.map_flatMap, List.flatMap_map]
      rfl
  | _ =>
      rw [bytesEq fun _ => false]
      rfl

theorem NetBuf.honest_messages {visited : List Net} :
    ∀ m ∈ nb.messages, m.Honest t visited := by
  cases nb with
  | multihave pieces =>
      intro m mem
      obtain ⟨index, -, rfl⟩ := List.mem_map.mp mem
      trivial
  | _ => simp [NetBuf.messages, Message.Honest]

/-! ## The written part of a queue -/

/-- The marked bytes are the first bytes of the buffers; nothing is written of a
header whose data is still to be read. -/
inductive Out (t : Torrent) : List NetBuf → List (UInt8 × Bool) → Prop
  | nothing {log : List NetBuf} : Out t log []
  | part {nb : NetBuf} {log : List NetBuf} {bytes part : List UInt8} :
      Line.Loaded (nb :: log) → nb.Carries t bytes → part <+: bytes →
      Out t (nb :: log) (nb.mark part)
  | whole {nb : NetBuf} {log : List NetBuf} {bytes : List UInt8} {out : List (UInt8 × Bool)} :
      Line.Loaded (nb :: log) → nb.Carries t bytes → Out t log out →
      Out t (nb :: log) (nb.mark bytes ++ out)

/-- Which data may follow the header of a block: none yet, or what the content
held at a moment of the run. -/
def wholeBlock (t : Torrent) (visited : List Net) (index begin length : Nat)
    (data : Option (List UInt8)) : Prop :=
  length ≤ pieceBlocklen ∧
    ∀ block, data = some block → ∃ n ∈ visited, block = n.cm.readBlock t index begin length

theorem Content.length_readBlock {cm : Content} {index begin length : Nat} :
    (cm.readBlock t index begin length).length = length := by
  simp [Content.readBlock, Content.read]

theorem NetBuf.mark_prefix {part : List UInt8} (cut : part <+: bytes) :
    nb.mark part <+: nb.mark bytes :=
  cut.map _

/-- What is written of whole messages are the first bytes of their encodings. -/
theorem Messages.out {visited : List Net} {log : List NetBuf} {out : List (UInt8 × Bool)}
    (messages : Messages (wholeBlock t visited) t.fieldBytes log) (written : Out t log out) :
    ∃ ms : List Message, out <+: ms.flatMap Message.marked ∧ ∀ m ∈ ms, m.Honest t visited := by
  induction messages generalizing out with
  | nil =>
      cases written
      exact ⟨[], List.prefix_rfl, nofun⟩
  | @alone nb rest alone _ ih =>
      cases written with
      | nothing => exact ⟨[], List.nil_prefix, nofun⟩
      | part _ carries cut =>
          refine ⟨nb.messages, ?_, NetBuf.honest_messages⟩
          rw [← NetBuf.mark_messages alone carries]
          exact NetBuf.mark_prefix cut
      | whole _ carries written =>
          obtain ⟨ms, cut, honest⟩ := ih written
          refine ⟨nb.messages ++ ms, ?_, List.forall_mem_append.mpr
            ⟨NetBuf.honest_messages, honest⟩⟩
          rw [NetBuf.mark_messages alone carries, List.flatMap_append]
          exact (List.prefix_append_right_inj _).mpr cut
  | @block index begin length data rest whole _ ih =>
      -- the data is there as soon as a byte of the header is written
      have encoded : ∀ {bytes : List UInt8},
          Line.Loaded (.piece index begin length :: .torrentData data :: rest) →
          (NetBuf.piece index begin length).Carries t bytes → ∃ block, data = some block ∧
            Message.Honest t visited (.piece index begin block) ∧
            Message.marked (.piece index begin block) =
              (NetBuf.piece index begin length).mark bytes ++
                (NetBuf.torrentData data).mark block := by
        intro bytes loaded carries
        cases data with
        | none => exact absurd rfl (loaded index begin length rest)
        | some block =>
            obtain ⟨short, read⟩ := whole
            obtain ⟨n, visited, blockEq⟩ := read block rfl
            have lengthEq : block.length = length := by rw [blockEq, Content.length_readBlock]
            refine ⟨block, rfl, ?_, ?_⟩
            · rw [Message.Honest, lengthEq]
              exact ⟨short, n, visited, blockEq⟩
            rw [carries.eq (by simp) fun _ => false]
            subst lengthEq
            rfl
      cases written with
      | nothing => exact ⟨[], List.nil_prefix, nofun⟩
      | part loaded carries cut =>
          obtain ⟨block, -, honest, markedEq⟩ := encoded loaded carries
          refine ⟨[.piece index begin block], ?_, by simpa using honest⟩
          rw [List.flatMap_singleton, markedEq]
          exact (NetBuf.mark_prefix cut).trans (List.prefix_append _ _)
      | whole loaded carries written =>
          obtain ⟨block, rfl, honest, markedEq⟩ := encoded loaded carries
          cases written with
          | nothing =>
              refine ⟨[.piece index begin block], ?_, by simpa using honest⟩
              rw [List.flatMap_singleton, markedEq, List.append_nil]
              exact List.prefix_append _ _
          | part _ carries' cut =>
              refine ⟨[.piece index begin block], ?_, by simpa using honest⟩
              rw [List.flatMap_singleton, markedEq]
              rw [carries'.eq (by simp) fun _ => false] at cut
              exact (List.prefix_append_right_inj _).mpr (NetBuf.mark_prefix cut)
          | whole _ carries' written =>
              obtain ⟨ms, cut, honest'⟩ := ih written
              refine ⟨.piece index begin block :: ms, ?_,
                List.forall_mem_cons.mpr ⟨honest, honest'⟩⟩
              rw [List.flatMap_cons, markedEq, carries'.eq (by simp) fun _ => false,
                List.append_assoc]
              exact (List.prefix_append_right_inj _).mpr ((List.prefix_append_right_inj _).mpr cut)
  | @field held rest _ ih =>
      have encoded : ∀ {bytes field : List UInt8}, NetBuf.bitfield.Carries t bytes →
          field.length = t.fieldBytes →
            Message.marked (.bitfield field) = NetBuf.bitfield.mark bytes ++
              (NetBuf.bitdata t.fieldBytes held).mark field := by
        intro bytes field carries lengthEq
        rw [carries.eq (by simp) fun _ => false]
        simp [Message.marked, Message.head, Message.fields, Message.data, NetBuf.mark,
          NetBuf.isData, NetBuf.bytes, lengthEq]
      cases written with
      | nothing => exact ⟨[], List.nil_prefix, nofun⟩
      | part _ carries cut =>
          have lengthEq : (List.replicate t.fieldBytes (0 : UInt8)).length = t.fieldBytes :=
            List.length_replicate
          refine ⟨[.bitfield _], ?_, List.forall_mem_singleton.mpr lengthEq⟩
          rw [List.flatMap_singleton, encoded carries lengthEq]
          exact (NetBuf.mark_prefix cut).trans (List.prefix_append _ _)
      | whole _ carries written =>
          cases written with
          | nothing =>
              have lengthEq : (List.replicate t.fieldBytes (0 : UInt8)).length = t.fieldBytes :=
                List.length_replicate
              refine ⟨[.bitfield _], ?_, List.forall_mem_singleton.mpr lengthEq⟩
              rw [List.flatMap_singleton, encoded carries lengthEq, List.append_nil]
              exact List.prefix_append _ _
          | part _ carries' cut =>
              refine ⟨[.bitfield _], ?_, List.forall_mem_singleton.mpr carries'.1⟩
              rw [List.flatMap_singleton, encoded carries carries'.1]
              exact (List.prefix_append_right_inj _).mpr (NetBuf.mark_prefix cut)
          | whole _ carries' written =>
              obtain ⟨ms, cut, honest⟩ := ih written
              refine ⟨.bitfield _ :: ms, ?_,
                List.forall_mem_cons.mpr ⟨carries'.1, honest⟩⟩
              rw [List.flatMap_cons, encoded carries carries'.1, List.append_assoc]
              exact (List.prefix_append_right_inj _).mpr ((List.prefix_append_right_inj _).mpr cut)

/-! ## The written part of a line -/

namespace Line

variable {l l' : Line} {visited : List Net}

/-- The number of messages of which bytes are out. -/
def begun (l : Line) : Nat := l.sent.length + if 0 < l.outqOff then 1 else 0

/-- The messages of which bytes are out. -/
def started (l : Line) : List NetBuf := l.log.take l.begun

/-- The socket has taken the bytes of what has been sent, and the first
`outqOff` bytes of the first message of the queue. -/
def Wired (t : Torrent) (l : Line) : Prop :=
  ∃ (chunks : List (List UInt8)) (part : List UInt8),
    List.Forall₂ (NetBuf.Carries t) l.sent chunks ∧ l.wire = chunks.flatten ++ part ∧
    part.length = l.outqOff ∧ (l.outq = [] → part = []) ∧
    ∀ nb, l.outq.head? = some nb → ∃ bytes, nb.Carries t bytes ∧ part <+: bytes

/-- Each block of which bytes are out has been read. -/
def Read (l : Line) : Prop := ∀ j, l.log[j]? = some (.torrentData none) → l.begun < j

theorem sent_le_begun : l.sent.length ≤ l.begun := Nat.le_add_right _ _

theorem begun_le_of_free {k : Nat} (free : ¬ l.Begun k) : l.begun ≤ l.sent.length + k := by
  unfold begun
  unfold Begun at free
  split <;> omega

theorem begun_le_log (ready : l.Ready) : l.begun ≤ l.log.length := by
  unfold begun
  rw [log, List.length_append]
  have some : 0 < l.outqOff → 0 < l.outq.length := by
    intro out
    refine List.length_pos_iff.mpr fun empty => ?_
    rw [ready empty] at out
    exact Nat.lt_irrefl 0 out
  split <;> omega

/-- The queue changes behind the message that has begun to go out. -/
theorem Wired.requeue {outq : List NetBuf} (wired : l.Wired t)
    (same : 0 < l.outqOff → outq.head? = l.outq.head?) :
    ({ l with outq := outq } : Line).Wired t := by
  obtain ⟨chunks, part, carried, wireEq, lengthEq, empty, first⟩ := wired
  rcases Nat.eq_zero_or_pos l.outqOff with zero | out
  · have none : part = [] := List.length_eq_zero_iff.mp (lengthEq.trans zero)
    refine ⟨chunks, part, carried, wireEq, lengthEq, fun _ => none, fun nb _ => ?_⟩
    exact ⟨nb.bytes t fun _ => false, NetBuf.carries_bytes _ _, none ▸ List.nil_prefix⟩
  · refine ⟨chunks, part, carried, wireEq, lengthEq, fun left => ?_, fun nb found => ?_⟩
    · have gone : l.outq.head? = none := by
        rw [← same out]
        exact List.head?_eq_none_iff.mpr left
      exact empty (List.head?_eq_none_iff.mp gone)
    · exact first nb ((same out).symm.trans found)

theorem Wired.push {nbs : List NetBuf} (wired : l.Wired t) (ready : l.Ready) :
    (l.push nbs).Wired t := by
  refine wired.requeue fun out => ?_
  cases outqEq : l.outq with
  | nil =>
      rw [ready outqEq] at out
      exact absurd out (Nat.lt_irrefl 0)
  | cons nb outq => rfl

theorem head?_eraseIdx {k : Nat} (free : ¬ l.Begun k) (out : 0 < l.outqOff) :
    (l.outq.eraseIdx k).head? = l.outq.head? := by
  cases k with
  | zero => exact absurd ⟨rfl, out⟩ free
  | succ k => cases l.outq <;> rfl

theorem Wired.step (wired : l.Wired t) (step : Step l l') : l'.Wired t := by
  cases step with
  | say _ ready => exact wired.push ready
  | unsay _ _ free => exact wired.requeue (head?_eraseIdx free)
  | @unsayBlock k _ _ _ _ _ free =>
      refine wired.requeue fun out => ?_
      have first := head?_eraseIdx free out
      have second : ((l.outq.eraseIdx k).eraseIdx k).head? = (l.outq.eraseIdx k).head? :=
        head?_eraseIdx (l := { l with outq := l.outq.eraseIdx k }) free out
      exact second.trans first
  | unchoke ready => exact wired.push ready
  | choke ready _ => exact wired.push ready
  | limit ready _ => exact wired.push ready

theorem Wired.write {cm : Content} (wired : l.Wired t) (write : Write t cm l l') :
    l'.Wired t := by
  cases write with
  | fill fills =>
      refine wired.requeue fun _ => ?_
      cases outqEq : l.outq with
      | nil =>
          rw [outqEq] at fills
          cases fills
          rfl
      | cons nb outq =>
          rw [outqEq] at fills
          obtain ⟨rest, rfl⟩ := fills.head
          rfl
  | @whole nb outq here _ =>
      obtain ⟨chunks, part, carried, wireEq, lengthEq, -, first⟩ := wired
      obtain ⟨bytes, carries, cut⟩ := first nb (by rw [here]; rfl)
      refine ⟨chunks ++ [part ++ (nb.bytes t cm.pieceField).drop l.outqOff], [], ?_, ?_, rfl,
        fun _ => rfl, fun nb' _ => ⟨nb'.bytes t cm.pieceField, NetBuf.carries_bytes _ _,
          List.nil_prefix⟩⟩
      · rw [← lengthEq]
        exact List.rel_append carried (.cons (carries.resume cut _) .nil)
      · simp [wireEq]
  | @part nb outq m here _ _ more =>
      obtain ⟨chunks, part, carried, wireEq, lengthEq, -, first⟩ := wired
      obtain ⟨bytes, carries, cut⟩ := first nb (by rw [here]; rfl)
      refine ⟨chunks, part ++ ((nb.bytes t cm.pieceField).drop l.outqOff).take m, carried, ?_, ?_,
        fun empty => absurd (here.symm.trans empty) (List.cons_ne_nil nb outq),
        fun nb' found => ?_⟩
      · simp [wireEq]
      · rw [List.length_append, lengthEq, List.length_take, List.length_drop, nb.length_bytes]
        show l.outqOff + _ = l.outqOff + m
        omega
      · have same : nb' = nb := by
          have found' : l.outq.head? = some nb' := found
          rw [here] at found'
          exact (Option.some.inj found').symm
        subst same
        refine ⟨_, carries.resume cut cm.pieceField, ?_⟩
        rw [lengthEq]
        exact (List.prefix_append_right_inj _).mpr (List.take_prefix _ _)

/-! ## Blocks are read before they are written -/

theorem Filled.unread {read : Nat → Nat → Nat → List UInt8} {log log' : List NetBuf} {j : Nat}
    (fills : Filled read log log') (found : log'[j]? = some (.torrentData none)) :
    log[j]? = some (.torrentData none) := by
  induction fills generalizing j with
  | nil => cases found
  | same nb _ ih =>
      cases j with
      | zero => exact found
      | succ j => exact ih found
  | block index begin length _ ih =>
      match j with
      | 0 | 1 => cases found
      | j + 2 => exact ih found

variable {whole : Nat → Nat → Nat → Option (List UInt8) → Prop} {nbytes : Nat}

/-- A header stands before each block. -/
theorem Spoken.header {j : Nat} {data : Option (List UInt8)} (spoken : l.Spoken whole nbytes)
    (found : l.log[j]? = some (.torrentData data)) :
    ∃ i index begin length, j = i + 1 ∧ l.log[i]? = some (.piece index begin length) := by
  obtain ⟨rest, logEq, messages⟩ := spoken
  rw [logEq] at found ⊢
  cases j with
  | zero => cases found
  | succ j =>
      obtain ⟨i, index, begin, length, rfl, header⟩ := messages.precedes found
      exact ⟨i + 1, index, begin, length, rfl, header⟩

theorem Read.push {nbs : List NetBuf} (read : l.Read)
    (others : ∀ nb ∈ nbs, nb ≠ .torrentData none) : (l.push nbs).Read := by
  intro j found
  rw [log_push] at found
  rcases Nat.lt_or_ge j l.log.length with before | after
  · rw [List.getElem?_append_left before] at found
    exact read j found
  · rw [List.getElem?_append_right after] at found
    exact absurd rfl (others _ (List.mem_of_getElem? found))

/-- A queued block is read later. -/
theorem Read.push_block {index begin length : Nat} (read : l.Read) (ready : l.Ready) :
    (l.push [.piece index begin length, .torrentData none]).Read := by
  intro j found
  rw [log_push] at found
  rcases Nat.lt_or_ge j l.log.length with before | after
  · rw [List.getElem?_append_left before] at found
    exact read j found
  · rw [List.getElem?_append_right after] at found
    have begun : (l.push [.piece index begin length, .torrentData none]).begun ≤ l.log.length :=
      begun_le_log ready
    cases at_ : j - l.log.length with
    | zero =>
        rw [at_] at found
        cases found
    | succ _ => omega

theorem Read.step (read : l.Read) (spoken : l.Spoken whole nbytes) (step : Step l l') :
    l'.Read := by
  cases step with
  | say remark _ =>
      refine read.push fun nb' mem same => ?_
      rw [List.mem_singleton.mp mem] at same
      rw [same] at remark
      cases remark
  | @unsay k nb remark taken free =>
      intro j found
      rw [log_unsay] at found
      have late : l.begun ≤ l.sent.length + k := begun_le_of_free free
      show l.begun < j
      rcases Nat.lt_or_ge j (l.sent.length + k) with before | after
      · rw [List.getElem?_eraseIdx_of_lt before] at found
        exact read j found
      · rw [List.getElem?_eraseIdx_of_ge after] at found
        obtain ⟨i, index, begin, length, iEq, header⟩ := spoken.header found
        cases Nat.succ.inj iEq
        -- what is taken back is no header
        refine Nat.lt_of_le_of_ne (Nat.le_trans late after) fun same => ?_
        have here : j = l.sent.length + k := by omega
        rw [here, log_getElem?, taken] at header
        cases header
        cases remark
  | @unsayBlock k index begin length taken _ free =>
      intro j found
      rw [log_unsayBlock] at found
      have late : l.begun ≤ l.sent.length + k := begun_le_of_free free
      show l.begun < j
      rcases Nat.lt_or_ge j (l.sent.length + k) with before | after
      · rw [List.getElem?_eraseIdx_of_lt before, List.getElem?_eraseIdx_of_lt before] at found
        exact read j found
      · obtain ⟨data, follows⟩ := spoken.follows taken
        rw [List.getElem?_eraseIdx_of_ge (Nat.le_refl _)] at follows
        rw [List.getElem?_eraseIdx_of_ge after,
          List.getElem?_eraseIdx_of_ge (Nat.le_succ_of_le after)] at found
        obtain ⟨i, index', begin', length', iEq, header⟩ := spoken.header found
        cases Nat.succ.inj iEq
        -- the data that is taken back is no header
        refine Nat.lt_of_le_of_ne (Nat.le_trans late after) fun same => ?_
        have here : j = l.sent.length + k := by omega
        rw [here, follows] at header
        cases header
  | unchoke _ => exact read.push (by simp)
  | choke _ _ => exact read.push (by simp)
  | limit _ _ => exact read.push (by simp)

/-- When the data after the first header is there, the first message may go out. -/
theorem Read.advance {l' : Line} (read : l.Read) (spoken : l.Spoken whole nbytes)
    (loaded : Loaded l.outq) (logEq : l'.log = l.log) (begun : l'.begun ≤ l.sent.length + 1) :
    l'.Read := by
  intro j found
  rw [logEq] at found
  have later := read j found
  have sent := sent_le_begun (l := l)
  refine Nat.lt_of_le_of_ne (by omega) fun same => ?_
  obtain ⟨i, index, begin, length, rfl, header⟩ := spoken.header found
  have here : i = l.sent.length + 0 := by omega
  have next : i + 1 = l.sent.length + 1 := by omega
  rw [next, log_getElem?] at found
  rw [here, log_getElem?] at header
  match outqEq : l.outq with
  | [] =>
      rw [outqEq] at header
      cases header
  | [_] =>
      rw [outqEq] at found
      cases found
  | first :: second :: rest =>
      rw [outqEq] at header found
      cases header
      cases found
      exact loaded index begin length rest outqEq

theorem Read.write {cm : Content} (read : l.Read) (spoken : l.Spoken whole nbytes)
    (write : Write t cm l l') : l'.Read := by
  cases write with
  | fill fills => exact fun j found => read j (Filled.unread (fills.append l.sent) found)
  | whole here loaded =>
      refine read.advance spoken loaded (log_whole here) ?_
      simp [begun]
  | part here loaded _ _ =>
      refine read.advance spoken loaded rfl ?_
      unfold begun
      dsimp only
      split <;> omega

/-! ## From the line to the messages -/

/-- The number of bytes of a block among the first `off` bytes of a queue, which
are bytes of its first buffer. -/
def begunBytes (off : Nat) (outq : List NetBuf) : Nat :=
  (outq.head?.map (·.dataBytes off)).getD 0

/-- The number of bytes of blocks that the socket has taken. -/
def blockBytes (l : Line) : Nat :=
  (l.sent.map fun nb => nb.dataBytes nb.len).sum + begunBytes l.outqOff l.outq

end Line

theorem NetBuf.countP_mark : (nb.mark bytes).countP Prod.snd = nb.dataBytes bytes.length := by
  rw [mark, List.countP_map]
  cases nb with
  | torrentData data => exact List.countP_eq_length.mpr fun _ _ => rfl
  | _ => exact List.countP_eq_zero.mpr fun _ _ => nofun

/-- The bytes of buffers that have been sent in full. -/
theorem Out.sent {sent log : List NetBuf} {chunks : List (List UInt8)}
    {out : List (UInt8 × Bool)} (carried : List.Forall₂ (NetBuf.Carries t) sent chunks)
    (read : ∀ j ≤ sent.length, (sent ++ log)[j]? ≠ some (.torrentData none))
    (written : Out t log out) :
    Out t (sent ++ log) ((List.zipWith NetBuf.mark sent chunks).flatten ++ out) := by
  induction carried with
  | nil => exact written
  | @cons nb bytes sent chunks carries _ ih =>
      rw [List.zipWith_cons_cons, List.flatten_cons, List.append_assoc]
      refine .whole ?_ carries (ih fun j inside => read (j + 1) (Nat.succ_le_succ inside))
      intro index begin length rest same
      refine read 1 (Nat.succ_le_succ (Nat.zero_le _)) ?_
      rw [show nb :: sent ++ log = _ from same]
      rfl

theorem map_fst_zipWith_mark {sent : List NetBuf} {chunks : List (List UInt8)}
    (carried : List.Forall₂ (NetBuf.Carries t) sent chunks) :
    (List.zipWith NetBuf.mark sent chunks).flatten.map Prod.fst = chunks.flatten := by
  induction carried with
  | nil => rfl
  | cons _ _ ih =>
      rw [List.zipWith_cons_cons, List.flatten_cons, List.map_append, ih, NetBuf.mark,
        map_fst_mark]
      rfl

theorem countP_zipWith_mark {sent : List NetBuf} {chunks : List (List UInt8)}
    (carried : List.Forall₂ (NetBuf.Carries t) sent chunks) :
    (List.zipWith NetBuf.mark sent chunks).flatten.countP Prod.snd =
      (sent.map fun nb => nb.dataBytes nb.len).sum := by
  induction carried with
  | nil => rfl
  | cons carries _ ih =>
      rw [List.zipWith_cons_cons, List.flatten_cons, List.countP_append, ih, NetBuf.countP_mark,
        carries.1]
      rfl

/-- What an invariant of the line says of the bytes on the wire. -/
theorem Line.Wired.out {l : Line} (wired : l.Wired t) (read : l.Read) :
    ∃ out, Out t l.log out ∧ out.map Prod.fst = l.wire ∧ out.countP Prod.snd = l.blockBytes := by
  obtain ⟨chunks, part, carried, wireEq, lengthEq, empty, first⟩ := wired
  have sent : ∀ j ≤ l.sent.length, l.log[j]? ≠ some (.torrentData none) :=
    fun j inside found =>
      absurd (read j found) (Nat.not_lt_of_le (Nat.le_trans inside Line.sent_le_begun))
  rw [Line.blockBytes]
  cases outqEq : l.outq with
  | nil =>
      refine ⟨_, .sent carried sent .nothing, ?_, ?_⟩
      · rw [List.append_nil, map_fst_zipWith_mark carried, wireEq, empty outqEq, List.append_nil]
      · rw [List.append_nil, countP_zipWith_mark carried]
        rfl
  | cons nb outq =>
      obtain ⟨bytes, carries, cut⟩ := first nb (by rw [outqEq]; rfl)
      have head : Out t l.outq (nb.mark part) := by
        rcases Nat.eq_zero_or_pos l.outqOff with zero | out
        · rw [List.length_eq_zero_iff.mp (lengthEq.trans zero)]
          exact .nothing
        · rw [outqEq]
          refine .part (fun index begin length rest same => ?_) carries cut
          have found : l.log[l.sent.length + 1]? = some (.torrentData none) := by
            rw [Line.log_getElem?, outqEq, same]
            rfl
          have later := read _ found
          rw [Line.begun, if_pos out] at later
          exact Nat.lt_irrefl _ later
      refine ⟨_, .sent carried sent head, ?_, ?_⟩
      · rw [List.map_append, map_fst_zipWith_mark carried, wireEq, NetBuf.mark, map_fst_mark]
      · rw [List.countP_append, countP_zipWith_mark carried, NetBuf.countP_mark, lengthEq]
        rfl

/-! ## Runs -/

/-- The line of a peer in a run that has visited these states. -/
structure Streamed (t : Torrent) (visited : List Net) (l : Line) : Prop where
  spoken : l.Spoken (wholeBlock t visited) t.fieldBytes
  wired : l.Wired t
  read : l.Read

theorem wholeBlock.more {visited visited' : List Net} {index begin length : Nat}
    {data : Option (List UInt8)} (block : wholeBlock t visited index begin length data)
    (more : ∀ n ∈ visited, n ∈ visited') : wholeBlock t visited' index begin length data :=
  ⟨block.1, fun data' same => by
    obtain ⟨n, mem, dataEq⟩ := block.2 data' same
    exact ⟨n, more n mem, dataEq⟩⟩

theorem Messages.mono {whole whole' : Nat → Nat → Nat → Option (List UInt8) → Prop}
    {nbytes : Nat} {log : List NetBuf} (messages : Messages whole nbytes log)
    (weaker : ∀ index begin length data, whole index begin length data →
      whole' index begin length data) : Messages whole' nbytes log := by
  induction messages with
  | nil => exact .nil
  | alone alone _ ih => exact .alone alone ih
  | block data _ ih => exact .block (weaker _ _ _ _ data) ih
  | field _ ih => exact .field ih

theorem Streamed.more {visited visited' : List Net} {l : Line} (streamed : Streamed t visited l)
    (more : ∀ n ∈ visited, n ∈ visited') : Streamed t visited' l := by
  obtain ⟨rest, logEq, messages⟩ := streamed.spoken
  exact ⟨⟨rest, logEq, messages.mono fun _ _ _ _ block => block.more more⟩, streamed.wired,
    streamed.read⟩

theorem Streamed.push {visited : List Net} {l : Line} {nbs : List NetBuf}
    (streamed : Streamed t visited l) (ready : l.Ready)
    (messages : Messages (wholeBlock t visited) t.fieldBytes nbs)
    (others : ∀ nb ∈ nbs, nb ≠ .torrentData none) : Streamed t visited (l.push nbs) :=
  ⟨streamed.spoken.push messages, streamed.wired.push ready, streamed.read.push others⟩

theorem streamed_lineKept (t : Torrent) (visited : List Net) :
    LineKept t (fun _ => False) (· ∈ visited) fun _ _ l => Streamed t visited l where
  step step streamed := ⟨streamed.spoken.step step, streamed.wired.step step,
    streamed.read.step streamed.spoken step⟩
  write n mem _ write streamed := by
    refine ⟨streamed.spoken.write write fun index begin length block => ?_,
      streamed.wired.write write, streamed.read.write streamed.spoken write⟩
    exact ⟨block.1, fun data same => ⟨n, mem, (Option.some.inj same).symm⟩⟩
  block _ n p index begin length streamed _ short _ _ _ ready :=
    .inr ⟨streamed.spoken.push (.block ⟨short, fun _ none => nomatch none⟩ .nil),
      streamed.wired.push ready, streamed.read.push_block ready⟩
  had streamed _ _ _ := streamed
  told streamed _ _ ready := streamed.push ready (.singleton rfl) (by simp)
  missed _ streamed _ := streamed
  leave streamed := streamed
  field _ streamed _ := streamed
  setBit _ streamed := streamed

theorem streamed_create {visited : List Net} (unwritten : Option (Fin 68)) :
    Streamed t visited (Peer.create t unwritten).line := by
  have whole : NetBuf.shake.Carries t (shakeBytes t) :=
    NetBuf.carries_bytes .shake fun _ => false
  cases unwritten with
  | none =>
      refine ⟨⟨[], rfl, .nil⟩, ⟨[shakeBytes t], [], .cons whole .nil, ?_, rfl, fun _ => rfl,
        fun nb found => nomatch found⟩, fun j found => ?_⟩
      · show shakeBytes t = [shakeBytes t].flatten ++ []
        simp
      · match j with
        | 0 => cases found
        | j + 1 => cases found
  | some off =>
      refine ⟨⟨[], rfl, .nil⟩, ⟨[], (shakeBytes t).take off, .nil, rfl, ?_,
        fun empty => absurd empty (List.cons_ne_nil _ _), fun nb found => ?_⟩, fun j found => ?_⟩
      · rw [List.length_take, shakeBytes_length]
        exact Nat.min_eq_left (Nat.le_of_lt off.isLt)
      · cases found
        exact ⟨_, whole, List.take_prefix _ _⟩
      · match j with
        | 0 => cases found
        | j + 1 => cases found

theorem ready_create (unwritten : Option (Fin 68)) : (Peer.create t unwritten).line.Ready := by
  cases unwritten with
  | none => exact fun _ => rfl
  | some off => exact fun empty => nomatch empty

theorem streamed_shakes (visited : List Net) : Shakes t ⟨fun _ => False, fun _ => True⟩
    fun _ peer => Streamed t visited peer.line := by
  intro n unwritten _ _
  refine ends_mono Peer.onShake_line ?_
  rintro peer ⟨-, ⟨-, lineEq⟩ | lineEq | lineEq⟩
  · rw [lineEq]
    exact streamed_create unwritten
  · rw [lineEq]
    exact (streamed_create unwritten).push (ready_create unwritten) (.singleton rfl) (by simp)
  · rw [lineEq]
    exact (streamed_create unwritten).push (ready_create unwritten) (.field .nil) (by simp)

variable {n : Net} {earlier : List Net}

theorem streamed_of_run (run : (system t).Run (fun _ => False) (n :: earlier)) (p : Nat) :
    Streamed t (n :: earlier) (n.peer p).line :=
  LineKept.of_run (J := fun visited _ _ l => Streamed t visited l) (streamed_lineKept t)
    (fun _ _ _ _ _ streamed => streamed.more fun _ mem => List.mem_cons_of_mem _ mem)
    streamed_shakes (fun _ _ _ => streamed_create none) run p

/-! ## What has begun goes on -/

theorem prefix_eraseIdx {α : Type} {xs ys : List α} {k : Nat} (first : xs <+: ys)
    (later : xs.length ≤ k) : xs <+: ys.eraseIdx k := by
  obtain ⟨tail, rfl⟩ := first
  rw [List.eraseIdx_append_of_length_le later]
  exact List.prefix_append _ _

/-- Filling in data does not touch the first message of the queue. -/
theorem Filled.started {read : Nat → Nat → Nat → List UInt8} {sent outq outq' xs : List NetBuf}
    (fills : Filled read outq outq') (first : xs <+: sent ++ outq)
    (few : xs.length ≤ sent.length + 1) : xs <+: sent ++ outq' := by
  cases outq with
  | nil =>
      cases fills
      exact first
  | cons nb outq =>
      obtain ⟨rest, rfl⟩ := fills.head
      rw [List.append_cons] at first ⊢
      have short : xs <+: sent ++ [nb] :=
        List.prefix_of_prefix_length_le first (List.prefix_append _ _) (by simpa using few)
      exact short.trans (List.prefix_append _ _)

/-- The bytes `wire` and the messages `started` are out. -/
def Line.Keeps (wire : List UInt8) (started : List NetBuf) (l : Line) : Prop :=
  wire <+: l.wire ∧ started <+: l.log ∧ started.length ≤ l.begun

section

variable {l l' : Line} {wire : List UInt8} {started : List NetBuf}

theorem Line.Keeps.push {nbs : List NetBuf} (kept : l.Keeps wire started) :
    (l.push nbs).Keeps wire started := by
  refine ⟨kept.1, ?_, kept.2.2⟩
  rw [Line.log_push]
  exact kept.2.1.trans (List.prefix_append _ _)

theorem Line.Keeps.step (kept : l.Keeps wire started) (step : Line.Step l l') :
    l'.Keeps wire started := by
  obtain ⟨taken, first, few⟩ := kept
  cases step with
  | say _ _ => exact .push ⟨taken, first, few⟩
  | unsay _ _ free =>
      refine ⟨taken, ?_, few⟩
      rw [Line.log_unsay]
      exact prefix_eraseIdx first (Nat.le_trans few (Line.begun_le_of_free free))
  | unsayBlock _ _ free =>
      refine ⟨taken, ?_, few⟩
      have later := Nat.le_trans few (Line.begun_le_of_free free)
      rw [Line.log_unsayBlock]
      exact prefix_eraseIdx (prefix_eraseIdx first later) later
  | unchoke _ => exact (Line.Keeps.push ⟨taken, first, few⟩ : (l.push _).Keeps _ _)
  | choke _ _ => exact (Line.Keeps.push ⟨taken, first, few⟩ : (l.push _).Keeps _ _)
  | limit _ _ => exact .push ⟨taken, first, few⟩

theorem Line.begun_le_succ : l.begun ≤ l.sent.length + 1 := by
  unfold begun
  split <;> omega

theorem Line.Keeps.write {cm : Content} (kept : l.Keeps wire started)
    (write : Line.Write t cm l l') : l'.Keeps wire started := by
  obtain ⟨taken, first, few⟩ := kept
  have few' := Nat.le_trans few Line.begun_le_succ
  cases write with
  | fill fills => exact ⟨taken, fills.started first few', few⟩
  | whole here _ =>
      refine ⟨taken.trans (List.prefix_append _ _), ?_, ?_⟩
      · exact (congrArg (started <+: ·) (Line.log_whole here)).mpr first
      · simpa [Line.begun] using few'
  | part _ _ some _ =>
      refine ⟨taken.trans (List.prefix_append _ _), first, ?_⟩
      rw [Line.begun, if_pos (show 0 < l.outqOff + _ by omega)]
      exact few'

theorem keeps_lineKept (t : Torrent) (p : Nat) (wire : List UInt8) (started : List NetBuf) :
    LineKept t (fun _ => False) ((system t).Reachable fun _ => False)
      fun v _ l => v.p = p → l.Keeps wire started where
  step step kept here := (kept here).step step
  write _ _ _ write kept here := (kept here).write write
  block _ _ _ _ _ _ kept _ _ _ _ _ _ := .inr fun here => (kept here).push
  had kept _ _ _ := kept
  told kept _ _ _ here := (kept here).push
  missed _ kept _ := kept
  leave kept := kept
  field _ kept _ := kept
  setBit _ kept := kept

end

/-- An event adds to what the socket has taken, and leaves alone the messages of
which bytes are out. -/
theorem wire_grows {e : Event} {n' : Net} {p : Nat}
    (reached : (system t).Reachable (fun _ => False) n) (mem : p ∈ n.peers)
    (step : (system t).Steps (fun _ => False) n e n') :
    (n.peer p).wire <+: (n'.peer p).wire ∧
      (n.peer p).line.started <+: (n'.peer p).line.started := by
  obtain ⟨taken, first, few⟩ := (keeps_lineKept t p (n.peer p).wire
    (n.peer p).line.started).of_event reached mem
      (J := fun _ _ l => l.Keeps (n.peer p).wire (n.peer p).line.started)
      ⟨List.prefix_rfl, List.take_prefix _ _, List.length_take_le _ _⟩ step
  exact ⟨taken, List.prefix_take_iff.mpr ⟨first, few⟩⟩

end Btpd.Download
