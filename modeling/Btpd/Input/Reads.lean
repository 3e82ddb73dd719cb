import Btpd.Input.Parser
import Btpd.Library.Framing

/-!
# Reads cut anywhere

A connection that takes its stream in any reads, short or limited, makes the calls
of `net_state` and gives out the messages that it makes when it takes the stream
byte by byte, and is left with the same parser and the same bytes in its buffer.
-/

namespace Btpd.Input

/-! ## What one call of `net_state` does -/

/-- The length of the unit of a state, where the messages do not say it. -/
def InState.size : InState → Option Nat
  | .shakePstr => some 28
  | .shakeInfo => some 20
  | .shakeId => some 20
  | .btpMsgsize => some 4
  | .btpMsghead => some 1
  | .btpPiecemeta => some 8
  | .btpMsgbody => none

/-- The parser waits for the unit of its state. -/
def Parser.Sized (p : Parser) : Prop := ∀ n, p.state.size = some n → p.stBytes = n

/-- A dispatched message is noted, or it was of no concern. -/
theorem netDispatchMsg_eq {h : Host} {p q : Parser} {buf : List UInt8}
    (dispatched : netDispatchMsg h p buf = some q) :
    q = p ∨ ∃ length msg, q = p.give buf length msg := by
  unfold netDispatchMsg at dispatched
  split at dispatched
  case h_6 =>
    split at dispatched
    · cases dispatched
    · exact .inr ⟨_, _, (Option.some.inj dispatched).symm⟩
  case h_7 =>
    dsimp only at dispatched
    split at dispatched
    · split at dispatched
      · cases dispatched
      · exact .inr ⟨_, _, (Option.some.inj dispatched).symm⟩
    · exact .inl (Option.some.inj dispatched).symm
  case h_10 => exact .inl (Option.some.inj dispatched).symm
  all_goals exact .inr ⟨_, _, (Option.some.inj dispatched).symm⟩

/-- What `net_state` can do: refuse the unit, stay as it is after a keepalive, or
go to another state. -/
inductive Step (p : Parser) (buf : List UInt8) : Parser → Prop
  | bad (q : Parser) : q.state = p.state → q.stBytes = p.stBytes →
      q.calls = p.calls ++ [⟨p.state, p.msgLen, buf⟩] → Step p buf q.kill
  | stay (q : Parser) : q.state = p.state → q.stBytes = p.stBytes →
      q.calls = p.calls ++ [⟨p.state, p.msgLen, buf⟩] → Step p buf q
  | go (q : Parser) (state : InState) (size : Nat) :
      (∀ n, state.size = some n → size = n) →
      q.calls = p.calls ++ [⟨p.state, p.msgLen, buf⟩] → Step p buf (q.setInState state size)

theorem netState_step (h : Host) (p : Parser) (buf : List UInt8) :
    Step p buf (netState h p buf) := by
  have dispatched : ∀ q r : Parser, q.calls = p.calls ++ [⟨p.state, p.msgLen, buf⟩] →
      netDispatchMsg h q buf = some r → Step p buf (r.setInState .btpMsgsize 4) := by
    intro q r calls done
    refine .go r .btpMsgsize 4 (fun n eq => Option.some.inj eq) ?_
    rcases netDispatchMsg_eq done with rfl | ⟨length, msg, rfl⟩
    · exact calls
    · exact calls
  unfold netState
  dsimp only
  split
  · split
    · exact .go _ _ _ (fun n eq => Option.some.inj eq) rfl
    · exact .bad _ rfl rfl rfl
  · split
    · split
      · exact .bad _ rfl rfl rfl
      · exact .go _ _ _ (fun n eq => Option.some.inj eq) rfl
    · split
      · exact .go _ _ _ (fun n eq => Option.some.inj eq) rfl
      · exact .bad _ rfl rfl rfl
  · split
    · exact .bad _ rfl rfl rfl
    · exact .go _ _ _ (fun n eq => Option.some.inj eq) rfl
  · split
    · exact .stay _ rfl rfl rfl
    · exact .go _ _ _ (fun n eq => Option.some.inj eq) rfl
  · split
    · exact .bad _ rfl rfl rfl
    split
    · split
      · exact .bad _ rfl rfl rfl
      · rename_i done
        exact dispatched _ _ rfl done
    split
    · exact .go _ _ _ (fun n eq => Option.some.inj eq) rfl
    · exact .go _ _ _ (fun n eq => absurd eq (Option.some_ne_none n).symm) rfl
  · exact .go _ _ _ (fun n eq => absurd eq (Option.some_ne_none n).symm) rfl
  · split
    · exact .bad _ rfl rfl rfl
    · rename_i done
      exact dispatched _ _ rfl done

namespace Step

variable {p q : Parser} {buf : List UInt8}

theorem calls (step : Step p buf q) : q.calls = p.calls ++ [⟨p.state, p.msgLen, buf⟩] := by
  cases step with
  | bad _ _ _ noted => exact noted
  | stay _ _ _ noted => exact noted
  | go _ _ _ _ noted => exact noted

theorem sized (step : Step p buf q) (sized : p.Sized) : q.Sized := by
  cases step with
  | bad q state size _ =>
      intro n eq
      have eq : q.state.size = some n := eq
      exact size.trans (sized n (state ▸ eq))
  | stay _ state size _ =>
      intro n eq
      exact size.trans (sized n (state ▸ eq))
  | go q state size fits _ => exact fits

end Step

/-- A body is followed by the length of the next message. -/
theorem netState_body {h : Host} {p : Parser} {buf : List UInt8}
    (body : p.state = .btpMsgbody) :
    (netState h p buf).killed = true ∨ (netState h p buf).stBytes = 4 := by
  unfold netState
  dsimp only
  rw [body]
  dsimp only
  split
  · exact .inl rfl
  · exact .inr rfl

@[simp]
theorem netProgress_zero (p : Parser) : netProgress p 0 = p := by
  unfold netProgress
  split
  · rfl
  · rfl

theorem netProgress_add (p : Parser) (j k : Nat) :
    netProgress (netProgress p j) k = netProgress p (j + k) := by
  unfold netProgress
  by_cases piece : p.state = .btpMsgbody ∧ p.msgNum = 7
  · rw [if_pos piece, if_pos piece, if_pos (by exact piece), Nat.add_assoc]
  · rw [if_neg piece, if_neg piece, if_neg piece]

/-- Bytes that come change the parser in what it has downloaded. -/
theorem netProgress_eq (p : Parser) (k : Nat) :
    ∃ downloaded, netProgress p k = { p with downloaded := downloaded } := by
  unfold netProgress
  split
  · exact ⟨_, rfl⟩
  · exact ⟨p.downloaded, rfl⟩

/-! ## The parser as a reader of units -/

/-- A parser that waits for the unit of its state. -/
abbrev SizedParser : Type := { p : Parser // p.Sized }

theorem Parser.Sized.netProgress {p : Parser} (sized : p.Sized) (k : Nat) :
    (netProgress p k).Sized := by
  obtain ⟨downloaded, eq⟩ := netProgress_eq p k
  rw [eq]
  exact sized

/-- `net_state` and `net_progress` read the units of a stream. -/
def framing (h : Host) : Framing SizedParser UInt8 where
  need p := p.1.stBytes
  progress p k := ⟨netProgress p.1 k, p.2.netProgress k⟩
  next p buf := ⟨netState h p.1 buf, (netState_step h p.1 buf).sized p.2⟩
  stopped p := p.1.killed

theorem framing_lawful (h : Host) : (framing h).Lawful where
  progress_zero p := Subtype.ext (netProgress_zero p.1)
  progress_add p j k := Subtype.ext (netProgress_add p.1 j k)
  need_progress p k := by
    obtain ⟨downloaded, eq⟩ := netProgress_eq p.1 k
    exact (congrArg Parser.stBytes eq :)
  stopped_progress p k := by
    obtain ⟨downloaded, eq⟩ := netProgress_eq p.1 k
    exact (congrArg Parser.killed eq :)
  awake := by
    intro p none alive
    have none : p.1.stBytes = 0 := none
    have alive : (netState h p.1 []).killed = false := alive
    -- only a body can have no bytes
    have body : p.1.state = .btpMsgbody := by
      cases state : p.1.state with
      | btpMsgbody => rfl
      | _ => exact absurd (none.symm.trans (p.2 _ (by rw [state]; rfl))) (by decide)
    have four := (netState_body body).resolve_left (by rw [alive]; decide)
    exact Nat.lt_of_lt_of_eq (by decide) four.symm

/-- A reader with the beginning of a unit, as the connection has it. -/
def conn (r : Framing.Held SizedParser UInt8) : Conn :=
  ⟨r.1.1, if r.2 = [] then none else some r.2⟩

theorem conn_held (r : Framing.Held SizedParser UInt8) : (conn r).held = r.2 := by
  unfold conn Conn.held
  split
  · rename_i none
    exact none.symm
  · rfl

theorem conn_rest (r : Framing.Held SizedParser UInt8) :
    (conn r).rest = if r.2 = [] then 0 else r.1.1.stBytes - r.2.length := by
  unfold conn Conn.rest
  by_cases none : r.2 = []
  · rw [if_pos none, if_pos none]
  · rw [if_neg none, if_neg none]

variable {h : Host} {p : SizedParser} {r : Framing.Held SizedParser UInt8}
  {bytes stream : List UInt8}

/-- The loop of `net_read` takes whole units. -/
theorem parse_eq {fuel : Nat} (alive : p.1.killed = false)
    (drained : (framing h).drain fuel p bytes = some r) :
    parse h fuel p.1 bytes = some (conn r) := by
  induction fuel generalizing p bytes with
  | zero => cases drained
  | succ fuel ih =>
      unfold Framing.drain at drained
      rw [if_neg (show ¬(framing h).stopped p = true by
        rw [show (framing h).stopped p = false from alive]; decide)] at drained
      unfold parse
      split
      · rename_i whole
        rw [if_pos (show (framing h).need p ≤ bytes.length from whole)] at drained
        dsimp only
        split
        · rename_i killed
          obtain rfl := Framing.drain_stopped (m := framing h)
            (s := (framing h).next ((framing h).progress p p.1.stBytes)
              (bytes.take p.1.stBytes)) killed drained
          rfl
        · rename_i alive
          rw [Bool.not_eq_true] at alive
          exact ih (p := (framing h).next ((framing h).progress p p.1.stBytes)
            (bytes.take p.1.stBytes)) alive drained
      · rename_i short
        rw [if_neg (show ¬(framing h).need p ≤ bytes.length from short)] at drained
        obtain rfl := Option.some.inj drained
        cases bytes with
        | nil =>
            rw [if_neg (show ¬0 < ([] : List UInt8).length from Nat.lt_irrefl 0)]
            exact congrArg some (congrArg (Conn.mk · none) (netProgress_zero p.1).symm)
        | cons b bytes => rfl

/-- What comes completes the unit that has begun and then is parsed. -/
theorem take_eq (waits : (framing h).Waits r) (alive : r.1.1.killed = false) :
    take h (conn r) bytes = some (conn ((framing h).pushes r bytes)) := by
  have read := Framing.read_eq (framing_lawful h) waits
    (show 2 * bytes.length + 1 < 2 * bytes.length + 2 by omega)
  unfold Framing.read at read
  rw [if_neg (show ¬(framing h).stopped r.1 = true by
    rw [show (framing h).stopped r.1 = false from alive]; decide)] at read
  unfold take
  rw [conn_held, conn_rest]
  dsimp only
  split
  · rename_i none
    rw [none]
    rfl
  by_cases empty : r.2 = []
  · rw [if_pos empty] at read
    rw [if_pos empty, if_neg (Nat.lt_irrefl 0)]
    exact parse_eq alive read
  rename_i some
  have short : r.2.length < r.1.1.stBytes :=
    waits.resolve_right fun both => empty both.2
  rw [if_neg empty] at read
  rw [if_neg empty, if_pos (Nat.sub_pos_of_lt short)]
  dsimp only at read
  split
  · rename_i few
    rw [if_pos (show bytes.length < (framing h).need r.1 - r.2.length from few)] at read
    rw [← Option.some.inj read]
    unfold conn
    rw [if_neg (List.append_ne_nil_of_left_ne_nil empty bytes)]
    rfl
  · rename_i many
    rw [if_neg (show ¬bytes.length < (framing h).need r.1 - r.2.length from many)] at read
    split
    · rename_i killed
      rw [Framing.drain_stopped (m := framing h)
        (s := (framing h).next ((framing h).progress r.1 (r.1.1.stBytes - r.2.length))
          (r.2 ++ bytes.take (r.1.1.stBytes - r.2.length))) killed read]
      rfl
    · rename_i alive
      rw [Bool.not_eq_true] at alive
      exact parse_eq alive read

/-- A read takes bytes off the stream, as a reader of bytes does. -/
theorem netRead_eq (waits : (framing h).Waits r) (alive : r.1.1.killed = false)
    (rmax nbytes : Nat) :
    netRead h (conn r) rmax stream (.arrived nbytes) =
      some (conn ((framing h).pushes r (stream.take (min nbytes ((conn r).space rmax)))),
        stream.drop (min nbytes ((conn r).space rmax))) := by
  unfold netRead
  dsimp only
  rw [take_eq waits alive]
  rfl

/-! ## Every way to cut a stream -/

/-- Any reads take a first part of the stream off it, as if byte by byte. -/
theorem netReads_eq (stream : List UInt8) (reads : List Read) (waits : (framing h).Waits r) :
    ∃ taken left, stream = taken ++ left ∧
      netReads h (conn r) stream reads = some (conn ((framing h).pushes r taken), left) := by
  induction reads generalizing r stream with
  | nil => exact ⟨[], stream, rfl, rfl⟩
  | cons read reads ih =>
      unfold netReads
      split
      · exact ⟨[], stream, rfl, rfl⟩
      rename_i alive
      have alive : r.1.1.killed = false := Bool.not_eq_true _ ▸ alive
      rw [netRead_eq waits alive]
      let nread := min read.arrived ((conn r).space read.rmax)
      obtain ⟨taken, left, whole, eq⟩ := ih (stream.drop nread)
        (Framing.waits_pushes (stream.take nread) (framing_lawful h) waits)
      refine ⟨stream.take nread ++ taken, left, ?_, ?_⟩
      · rw [List.append_assoc, ← whole, List.take_append_drop]
      · rw [Framing.pushes_append]
        exact eq

/-- There is always space for a byte. -/
theorem space_one (c : Conn) : c.space 1 = 1 := by
  unfold Conn.space grbuflen
  dsimp only
  rw [if_pos Nat.one_pos, if_pos Nat.one_pos]
  omega

/-- A byte at a time. -/
def Read.byte : Read := ⟨1, 1⟩

/-- Reads of one byte give the bytes to the reader one by one, up to where it is killed. -/
theorem netReads_bytes (waits : (framing h).Waits r) :
    ∃ left, netReads h (conn r) bytes (List.replicate bytes.length .byte) =
        some (conn ((framing h).pushes r bytes), left) ∧
      ((conn ((framing h).pushes r bytes)).parser.killed = false → left = []) := by
  induction bytes generalizing r with
  | nil => exact ⟨[], rfl, fun _ => rfl⟩
  | cons b bytes ih =>
      rw [List.length_cons, List.replicate_succ]
      unfold netReads
      split
      · rename_i killed
        rw [Framing.pushes_stopped (m := framing h) killed]
        have gone : (conn r).parser.killed = true := killed
        exact ⟨b :: bytes, rfl, fun alive => absurd (gone.symm.trans alive) (by decide)⟩
      rename_i alive
      have alive : r.1.1.killed = false := Bool.not_eq_true _ ▸ alive
      rw [netRead_eq waits alive]
      show ∃ left, netReads h (conn ((framing h).pushes r _)) _ _ = _ ∧ _
      rw [show Read.byte.arrived = 1 from rfl, show Read.byte.rmax = 1 from rfl, space_one,
        Nat.min_self]
      exact ih (Framing.waits_push (framing_lawful h) waits)

theorem netReads_append (h : Host) (c : Conn) (stream : List UInt8) (before after : List Read) :
    netReads h c stream (before ++ after) =
      (netReads h c stream before).bind fun r => netReads h r.1 r.2 after := by
  induction before generalizing c stream with
  | nil => rfl
  | cons read before ih =>
      rw [List.cons_append, netReads, netReads]
      split
      · rename_i killed
        cases after with
        | nil => rfl
        | cons read' after => exact (if_pos killed).symm
      · rw [Option.bind_assoc]
        exact congrArg _ (funext fun r => ih r.1 r.2)

/-- A read of a connection that lives takes what has arrived and has space. -/
theorem netReads_takes {before : List Read} {r' : Conn × List UInt8} (read : Read)
    (waits : (framing h).Waits r) (ran : netReads h (conn r) stream before = some r')
    (alive : r'.1.parser.killed = false) :
    ∃ c, netReads h (conn r) stream (before ++ [read]) =
      some (c, r'.2.drop (min read.arrived (r'.1.space read.rmax))) := by
  obtain ⟨taken, left, -, eq⟩ := netReads_eq (h := h) stream before waits
  rw [eq, Option.some.injEq] at ran
  subst ran
  have next : netRead h (conn ((framing h).pushes r taken)) read.rmax left
      (.arrived read.arrived) = _ :=
    netRead_eq (Framing.waits_pushes taken (framing_lawful h) waits) alive read.rmax read.arrived
  rw [netReads_append, eq, Option.bind_some, netReads, if_neg (by rw [alive]; decide), next]
  exact ⟨_, rfl⟩

/-- The bytes that `net_state` has been called with. -/
def Conn.parsed (c : Conn) : List UInt8 := c.parser.calls.flatMap Call.buf

theorem netState_parsed (h : Host) (p : Parser) (buf : List UInt8) :
    (netState h p buf).calls.flatMap Call.buf = p.calls.flatMap Call.buf ++ buf := by
  rw [(netState_step h p buf).calls, List.flatMap_append, List.flatMap_singleton]

/-- A new connection is a reader that keeps nothing. -/
def start (h : Host) : Framing.Held SizedParser UInt8 :=
  (⟨.create h, fun _ eq => Option.some.inj eq⟩, [])

theorem waits_start (h : Host) : (framing h).Waits (start h) :=
  .inl (show 0 < 28 by decide)

/-- Any reads of a stream, whatever their limits and however short, end with the
connection that has taken the same bytes one by one: the same calls of `net_state`,
the same messages, the same parser and the same bytes in the buffer.  A connection that
lives takes with each read the bytes that have arrived and have space, and byte by byte
it leaves none unread.  The bytes of the calls and of the buffer are those that were
read, up to a unit that was bad. -/
theorem reads_agree (h : Host) (stream : List UInt8) (reads : List Read) :
    ∃ (c : Conn) (taken left : List UInt8),
      netReads h (.create h) stream reads = some (c, left) ∧ stream = taken ++ left ∧
      (∀ before read after r, reads = before ++ read :: after →
        netReads h (.create h) stream before = some r → r.1.parser.killed = false →
          ∃ c', netReads h (.create h) stream (before ++ [read]) =
            some (c', r.2.drop (min read.arrived (r.1.space read.rmax)))) ∧
      (∃ unread, netReads h (.create h) taken (List.replicate taken.length .byte) =
          some (c, unread) ∧ (c.parser.killed = false → unread = [])) ∧
      ∃ lost, taken = c.parsed ++ c.held ++ lost ∧ (c.parser.killed = false → lost = []) := by
  obtain ⟨taken, left, whole, read⟩ :=
    netReads_eq stream reads (waits_start h)
  obtain ⟨lost, same, none⟩ := Framing.pushes_log (m := framing h) taken
    (fun p => p.1.calls.flatMap Call.buf)
    (fun p k => by
      obtain ⟨downloaded, eq⟩ := netProgress_eq p.1 k
      exact (congrArg (fun q : Parser => q.calls.flatMap Call.buf) eq :))
    (fun p buf => netState_parsed h p.1 buf) (r := start h)
  refine ⟨_, taken, left, read, whole, ?_, netReads_bytes (waits_start h), lost, ?_, none⟩
  · exact fun _ read _ _ _ ran alive => netReads_takes read (waits_start h) ran alive
  · rw [conn_held]
    exact same

/-- A connection to a peer for a torrent of nine pieces. -/
def ninePieces : Host where
  incoming := false
  hash := List.replicate 20 0
  npieces := 9
  torrentByHash _ := none
  netTorrentHasPeer _ := false
  btpdGetPeerId := List.replicate 20 1
  torrentPieceSize _ := 2 ^ 15
  announced ds := ds.any fun d => d.length != 0
  serves _ := true
  cmHasPiece _ _ := true

/-- The handshake of a peer. -/
def shake : List UInt8 :=
  pstr ++ List.replicate 8 0 ++ List.replicate 20 0 ++ List.replicate 20 2

/-- What the peer of a connection for nine pieces sends, read in two pieces. -/
def readAfterShake (bytes : List UInt8) : Option (Conn × List UInt8) :=
  netReads ninePieces (.create ninePieces) (shake ++ bytes) [⟨0, 70⟩, ⟨0, 30⟩]

/-- A handshake and a have, read in two pieces and byte by byte: the message is given out
once, and with the second read nothing is left. -/
theorem reads_agree_ninePieces :
    ∃ c unread, readAfterShake [0, 0, 0, 5, 4, 0, 0, 0, 8] = some (c, []) ∧
      c.parser.dispatched.map Dispatch.msg = [Message.have 8] ∧ c.held = [] ∧
      netReads ninePieces (.create ninePieces) (shake ++ [0, 0, 0, 5, 4, 0, 0, 0, 8])
        (List.replicate 77 .byte) = some (c, unread) := by
  obtain ⟨c, taken, left, read, whole, -, ⟨unread, bytes, -⟩, -⟩ :=
    reads_agree ninePieces (shake ++ [0, 0, 0, 5, 4, 0, 0, 0, 8]) [⟨0, 70⟩, ⟨0, 30⟩]
  have ran : (readAfterShake [0, 0, 0, 5, 4, 0, 0, 0, 8]).any (fun r =>
      decide (r.2 = [] ∧ r.1.parser.dispatched.map Dispatch.msg = [Message.have 8] ∧
        r.1.held = [])) =
        true := by decide +kernel
  have same : readAfterShake [0, 0, 0, 5, 4, 0, 0, 0, 8] = some (c, left) := read
  rw [same, Option.any_some, decide_eq_true_eq] at ran
  obtain ⟨none_left, given, held⟩ := ran
  have none_left : left = [] := none_left
  rw [none_left, List.append_nil] at whole
  subst whole
  exact ⟨c, unread, by rw [same, none_left], given, held, bytes⟩

end Btpd.Input
