import Btpd.Input.Reads

/-!
# What the parser waits for, and what it gives out

`net_mh_ok` bounds the length of every message, but for a piece from above only.
A piece that is shorter than its head makes the length that is left underflow: the
parser waits for a body of about 4 GB, or gives a block of that length out of no
bytes.  Where no piece is that short, the parser never waits for more than the
longest unit there is, and the handler of a message takes the payload that is there.
-/

namespace Btpd.Input

/-- The head of a piece whose length does not cover the head. -/
def Call.shortPiece (c : Call) : Prop :=
  c.state = .btpMsghead ∧ (c.buf.headD 0).toNat = 7 ∧ c.msgLen < 9

instance : DecidablePred Call.shortPiece :=
  fun c => inferInstanceAs (Decidable (c.state = .btpMsghead ∧ _ ∧ _))

/-- The longest unit: a part of the handshake, the body of a request, the bit field
of the torrent or a block. -/
def longest (npieces : Nat) : Nat := max (max 28 12) (max (fieldBytes npieces) pieceBlocklen)

/-- The handlers have taken the payloads that were there. -/
def Parser.Given (p : Parser) : Prop := ∀ d ∈ p.dispatched, d.length = d.payload.length

/-- The length of the body of the message. -/
def Parser.bodyLength (p : Parser) : Nat :=
  if p.msgNum = 7 then p.msgLen - 9 else p.msgLen - 1

/-- The lengths of a parser that has seen no piece that is too short. -/
structure Parser.Sound (p : Parser) : Prop where
  word : p.msgLen < 2 ^ 32
  head : p.state = .btpMsghead → 1 ≤ p.msgLen
  piece : p.state = .btpPiecemeta → p.msgNum = 7 ∧ netMhOk p = true
  long : p.state = .btpPiecemeta ∨ p.state = .btpMsgbody → p.msgNum = 7 → 9 ≤ p.msgLen
  body : p.state = .btpMsgbody →
    netMhOk p = true ∧ p.msgLen ≠ 1 ∧ p.stBytes = p.bodyLength
  given : p.Given

theorem sub32_eq {a b : Nat} (le : b ≤ a) (lt : a < 2 ^ 32) : sub32 a b = a - b := by
  unfold sub32
  omega

theorem decBe32_lt (buf : List UInt8) : decBe32 buf < 2 ^ 32 := by
  have foldl_lt : ∀ (bytes : List UInt8) (n k : Nat), n < 256 ^ k →
      bytes.foldl (fun n b => n * 256 + b.toNat) n < 256 ^ (k + bytes.length) := by
    intro bytes
    induction bytes with
    | nil => exact fun n k lt => lt
    | cons b bytes ih =>
        intro n k lt
        rw [List.foldl_cons, List.length_cons, Nat.add_comm bytes.length, ← Nat.add_assoc]
        have byte := b.toNat_lt
        exact ih (n * 256 + b.toNat) (k + 1) (by rw [Nat.pow_succ]; omega)
  have lt := foldl_lt (buf.take 4) 0 0 Nat.one_pos
  rw [Nat.zero_add] at lt
  exact Nat.lt_of_lt_of_le lt 
    (Nat.pow_le_pow_right (show 0 < 256 by decide) (List.length_take_le 4 buf))

/-- A handler takes the body of the message. -/
theorem netDispatchMsg_length {h : Host} {p q : Parser} {buf : List UInt8}
    (word : p.msgLen < 2 ^ 32) (ok : netMhOk p = true) (long : p.msgNum = 7 → 9 ≤ p.msgLen)
    (dispatched : netDispatchMsg h p buf = some q) :
    q = p ∨ ∃ msg, q = p.give buf p.bodyLength msg := by
  have given : ∀ {length : Nat} {msg : Message}, p.bodyLength = length →
      some (p.give buf length msg) = some q →
      q = p ∨ ∃ msg, q = p.give buf p.bodyLength msg := by
    intro length msg eq gives
    exact .inr ⟨msg, eq ▸ (Option.some.inj gives).symm⟩
  have other : ∀ {k : Nat}, p.msgNum ≠ 7 → p.msgLen = k → p.bodyLength = k - 1 := by
    intro k other eq
    rw [Parser.bodyLength, if_neg other, eq]
  unfold netDispatchMsg at dispatched
  unfold netMhOk at ok
  split at dispatched
  case h_6 num =>
    rw [num] at ok
    split at dispatched
    · cases dispatched
    · exact given (other (by rw [num]; decide) (beq_iff_eq.mp ok)) dispatched
  case h_7 num =>
    rw [num] at ok
    dsimp only at dispatched
    split at dispatched
    · split at dispatched
      · cases dispatched
      · exact given (other (by rw [num]; decide) (beq_iff_eq.mp ok)) dispatched
    · exact .inl (Option.some.inj dispatched).symm
  case h_8 num =>
    refine given ?_ dispatched
    rw [sub32_eq (long num) word, Parser.bodyLength, if_pos num]
  case h_10 => exact .inl (Option.some.inj dispatched).symm
  all_goals
    rename_i num
    rw [num] at ok
    exact given (other (by rw [num]; decide) (beq_iff_eq.mp ok)) dispatched

/-- The states of the handshake, and between messages. -/
def InState.plain : InState → Bool
  | .btpMsghead | .btpPiecemeta | .btpMsgbody => false
  | _ => true

/-- Outside of a message there is no body to be bounded. -/
theorem Parser.sound_of_plain {p : Parser} (word : p.msgLen < 2 ^ 32) (given : p.Given)
    (plain : p.state.plain = true) : p.Sound where
  word := word
  head state := absurd (state ▸ plain) (by decide)
  piece state := absurd (state ▸ plain) (by decide)
  long state := state.elim (fun state => absurd (state ▸ plain) (by decide))
    (fun state => absurd (state ▸ plain) (by decide))
  body state := absurd (state ▸ plain) (by decide)
  given := given

/-- After a message whose payload is there the next one comes. -/
theorem sound_of_dispatch {h : Host} {p q : Parser} {buf : List UInt8}
    (dispatched : netDispatchMsg h p buf = some q) (word : p.msgLen < 2 ^ 32)
    (ok : netMhOk p = true) (long : p.msgNum = 7 → 9 ≤ p.msgLen) (given : p.Given)
    (whole : p.bodyLength = (p.payload buf).length) : (q.setInState .btpMsgsize 4).Sound := by
  rcases netDispatchMsg_length word ok long dispatched with rfl | ⟨msg, rfl⟩
  · exact Parser.sound_of_plain word given rfl
  · refine Parser.sound_of_plain word ?_ rfl
    intro d mem
    rcases List.mem_append.mp mem with mem | mem
    · exact given d mem
    · rw [List.mem_singleton.mp mem]
      exact whole

/-- One call of `net_state` keeps the lengths sound, unless it is for the head of a
piece that is too short. -/
theorem netState_sound {h : Host} {p : Parser} {buf : List UInt8} (sound : p.Sound)
    (unit : buf.length = p.stBytes)
    (enough : ¬(Call.mk p.state p.msgLen buf).shortPiece) : (netState h p buf).Sound := by
  obtain ⟨word, head, piece, long, body, given⟩ := sound
  unfold netState
  dsimp only
  cases state : p.state with
  | shakePstr =>
      dsimp only
      split
      · exact Parser.sound_of_plain word given rfl
      · exact Parser.sound_of_plain word given rfl
  | shakeInfo =>
      dsimp only
      split
      · split
        · exact Parser.sound_of_plain word given rfl
        · exact Parser.sound_of_plain word given rfl
      · split
        · exact Parser.sound_of_plain word given rfl
        · exact Parser.sound_of_plain word given rfl
  | shakeId =>
      dsimp only
      split
      · exact Parser.sound_of_plain word given rfl
      · exact Parser.sound_of_plain word given rfl
  | btpMsgsize =>
      dsimp only
      split
      · exact Parser.sound_of_plain (decBe32_lt buf) given rfl
      · rename_i some
        exact
          { word := decBe32_lt buf
            head := fun _ => Nat.pos_of_ne_zero some
            piece := fun state => nomatch state
            long := fun state => nomatch state
            body := fun state => nomatch state
            given := given }
  | btpMsghead =>
      dsimp only
      split
      · exact
          { word := word
            head := fun _ => head state
            piece := fun other => nomatch other
            long := fun other =>
              other.elim (fun other => nomatch other) (fun other => nomatch other)
            body := fun other => nomatch other
            given := given }
      rename_i ok
      rw [Bool.not_eq_false] at ok
      have covers : (buf.headD 0).toNat = 7 → 9 ≤ p.msgLen := fun seven =>
        Nat.not_lt.mp fun short => enough ⟨state, seven, short⟩
      split
      · rename_i one
        split
        · exact
            { word := word
              head := fun _ => head state
              piece := fun other => nomatch other
              long := fun other =>
                other.elim (fun other => nomatch other) (fun other => nomatch other)
              body := fun other => nomatch other
              given := given }
        · rename_i q dispatched
          refine sound_of_dispatch dispatched word ok covers given ?_
          show (if (buf.headD 0).toNat = 7 then p.msgLen - 9 else p.msgLen - 1) = 0
          split <;> omega
      rename_i more
      split
      · rename_i seven
        exact
          { word := word
            head := fun other => nomatch other
            piece := fun _ => ⟨seven, ok⟩
            long := fun _ => covers
            body := fun other => nomatch other
            given := given }
      · rename_i other
        exact
          { word := word
            head := fun other => nomatch other
            piece := fun other => nomatch other
            long := fun _ => covers
            body := fun _ => ⟨ok, more,
              (sub32_eq (head state) word).trans (if_neg other).symm⟩
            given := given }
  | btpPiecemeta =>
      dsimp only
      obtain ⟨seven, ok⟩ := piece state
      have covers := long (.inl state)
      have nine := covers seven
      exact
        { word := word
          head := fun other => nomatch other
          piece := fun other => nomatch other
          long := fun _ => covers
          body := fun _ => ⟨ok, show p.msgLen ≠ 1 by omega,
            (sub32_eq nine word).trans (if_pos seven).symm⟩
          given := given }
  | btpMsgbody =>
      dsimp only
      obtain ⟨ok, more, whole⟩ := body state
      have covers := long (.inr state)
      split
      · exact
          { word := word
            head := fun other => nomatch other
            piece := fun other => nomatch other
            long := fun _ => covers
            body := fun _ => ⟨ok, more, whole⟩
            given := given }
      · rename_i q dispatched
        exact sound_of_dispatch dispatched word ok covers given (whole.symm.trans unit.symm)

/-- A sound parser waits for no more than the longest unit. -/
theorem Parser.Sound.bounded {p : Parser} (sound : p.Sound) (sized : p.Sized) :
    p.stBytes ≤ longest p.npieces := by
  have least : 28 ≤ longest p.npieces := Nat.le_trans (Nat.le_max_left 28 12) (Nat.le_max_left _ _)
  cases state : p.state with
  | btpMsgbody =>
      obtain ⟨ok, more, whole⟩ := sound.body state
      rw [whole]
      have request : 12 ≤ longest p.npieces := Nat.le_trans (by decide) least
      have field : fieldBytes p.npieces ≤ longest p.npieces :=
        Nat.le_trans (Nat.le_max_left _ _) (Nat.le_max_right _ _)
      have block : pieceBlocklen ≤ longest p.npieces :=
        Nat.le_trans (Nat.le_max_right _ _) (Nat.le_max_right _ _)
      unfold netMhOk at ok
      unfold Parser.bodyLength
      split at ok
      case h_9 num =>
        rw [if_pos num]
        have ok := of_decide_eq_true ok
        omega
      case h_10 => cases ok
      all_goals
        rename_i num
        rw [num, if_neg (by decide)]
        have ok := beq_iff_eq.mp ok
        omega
  | _ =>
      rw [sized _ (by rw [state]; rfl)]
      exact Nat.le_trans (by decide) least

/-- In any run of reads, as long as no head of a piece comes with a length that does
not cover it, the parser waits for at most the longest unit, and every handler has
taken the payload that the buffer had. -/
theorem waiting_bounded (h : Host) (stream : List UInt8) (reads : List Read) {c : Conn}
    {left : List UInt8} (run : netReads h (.create h) stream reads = some (c, left))
    (enough : ∀ call ∈ c.parser.calls, ¬call.shortPiece) :
    c.parser.stBytes ≤ longest c.parser.npieces ∧ c.parser.Given := by
  obtain ⟨taken, rest, -, read⟩ :=
    netReads_eq stream reads (waits_start h)
  obtain ⟨rfl, rfl⟩ := Prod.mk.inj (Option.some.inj (run.symm.trans read))
  have sound := Framing.pushes_invariant taken (framing_lawful h)
    (fun p => (∀ call ∈ p.1.calls, ¬call.shortPiece) → p.1.Sound)
    (fun p k sound => by
      show (∀ call ∈ (netProgress p.1 k).calls, _) → (netProgress p.1 k).Sound
      obtain ⟨downloaded, eq⟩ := netProgress_eq p.1 k
      rw [eq]
      exact fun none => { sound none with })
    (fun p buf sound _ unit none => by
      have calls := (netState_step h p.1 buf).calls
      have none : ∀ call ∈ (netState h p.1 buf).calls, ¬call.shortPiece := none
      rw [calls] at none
      exact netState_sound (sound fun call mem => none call (List.mem_append_left _ mem)) unit
        (none _ (List.mem_append_right _ (List.mem_singleton.mpr rfl))))
    (waits_start h) (fun _ => Parser.sound_of_plain (show 0 < 2 ^ 32 by decide) (fun d mem => nomatch mem) rfl)
    enough
  exact ⟨sound.bounded (Subtype.property _), sound.given⟩

/-- The bound holds after a handshake, a have and a piece of two bytes. -/
theorem waiting_bounded_ninePieces :
    ∃ c left, readAfterShake [0, 0, 0, 5, 4, 0, 0, 0, 8,
        0, 0, 0, 11, 7, 0, 0, 0, 8, 0, 0, 0, 0, 10, 20] = some (c, left) ∧
      c.parser.dispatched.length = 2 ∧
      c.parser.stBytes ≤ longest c.parser.npieces ∧ c.parser.Given := by
  obtain ⟨⟨c, left⟩, run, both⟩ := (Option.any_eq_true _ _).mp
    (show (readAfterShake [0, 0, 0, 5, 4, 0, 0, 0, 8,
        0, 0, 0, 11, 7, 0, 0, 0, 8, 0, 0, 0, 0, 10, 20]).any (fun r =>
          decide (r.1.parser.dispatched.length = 2 ∧
            ∀ call ∈ r.1.parser.calls, ¬call.shortPiece)) = true by decide +kernel)
  have both := of_decide_eq_true both
  exact ⟨c, left, run, both.1, waiting_bounded ninePieces _ _ run both.2⟩

/-- A piece of length 1 is given out with a length of 4 GB, and one of length 2 makes
the parser wait for that much. -/
theorem not_waiting_bounded :
    (¬∀ (h : Host) (stream : List UInt8) (reads : List Read) (c : Conn) (left : List UInt8),
      netReads h (.create h) stream reads = some (c, left) →
        c.parser.stBytes ≤ longest c.parser.npieces) ∧
    ¬∀ (h : Host) (stream : List UInt8) (reads : List Read) (c : Conn) (left : List UInt8),
      netReads h (.create h) stream reads = some (c, left) → c.parser.Given := by
  constructor
  · intro bounded
    obtain ⟨⟨c, left⟩, run, more⟩ := (Option.any_eq_true _ _).mp
      (show (readAfterShake [0, 0, 0, 2, 7, 0, 0, 0, 0, 0, 0, 0, 0]).any (fun r =>
        decide (longest r.1.parser.npieces < r.1.parser.stBytes)) = true by decide +kernel)
    exact absurd (bounded _ _ _ c left run) (Nat.not_le.mpr (of_decide_eq_true more))
  · intro given
    obtain ⟨⟨c, left⟩, run, other⟩ := (Option.any_eq_true _ _).mp
      (show (readAfterShake [0, 0, 0, 1, 7]).any (fun r =>
        decide (¬∀ d ∈ r.1.parser.dispatched, d.length = d.payload.length)) = true
        by decide +kernel)
    exact of_decide_eq_true other (given _ _ _ c left run)

end Btpd.Input
