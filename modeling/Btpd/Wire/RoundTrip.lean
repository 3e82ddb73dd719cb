import Btpd.Wire.Feeding

/-!
# What is sent is what is parsed

Every message of the daemon, in the bytes of its buffers and read in any pieces, is the message
that its own parser gives to a handler, and the numbers of a buffer are read back as they were
written.
-/

namespace Btpd.Wire

open Download (encBe32)
open Input

variable {h : Host} {p q : Parser} {npieces : Nat} {ds : List Dispatch}

/-! ## The buffers -/

/-- A write replaces bytes of the buffer. -/
theorem write_append {type : NbType} {off : Nat} {a b c bytes : List UInt8}
    (before : a.length = off) (same : bytes.length = b.length) :
    NetBuf.write ⟨type, a ++ (b ++ c)⟩ off bytes = ⟨type, a ++ (bytes ++ c)⟩ := by
  have first : (a ++ (b ++ c)).take off = a := by
    rw [← before, List.take_left]
  have last : (a ++ (b ++ c)).drop (off + bytes.length) = c := by
    rw [← before, same, ← List.append_assoc, ← List.length_append, List.drop_left]
  unfold NetBuf.write
  dsimp only
  rw [first, last, List.append_assoc]

/-- The messages of pieces, one behind the other. -/
def haves (pieces : List Nat) : List UInt8 := pieces.flatMap fun i => (nbCreateHave i).buf

theorem haves_append (pieces pieces' : List Nat) :
    haves (pieces ++ pieces') = haves pieces ++ haves pieces' := List.flatMap_append

theorem length_haves (pieces : List Nat) : (haves pieces).length = pieces.length * 9 := by
  induction pieces with
  | nil => rfl
  | cons i pieces ih =>
      have cons : haves (i :: pieces) = (nbCreateHave i).buf ++ haves pieces := rfl
      have nine : (nbCreateHave i).buf.length = 9 := rfl
      rw [cons, List.length_append, ih, nine, List.length_cons]
      omega

/-- One message of a multihave is written behind the ones before it. -/
theorem write_have {type : NbType} {done rest : List UInt8} {i off : Nat}
    (before : done.length = off) :
    (((NetBuf.mk type (done ++ (List.replicate 9 0 ++ rest))).enc off 5).put (off + 4) 4).enc
        (off + 5) i =
      ⟨type, done ++ ((nbCreateHave i).buf ++ rest)⟩ := by
  have length : NetBuf.enc ⟨type, done ++ (List.replicate 9 0 ++ rest)⟩ off 5 =
      ⟨type, done ++ encBe32 5 ++ ([0] ++ (List.replicate 4 0 ++ rest))⟩ := by
    rw [List.append_assoc]
    exact write_append (b := List.replicate 4 0) before rfl
  have num : NetBuf.put ⟨type, done ++ encBe32 5 ++ ([0] ++ (List.replicate 4 0 ++ rest))⟩
      (off + 4) 4 = ⟨type, done ++ encBe32 5 ++ [4] ++ (List.replicate 4 0 ++ rest)⟩ := by
    rw [List.append_assoc (done ++ encBe32 5) [4]]
    refine write_append ?_ rfl
    rw [List.length_append, before]
    rfl
  have index : NetBuf.enc ⟨type, done ++ encBe32 5 ++ [4] ++ (List.replicate 4 0 ++ rest)⟩
      (off + 5) i = ⟨type, done ++ encBe32 5 ++ [4] ++ (encBe32 i ++ rest)⟩ := by
    refine write_append ?_ rfl
    rw [List.length_append, List.length_append, before]
    rfl
  rw [length, num, index, List.append_assoc, List.append_assoc]
  rfl

section Multihave

variable (has : Nat → Bool)

/-- The pieces below `i` that `cm_has_piece` knows. -/
def held (i : Nat) : List Nat := (List.range i).filter has

theorem held_succ_of_has {i : Nat} (piece : has i = true) :
    held has (i + 1) = held has i ++ [i] := by
  unfold held
  rw [List.range_succ, List.filter_append, List.filter_cons_of_pos piece, List.filter_nil]

theorem held_succ_of_not {i : Nat} (piece : ¬has i = true) : held has (i + 1) = held has i := by
  unfold held
  rw [List.range_succ, List.filter_append, List.filter_cons_of_neg piece, List.filter_nil,
    List.append_nil]

theorem held_begins {i n : Nat} (le : i ≤ n) : held has i <+: held has n := by
  induction le with
  | refl => exact List.prefix_refl _
  | @step n _ ih =>
      by_cases piece : has n = true
      · rw [held_succ_of_has has piece]
        exact ih.trans (List.prefix_append _ _)
      · rw [held_succ_of_not has piece]
        exact ih

/-- The loop writes the messages of the pieces from `i` on. -/
theorem multihaveLoop_eq {n fuel i : Nat} (le : i ≤ n) (enough : n < fuel + i)
    (small : 9 * (held has n).length < 2 ^ 32) :
    multihaveLoop has (held has n).length fuel i (held has i).length
        ⟨.multihave, haves (held has i) ++
          List.replicate (9 * ((held has n).length - (held has i).length)) 0⟩ =
      some ⟨.multihave, haves (held has n)⟩ := by
  have short := (held_begins has le).length_le
  induction fuel generalizing i with
  | zero => omega
  | succ fuel ih =>
      unfold multihaveLoop
      split
      case isTrue more =>
        have inside : i < n := by
          refine Nat.lt_of_le_of_ne le fun last => ?_
          rw [last] at more
          exact Nat.lt_irrefl _ more
        have short' := (held_begins has (Nat.succ_le_of_lt inside)).length_le
        split
        case isTrue piece =>
          have next : held has (i + 1) = held has i ++ [i] := held_succ_of_has has piece
          have one : (held has (i + 1)).length = (held has i).length + 1 := by
            rw [next, List.length_append]
            rfl
          have again := ih (Nat.succ_le_of_lt inside) (by omega) short'
          rw [one] at short' again
          have zeros :
              List.replicate (9 * ((held has n).length - (held has i).length)) (0 : UInt8) =
                List.replicate 9 0 ++
                  List.replicate (9 * ((held has n).length - ((held has i).length + 1))) 0 := by
            rw [← List.replicate_add]
            congr 1
            omega
          dsimp only
          rw [Nat.mod_eq_of_lt (by omega), Nat.mod_eq_of_lt (by omega), Nat.mod_eq_of_lt (by omega),
            zeros, write_have (length_haves _)]
          rw [next, haves_append, List.append_assoc] at again
          exact again
        case isFalse piece =>
          have again := ih (Nat.succ_le_of_lt inside) (by omega) short'
          rw [held_succ_of_not has piece] at again
          exact again
      case isFalse all =>
        have same : held has i = held has n :=
          (held_begins has le).eq_of_length (Nat.le_antisymm short (Nat.le_of_not_lt all))
        rw [same, Nat.sub_self, List.replicate_zero, List.append_nil]

theorem nbCreateMultihave_eq {n fuel : Nat} (enough : n < fuel) (small : 9 * n < 2 ^ 32) :
    nbCreateMultihave fuel has (cmPieces n has) = some ⟨.multihave, haves (held has n)⟩ := by
  have few : (held has n).length ≤ n := by
    have all := List.length_filter_le has (List.range n)
    rw [List.length_range] at all
    exact all
  have small : 9 * (held has n).length < 2 ^ 32 :=
    Nat.lt_of_le_of_lt (Nat.mul_le_mul_left 9 few) small
  have whole : 9 * cmPieces n has % 2 ^ 32 = 9 * (held has n).length := Nat.mod_eq_of_lt small
  unfold nbCreateMultihave
  rw [whole]
  exact multihaveLoop_eq has (Nat.zero_le n) enough small

end Multihave

theorem nbCreateShake_eq {hash peerId : List UInt8} (whole : hash.length = 20)
    (whole' : peerId.length = 20) :
    nbCreateShake hash peerId = ⟨.shake, pstr ++ List.replicate 8 0 ++ (hash ++ peerId)⟩ := by
  have first : (nbCreateAlloc .shake 68).write 0 (pstr ++ List.replicate 8 0) =
      ⟨.shake, pstr ++ List.replicate 8 0 ++ (List.replicate 20 0 ++ List.replicate 20 0)⟩ := rfl
  have second : NetBuf.write
      ⟨.shake, pstr ++ List.replicate 8 0 ++ (List.replicate 20 0 ++ List.replicate 20 0)⟩ 28 hash =
        ⟨.shake, pstr ++ List.replicate 8 0 ++ hash ++ (List.replicate 20 0 ++ [])⟩ := by
    rw [List.append_assoc _ hash]
    exact write_append rfl whole
  have third : NetBuf.write
      ⟨.shake, pstr ++ List.replicate 8 0 ++ hash ++ (List.replicate 20 0 ++ [])⟩ 48 peerId =
        ⟨.shake, pstr ++ List.replicate 8 0 ++ hash ++ (peerId ++ [])⟩ := by
    refine write_append ?_ whole'
    rw [List.length_append, whole]
    rfl
  unfold nbCreateShake
  rw [first, second, third, List.append_nil, List.append_assoc _ hash]

/-! ## The messages -/

/-- Messages have been given to their handlers, one after the other. -/
def Told (npieces : Nat) (ds : List Dispatch) (msgs : List Message) (p : Parser) : Prop :=
  ∃ ds', ds'.map Dispatch.msg = msgs ∧ Ready npieces (ds ++ ds') p

theorem Given.told {msg : Message} (given : Given npieces ds msg p) :
    Told npieces ds [msg] p := by
  obtain ⟨d, eq, ready⟩ := given
  exact ⟨[d], congrArg (fun m => [m]) eq, ready⟩

theorem told_nil (ready : Ready npieces ds p) : Told npieces ds [] p :=
  ⟨[], rfl, by rw [List.append_nil]; exact ready⟩

/-- A multihave is one message for each of its pieces. -/
theorem fed_haves {pieces : List Nat} (ready : Ready npieces ds p)
    (lt : ∀ i ∈ pieces, i < 2 ^ 32) :
    ∃ q, Fed h npieces p (haves pieces) q ∧ Told npieces ds (pieces.map .have) q := by
  induction pieces generalizing p ds with
  | nil => exact ⟨p, Fed.refl, told_nil ready⟩
  | cons i pieces ih =>
      obtain ⟨q, fed, d, eq, ready'⟩ := fed_have (h := h) ready (lt i (List.mem_cons_self ..))
      obtain ⟨r, fed', ds', eqs, ready''⟩ :=
        ih ready' fun j mem => lt j (List.mem_cons_of_mem i mem)
      refine ⟨r, fed.trans fed', d :: ds', ?_, ?_⟩
      · rw [List.map_cons, eq, eqs, List.map_cons]
      · rw [← List.append_cons] at ready''
        exact ready''

namespace Outgoing

/-- The parser of the other daemon is where the message belongs. -/
def Expected (t : Torrent) (h : Host) (p : Parser) : Outgoing → Prop
  | .shake hash peerId =>
      p.state = .shakePstr ∧ Awaits h t.npieces p.npieces hash ∧
        h.netTorrentHasPeer peerId = false ∧ peerId ≠ h.btpdGetPeerId
  | .bitfield _ =>
      p.state = .btpMsgsize ∧ p.npieces = t.npieces ∧ h.announced p.dispatched = false
  | .request index _ _ =>
      p.state = .btpMsgsize ∧ p.npieces = t.npieces ∧ h.torrentPieceSize = t.pieceSize ∧
        h.serves p.dispatched = true ∧ h.cmHasPiece p.dispatched index = true
  | _ => p.state = .btpMsgsize ∧ p.npieces = t.npieces

end Outgoing

variable {t : Torrent} {m : Outgoing}

theorem piece_lt {index : Nat} (inside : index < t.npieces) : index < 2 ^ 32 := by
  have pieces := t.pieces_lt
  omega

theorem multihave_lt (t : Torrent) : 9 * t.npieces < 2 ^ 32 := by
  have pieces := t.pieces_lt
  omega

theorem length_lt {length : Nat} (short : length ≤ pieceBlocklen) : length < 2 ^ 32 := by
  unfold pieceBlocklen at short
  omega

/-- The numbers of the first buffer are read back. -/
theorem numbers_eq {fuel : Nat} {nbs : List NetBuf} (valid : m.Valid t)
    (enough : t.npieces < fuel)
    (bufs : m.bufs t.npieces fuel = some nbs) :
    ∀ nb ∈ nbs.head?, nbGetIndex nb = m.index? ∧ nbGetBegin nb = m.begin? ∧
      nbGetLength nb = m.length? := by
  cases m with
  | «have» index =>
      cases bufs
      rintro _ ⟨⟩
      exact ⟨congrArg some (decBe32_enc (piece_lt valid)), rfl, rfl⟩
  | request index begin length =>
      obtain ⟨inside, word, short, -⟩ := valid
      cases bufs
      rintro _ ⟨⟩
      exact ⟨congrArg some (decBe32_encBe32 (piece_lt inside)),
        congrArg some (decBe32_encBe32 word), congrArg some (decBe32_enc (length_lt short))⟩
  | cancel index begin length =>
      obtain ⟨inside, word, short, -⟩ := valid
      cases bufs
      rintro _ ⟨⟩
      exact ⟨congrArg some (decBe32_encBe32 (piece_lt inside)),
        congrArg some (decBe32_encBe32 word), congrArg some (decBe32_enc (length_lt short))⟩
  | piece index begin content =>
      obtain ⟨inside, word, short, -⟩ := valid
      have whole : 9 + content.length < 2 ^ 32 := by
        unfold pieceBlocklen at short
        omega
      cases bufs
      rintro _ ⟨⟩
      refine ⟨congrArg some (decBe32_encBe32 (piece_lt inside)), congrArg some (decBe32_enc word),
        congrArg some ?_⟩
      have first : decBe32 (nbCreatePiece index begin content.length).buf = 9 + content.length :=
        decBe32_encBe32 whole
      rw [first, sub32_eq (Nat.le_add_right ..) whole, Nat.add_sub_cancel_left]
  | multihave has =>
      obtain ⟨nb, created, rfl⟩ := Option.map_eq_some_iff.1 bufs
      rw [nbCreateMultihave_eq has enough (multihave_lt t)] at created
      cases created
      rintro _ ⟨⟩
      exact ⟨rfl, rfl, rfl⟩
  | _ =>
      cases bufs
      rintro _ ⟨⟩
      exact ⟨rfl, rfl, rfl⟩

/-- The bytes of the buffers are the message. -/
theorem fed_bufs {fuel : Nat} (valid : m.Valid t) (enough : t.npieces < fuel) (sized : p.Sized)
    (alive : p.killed = false) (expected : m.Expected t h p) :
    ∃ nbs, m.bufs t.npieces fuel = some nbs ∧
      ∃ q, Fed h t.npieces p (wire nbs) q ∧ Told t.npieces p.dispatched (m.messages t.npieces) q := by
  have ready : p.state = .btpMsgsize → p.npieces = t.npieces → Ready t.npieces p.dispatched p :=
    fun state n => ⟨state, sized 4 (by rw [state]; rfl), alive, n, rfl⟩
  cases m with
  | keepalive =>
      obtain ⟨q, fed, ready⟩ := fed_keepalive (h := h) (ready expected.1 expected.2)
      exact ⟨_, rfl, q, fed, told_nil ready⟩
  | choke =>
      have short : ((0 : UInt8), Message.choke) ∈ onesized := by decide
      obtain ⟨q, fed, given⟩ := fed_onesized (h := h) (ready expected.1 expected.2) short
      exact ⟨_, rfl, q, fed, given.told⟩
  | unchoke =>
      have short : ((1 : UInt8), Message.unchoke) ∈ onesized := by decide
      obtain ⟨q, fed, given⟩ := fed_onesized (h := h) (ready expected.1 expected.2) short
      exact ⟨_, rfl, q, fed, given.told⟩
  | interest =>
      have short : ((2 : UInt8), Message.interest) ∈ onesized := by decide
      obtain ⟨q, fed, given⟩ := fed_onesized (h := h) (ready expected.1 expected.2) short
      exact ⟨_, rfl, q, fed, given.told⟩
  | uninterest =>
      have short : ((3 : UInt8), Message.uninterest) ∈ onesized := by decide
      obtain ⟨q, fed, given⟩ := fed_onesized (h := h) (ready expected.1 expected.2) short
      exact ⟨_, rfl, q, fed, given.told⟩
  | «have» index =>
      obtain ⟨q, fed, given⟩ := fed_have (h := h) (ready expected.1 expected.2) (piece_lt valid)
      exact ⟨_, rfl, q, fed, given.told⟩
  | bitfield field =>
      obtain ⟨state, n, first⟩ := expected
      have word : fieldBytes t.npieces + 1 < 2 ^ 32 := by
        have pieces := t.pieces_lt
        unfold fieldBytes
        omega
      have whole : (field.take (fieldBytes t.npieces)).length = fieldBytes t.npieces :=
        List.length_take_of_le valid
      obtain ⟨q, fed, given⟩ := fed_bitfield (h := h) (ready state n) word first whole
      refine ⟨_, rfl, q, ?_, given.told⟩
      have bytes : wire [nbCreateBitfield t.npieces, nbCreateBitdata t.npieces field] =
          encBe32 (fieldBytes t.npieces + 1) ++ 5 :: field.take (fieldBytes t.npieces) :=
        congrArg (_ ++ ·) (List.append_nil _)
      rw [bytes]
      exact fed
  | multihave has =>
      obtain ⟨state, n⟩ := expected
      have inside : ∀ i ∈ held has t.npieces, i < 2 ^ 32 := fun i mem =>
        piece_lt (List.mem_range.1 (List.mem_filter.1 mem).1)
      obtain ⟨q, fed, told⟩ := fed_haves (h := h) (ready state n) inside
      refine ⟨[⟨.multihave, haves (held has t.npieces)⟩], ?_, q, ?_, told⟩
      · exact congrArg (Option.map _) (nbCreateMultihave_eq has enough (multihave_lt t))
      · have bytes :
            wire [⟨.multihave, haves (held has t.npieces)⟩] = haves (held has t.npieces) :=
          List.append_nil _
        rw [bytes]
        exact fed
  | request index begin length =>
      obtain ⟨inside, word, short, fits⟩ := valid
      obtain ⟨state, n, sizes, serves, piece⟩ := expected
      rw [← sizes] at fits
      obtain ⟨q, fed, given⟩ := fed_request (piece_lt inside) word (length_lt short) (ready state n)
        serves piece inside short fits
      exact ⟨_, rfl, q, fed, given.told⟩
  | cancel index begin length =>
      obtain ⟨inside, word, short, fits⟩ := valid
      obtain ⟨q, fed, given⟩ := fed_cancel (h := h) (piece_lt inside) word (length_lt short)
        (ready expected.1 expected.2)
      exact ⟨_, rfl, q, fed, given.told⟩
  | piece index begin content =>
      obtain ⟨inside, word, short, fits⟩ := valid
      obtain ⟨q, fed, given⟩ := fed_piece (h := h) (ready expected.1 expected.2) (piece_lt inside)
        word short
      refine ⟨_, rfl, q, ?_, given.told⟩
      have bytes : wire [nbCreatePiece index begin content.length, nbTorrentdata content] =
          encBe32 (9 + content.length) ++ 7 :: (encBe32 index ++ encBe32 begin) ++ content :=
        congrArg (_ ++ ·) (List.append_nil _)
      rw [bytes]
      exact fed
  | shake hash peerId =>
      obtain ⟨rfl, whole⟩ := valid
      obtain ⟨state, awaits, new, other⟩ := expected
      have here : At p.npieces p.dispatched .shakePstr 28 p :=
        ⟨state, sized 28 (by rw [state]; rfl), alive, rfl, rfl⟩
      obtain ⟨q, fed, ready⟩ := fed_shake here t.length_hash whole awaits new other
      refine ⟨_, rfl, q, ?_, told_nil ready⟩
      have bytes : wire [nbCreateShake t.hash peerId] =
          pstr ++ List.replicate 8 0 ++ (t.hash ++ peerId) := by
        rw [nbCreateShake_eq t.length_hash whole]
        exact List.append_nil _
      rw [bytes]
      exact fed

theorem Outgoing.Expected.waits (expected : m.Expected t h p) (sized : p.Sized) :
    0 < p.stBytes := by
  have between : p.state = .btpMsgsize → 0 < p.stBytes := fun state => by
    rw [sized 4 (by rw [state]; rfl)]
    decide
  cases m with
  | shake hash peerId =>
      rw [sized 28 (by rw [expected.1]; rfl)]
      decide
  | _ => exact between expected.1

/-- What is sent is what is parsed. -/
theorem round_trip {fuel : Nat} (valid : m.Valid t) (enough : t.npieces < fuel) (sized : p.Sized)
    (alive : p.killed = false) (expected : m.Expected t h p) :
    ∃ nbs, m.bufs t.npieces fuel = some nbs ∧
      (∀ nb ∈ nbs.head?, nbGetIndex nb = m.index? ∧ nbGetBegin nb = m.begin? ∧
        nbGetLength nb = m.length?) ∧
      ∃ q, q.state = .btpMsgsize ∧ q.stBytes = 4 ∧ q.killed = false ∧ q.npieces = t.npieces ∧
        (∃ ds, q.dispatched = p.dispatched ++ ds ∧
          ds.map Dispatch.msg = m.messages t.npieces) ∧
        (∃ calls, q.calls = p.calls ++ calls ∧ ∀ c ∈ calls, Passes t.npieces c) ∧
        (∀ reads, ∃ c left, netReads h ⟨p, none⟩ (wire nbs) reads = some (c, left) ∧
          (left = [] → c = ⟨q, none⟩)) ∧
        netReads h ⟨p, none⟩ (wire nbs) (List.replicate (wire nbs).length .byte) =
          some (⟨q, none⟩, []) := by
  have waits := expected.waits sized
  obtain ⟨nbs, bufs, q, fed, ds, msgs, ready⟩ := fed_bufs valid enough sized alive expected
  obtain ⟨reads, bytes⟩ := fed.netReads sized waits ready.alive
  exact ⟨nbs, bufs, numbers_eq valid enough bufs, q, ready.state, ready.size, ready.alive,
    ready.npieces, ⟨ds, ready.dispatched, msgs⟩, fed.calls, reads, bytes⟩

theorem length_zeros : (List.replicate 20 (0 : UInt8)).length = 20 := rfl

/-- The torrent of a daemon that waits for messages of nine pieces. -/
def nineTorrent : Torrent where
  hash := List.replicate 20 0
  npieces := 9
  pieceSize _ := 2 ^ 15
  length_hash := length_zeros
  pieces_lt := by decide

/-- The parser of that daemon behind a handshake. -/
def shaken : Parser := { Parser.create ninePieces with state := .btpMsgsize, stBytes := 4 }

/-- The last block of the last piece is asked for, and the pieces 1 and 7 are told. -/
theorem round_trip_nine :
    (∃ nbs, Outgoing.bufs 9 10 (.request 8 (2 ^ 14) (2 ^ 14)) = some nbs ∧
      ∃ q, netReads ninePieces ⟨shaken, none⟩ (wire nbs) (List.replicate (wire nbs).length .byte) =
          some (⟨q, none⟩, []) ∧
        q.dispatched.map Dispatch.msg = [.request 8 (2 ^ 14) (2 ^ 14)]) ∧
    ∃ nbs, Outgoing.bufs 9 10 (.multihave fun i => i = 1 ∨ i = 7) = some nbs ∧
      ∃ q, netReads ninePieces ⟨shaken, none⟩ (wire nbs) (List.replicate (wire nbs).length .byte) =
          some (⟨q, none⟩, []) ∧
        q.dispatched.map Dispatch.msg = [.have 1, .have 7] := by
  have sized : shaken.Sized := fun _ eq => Option.some.inj eq
  constructor
  · have valid : Outgoing.Valid nineTorrent (.request 8 (2 ^ 14) (2 ^ 14)) := by
      refine ⟨?_, ?_, ?_, ?_⟩ <;> decide
    obtain ⟨nbs, bufs, -, q, -, -, -, -, ⟨ds, eq, msgs⟩, -, -, bytes⟩ :=
      round_trip (h := ninePieces) valid (Nat.lt_succ_self 9) sized rfl ⟨rfl, rfl, rfl, rfl, rfl⟩
    refine ⟨nbs, bufs, q, bytes, ?_⟩
    rw [eq]
    exact msgs
  · have valid : Outgoing.Valid nineTorrent (.multihave fun i => i = 1 ∨ i = 7) := trivial
    obtain ⟨nbs, bufs, -, q, -, -, -, -, ⟨ds, eq, msgs⟩, -, -, bytes⟩ :=
      round_trip (h := ninePieces) valid (Nat.lt_succ_self 9) sized rfl ⟨rfl, rfl⟩
    refine ⟨nbs, bufs, q, bytes, ?_⟩
    rw [eq]
    exact msgs

end Btpd.Wire
