import Btpd.Download.Attempts
import Mathlib

/-!
# Who is banned when a piece is tested

A piece that fails its test convicts a peer that sent all of it, and else its log is kept with
the hashes of the blocks.  When the piece is verified, the blocks of the failed attempts are
compared by these hashes, and the senders of those that differ are banned.
-/

namespace Btpd.Download

open Prog

variable {t : Torrent} {sent : Deliveries} {index p : Nat} {n n' : Net} {callers : List Fn}

/-! ## The other pieces -/

/-- While a piece is tested, the accounts of the other pieces are kept. -/
structure Net.Others (t : Torrent) (sent : Deliveries) (index : Nat) (n : Net) : Prop where
  sound : n.Sound t
  others : ∀ i, i ≠ index → n.Accounted t sent i

namespace Net.Others

theorem of_follows {known : List Nat} (held : n.Others t sent index)
    (follows : Net.Follows t n known n') : n'.Others t sent index :=
  ⟨follows.sound, fun i other => (held.others i other).of_follows follows⟩

/-- What is done to the piece that is tested does not concern the others. -/
theorem setPiece {pc : Piece} (held : n.Others t sent index)
    (nblocks : pc.nblocks = (n.piece index).nblocks)
    (sound : n.Allocated index → pc.Sound t n.cm.blockField index) :
    (n.setPiece index pc).Others t sent index := by
  refine ⟨held.sound.setPiece nblocks sound, fun i other => ?_⟩
  apply (held.others i other).of_same
  · rfl
  · rw [Net.setPiece_piece, if_neg other]
    exact ⟨rfl, rfl⟩
  · exact fun _ _ _ told => told
  · exact fun _ _ _ _ was => was
  · exact fun _ _ _ was => was
  · rfl
  · rfl
  · exact fun _ _ _ _ banned => banned

/-- The logs and the counts of the piece that is tested change. -/
theorem relog {pc : Piece} (held : n.Others t sent index)
    (same : pc.nblocks = (n.piece index).nblocks ∧ pc.nextBlock = (n.piece index).nextBlock ∧
      pc.reqs = (n.piece index).reqs ∧ pc.egReqs = (n.piece index).egReqs) :
    (n.setPiece index pc).Others t sent index := by
  rcases same with ⟨nblocks, nextBlock, reqs, egReqs⟩
  apply held.setPiece nblocks
  intro alloc
  have sound := held.sound.piece index alloc
  constructor
  · exact sound.inside
  · rw [nblocks]
    exact sound.nblocks
  · rw [nblocks, nextBlock]
    exact sound.nextBlock
  · rw [reqs]
    exact sound.reqs
  · rw [egReqs]
    exact sound.egReqs

/-- A peer is banned. -/
theorem ban (held : n.Others t sent index) :
    (n.setPeer p { n.peer p with banned := true }).Others t sent index := by
  refine ⟨held.sound.setPeer (held.sound.peer p), fun i other => ?_⟩
  apply (held.others i other).of_same
  · rfl
  · exact ⟨rfl, rfl⟩
  · exact fun _ _ _ told => told
  · exact fun _ _ _ _ was => was
  · exact fun _ _ _ was => was
  · rfl
  · rfl
  · intro q _ _ _ banned
    rw [Net.setPeer_peer]
    split
    · rfl
    · exact banned

end Net.Others

/-! ## A failed test -/

/-- The data of a block as the content has it. -/
def Content.block (cm : Content) (t : Torrent) (index block : Nat) : List UInt8 :=
  cm.readBlock t index (block * pieceBlocklen)
    (t.torrentBlockSize index (t.torrentPieceBlocks index) block)

/-- The hashes that `piece_log_hashes` takes. -/
def Content.hashes (cm : Content) (t : Torrent) (index : Nat) (block : Nat) : List UInt8 :=
  t.sha1 (cm.read t (index * t.pieceLength + block * pieceBlocklen % 2 ^ 32)
    (t.torrentBlockSize index (t.torrentPieceBlocks index) block))

theorem Content.hashes_eq {cm : Content} {block : Nat} (small : block * pieceBlocklen < 2 ^ 32) :
    cm.hashes t index block = t.sha1 (cm.block t index block) := by
  unfold hashes Content.block readBlock
  rw [Nat.mod_eq_of_lt small]

theorem keeps_pieceLogSuspect {b : Net} {known : List Nat} {r : LogRecord} :
    Keeps whenReturns (Net.Follows t b known) (pieceLogSuspect index r) := by
  apply keeps_get
  intro callers n held
  refine keeps_when (keeps_seq (keeps_when keeps_peerUnwant_follows) fun _ => ?_) _ _ held
  apply keeps_onPeer_sheds
  intro peer
  apply ends_mono (Returns.of_ends Peer.badPiece_core)
  rintro peer' ⟨-, bad, -, same⟩
  exact .of_core same .rfl

theorem pieceLogHashes_wp {log : BlockLog} {older : List BlockLog} (sound : n.Sound t)
    (alloc : n.Allocated index) (logs : (n.piece index).logs = log :: older) :
    (pieceLogHashes t index).wp whenReturns callers (fun _ n' => n' = n.setPiece index
      { n.piece index with
        logs := { log with hashes := some (n.cm.hashes t index) } :: older }) n := by
  unfold pieceLogHashes onFirstLog
  rw [wp_bind, wp_get]
  dsimp only
  rw [wp_onPiece, logs]
  show _ = _
  rw [(sound.piece index alloc).nblocks]
  rfl

/-- The peers that are banned. -/
def Net.bans (n : Net) (q : Nat) : Bool := (n.peer q).banned

/-- What becomes of the logs of a piece of `nblocks` blocks that has failed its test: a peer
that sent every block of it is banned, and else the newest log keeps the hashes. -/
inductive Judged (nblocks : Nat) (hashes : Nat → List UInt8) (log : BlockLog)
    (older : List BlockLog) (was is_ : Nat → Bool) : List BlockLog → Prop
  | culprit (r : LogRecord) (records : log.records = [r])
      (all : ∀ block < nblocks, r.downField block = true)
      (banned : ∀ q, is_ q = true ↔ was q = true ∨ q = r.mp) :
      Judged nblocks hashes log older was is_ older
  | kept (banned : is_ = was) :
      Judged nblocks hashes log older was is_ ({ log with hashes := some hashes } :: older)

/-- What the blame for a failed piece does: the logs are judged and the rest is left alone. -/
structure Blamed (t : Torrent) (sent : Deliveries) (index : Nat) (log : BlockLog)
    (older : List BlockLog) (n n' : Net) (logs : List BlockLog) : Prop extends
    Net.Others t sent index n' where
  allocated : n'.Allocated index
  busy : n'.busyField index = true
  ngot : (n'.piece index).ngot = (n.piece index).ngot
  data : n'.cm.data = n.cm.data
  blockField : n'.cm.blockField = n.cm.blockField
  pieceField : n'.cm.pieceField = n.cm.pieceField
  posField : ∀ i, n.cm.posField i = true → n'.cm.posField i = true
  nextPeer : n'.nextPeer = n.nextPeer
  judged : Judged (t.torrentPieceBlocks index) (n.cm.hashes t index) log older n.bans n'.bans logs

theorem culprit_eq_some {nblocks mp : Nat} {records : List LogRecord}
    (found : LogRecord.culprit nblocks records = some mp) :
    ∃ r, records = [r] ∧ r.mp = mp ∧ ∀ block < nblocks, r.downField block = true := by
  unfold LogRecord.culprit at found
  split at found
  · rename_i r
    split at found
    · rename_i all
      cases found
      exact ⟨r, rfl, rfl, all⟩
    · cases found
  · cases found

theorem pieceLogBlame_wp {log : BlockLog} {older : List BlockLog}
    (held : n.Others t sent index) (alloc : n.Allocated index)
    (busy : n.busyField index = true) (logs : (n.piece index).logs = log :: older) :
    (pieceLogBlame t index log older).wp whenReturns callers (fun _ n' =>
      Blamed t sent index log older n n' (n'.piece index).logs) n := by
  have known : Net.Follows t n [index] n :=
    (Net.Follows.refl held.sound).learn (by simpa using alloc)
  unfold pieceLogBlame
  rw [wp_bind, wp_get]
  split
  · rename_i mp found
    rcases culprit_eq_some found with ⟨r, records, rfl, all⟩
    rw [(held.sound.piece index alloc).nblocks] at all
    apply wp_seq (keeps_when keeps_peerUnwant_follows _ _ known)
    intro _ n₁ follows
    have held₁ := held.of_follows follows
    have alloc₁ : n₁.Allocated index := follows.known index List.mem_cons_self
    rcases follows.busy index busy with ⟨busy₁, -, ngot₁⟩
    unfold netBanPeer
    simp only [wp_bind, wp_onPeer, wp_onPiece, ends_ok, Net.setPeer_piece]
    rw [Net.setPiece_piece, if_pos rfl]
    refine ⟨held₁.ban.relog ⟨rfl, rfl, rfl, rfl⟩, ?_, busy₁, ?_, follows.data,
      follows.blockField, follows.pieceField, follows.posField, follows.nextPeer, ?_⟩
    · unfold Net.Allocated
      rw [Net.setPiece_piece, if_pos rfl]
      exact alloc₁
    · rw [Net.setPiece_piece, if_pos rfl]
      exact ngot₁
    · apply Judged.culprit r records all
      intro q
      unfold Net.bans
      rw [Net.setPiece_peer, Net.setPeer_peer]
      split
      · rename_i same
        simp [same]
      · rename_i other
        rw [follows.banned]
        simp [other]
  · apply wp_seq (keeps_forEach (fun _ _ => keeps_pieceLogSuspect) _ _ known)
    intro _ n₁ follows
    have held₁ := held.of_follows follows
    have alloc₁ : n₁.Allocated index := follows.known index List.mem_cons_self
    rcases follows.busy index busy with ⟨busy₁, logs₁, ngot₁⟩
    apply wp_mono (pieceLogHashes_wp held₁.sound alloc₁ (logs₁.trans logs))
    rintro _ _ rfl
    have hashes : n₁.cm.hashes t index = n.cm.hashes t index := by
      funext block
      unfold Content.hashes
      rw [Content.read_of_data follows.data]
    rw [Net.setPiece_piece, if_pos rfl, hashes]
    refine ⟨held₁.relog ⟨rfl, rfl, rfl, rfl⟩, ?_, busy₁, ?_, follows.data, follows.blockField,
      follows.pieceField, follows.posField, follows.nextPeer, .kept (funext follows.banned)⟩
    · unfold Net.Allocated
      rw [Net.setPiece_piece, if_pos rfl]
      exact alloc₁
    · rw [Net.setPiece_piece, if_pos rfl]
      exact ngot₁

theorem pieceLogBad_wp {log : BlockLog} {older : List BlockLog}
    (held : n.Others t sent index) (alloc : n.Allocated index)
    (busy : n.busyField index = true) (logs : (n.piece index).logs = log :: older) :
    (pieceLogBad t index).wp whenReturns callers (fun _ n' => ∃ logs',
      (n'.piece index).logs = ⟨[], none⟩ :: logs' ∧
      Blamed t sent index log older n n' logs') n := by
  unfold pieceLogBad
  rw [wp_call]
  right
  rw [wp_bind, wp_get, logs]
  dsimp only
  rw [wp_bind, wp_assert]
  split
  · apply wp_seq (pieceLogBlame_wp held alloc busy logs)
    intro _ n₁ blamed
    rw [wp_onPiece]
    have fresh : (n₁.setPiece index (n₁.piece index).newLog).piece index =
        (n₁.piece index).newLog := by
      rw [Net.setPiece_piece, if_pos rfl]
    refine ⟨(n₁.piece index).logs, congrArg Piece.logs fresh, ?_⟩
    refine ⟨blamed.toOthers.relog ⟨rfl, rfl, rfl, rfl⟩, ?_, blamed.busy, ?_, blamed.data,
      blamed.blockField, blamed.pieceField, blamed.posField, blamed.nextPeer, blamed.judged⟩
    · unfold Net.Allocated
      rw [fresh]
      exact blamed.allocated
    · rw [fresh]
      exact blamed.ngot
  · trivial

/-- Where the whole piece is stored, the data that a peer has sent is that of the block. -/
theorem Stored.eq_block {cm : Content} {block : Nat} {data : List UInt8}
    (held : Stored t sent cm index p block data)
    (all : ∀ block < t.torrentPieceBlocks index, cm.blockField index block = true) :
    block < t.torrentPieceBlocks index ∧ block * pieceBlocklen < 2 ^ 32 ∧
      data.length = t.torrentBlockSize index (t.torrentPieceBlocks index) block ∧
      data = cm.block t index block := by
  rcases held.asked.fits with ⟨-, small, -, -, inside⟩
  have whole := held.asked.whole all
  rw [Nat.mul_div_cancel _ (show 0 < pieceBlocklen by decide)] at inside whole
  refine ⟨inside, small, whole, ?_⟩
  unfold Content.block
  rw [← whole]
  exact held.held.symm

theorem Content.block_of_data {cm cm' : Content} {block : Nat} (same : cm'.data = cm.data) :
    cm'.block t index block = cm.block t index block :=
  Content.read_of_data same

/-- A block of an attempt at the whole piece is hashed when the test has failed. -/
theorem Stored.hash {cm cm' : Content} {block : Nat} {data : List UInt8}
    (held : Stored t sent cm index p block data) (same : cm'.data = cm.data)
    (all : ∀ block < t.torrentPieceBlocks index, cm.blockField index block = true) :
    Hashed t sent (cm'.hashes t index) index p block data := by
  rcases held.eq_block all with ⟨inside, small, whole, read⟩
  refine ⟨held.sent, inside, small, whole, ?_⟩
  rw [Content.hashes_eq small, Content.block_of_data same, ← read]

/-- A peer that is banned stays banned, and so is the one that is judged to be the culprit. -/
theorem Judged.banned {nblocks : Nat} {hashes : Nat → List UInt8} {log : BlockLog}
    {older logs : List BlockLog} {was is_ : Nat → Bool}
    (judged : Judged nblocks hashes log older was is_ logs) {q : Nat} (before : was q = true) :
    is_ q = true := by
  cases judged with
  | culprit r records all banned => exact (banned q).mpr (.inl before)
  | kept banned =>
      rw [banned]
      exact before

/-- A piece that has failed its test starts a new attempt, and what was sent in the last one
is remembered or punished. -/
theorem Blamed.accounted {cm : Content} {log : BlockLog} {older logs : List BlockLog}
    (blamed : Blamed t sent index log older n n' logs)
    (fresh : (n'.piece index).logs = ⟨[], none⟩ :: logs) (ngot : (n.piece index).ngot = 0)
    (cleared : n.cm.blockField index = fun _ => false) (same : n.cm.data = cm.data)
    (all : ∀ block < t.torrentPieceBlocks index, cm.blockField index block = true)
    (tells : log.Tells (Stored t sent cm index))
    (failed : ∀ bad ∈ older, bad.Failed t sent index)
    (covered : ∀ p begin data, sent p index begin data → n.cm.pieceField index = false →
      n.bans p = true ∨ ∃ block, begin = block * pieceBlocklen ∧
        Recorded t sent cm index (log :: older) p block data) :
    n'.Accounted t sent index := by
  constructor
  · intro _
    rw [blamed.ngot, ngot]
    unfold Content.blocksGot
    rw [blamed.blockField, cleared]
    exact (List.countP_eq_zero.mpr (by simp)).symm
  · intro _
    refine ⟨_, logs, fresh, ?_, ?_⟩
    · rintro q block ⟨r, mem, -⟩
      cases mem
    · cases blamed.judged with
      | culprit r records whole banned => exact failed
      | kept banned =>
          refine List.forall_mem_cons.mpr ⟨⟨_, rfl, ?_⟩, failed⟩
          intro q block marked
          rcases tells q block marked with ⟨data, held⟩
          exact ⟨data, held.hash same all⟩
  · intro q begin data was unverified
    refine ⟨blamed.busy, ?_⟩
    rw [blamed.pieceField] at unverified
    rcases covered q begin data was unverified with banned | ⟨block, beginEq, recorded⟩
    · exact .inl (blamed.judged.banned banned)
    rw [fresh]
    rcases recorded with ⟨first, head, marked, held⟩ | ⟨bad, mem, marked, hashes, has, held⟩
    · cases head
      cases blamed.judged with
      | culprit r records whole banned =>
          left
          rcases marked with ⟨r', mem, here, -⟩
          rw [records] at mem
          rw [List.mem_singleton.mp mem] at here
          exact (banned q).mpr (.inr here.symm)
      | kept banned =>
          right
          refine ⟨block, beginEq, .inr ⟨_, List.mem_cons_self, marked, _, rfl, ?_⟩⟩
          exact held.hash same all
    · right
      refine ⟨block, beginEq, .inr ⟨bad, ?_, marked, hashes, has, held⟩⟩
      cases blamed.judged with
      | culprit r records whole banned => exact mem
      | kept banned => exact List.mem_cons_of_mem _ mem

/-! ## What a test does -/

/-- The data of the piece that `cm_test_piece` hashes. -/
def Content.piece (cm : Content) (t : Torrent) (index : Nat) : List UInt8 :=
  cm.read t (index * t.pieceLength) (t.torrentPieceSize index).toNat

/-- The peer has sent every block of the piece as the content has it. -/
def SentWhole (t : Torrent) (sent : Deliveries) (cm : Content) (index q : Nat) : Prop :=
  ∀ block < t.torrentPieceBlocks index,
    sent q index (block * pieceBlocklen) (cm.block t index block)

/-- The peer has sent a block of which the hash is not that of the block in the content. -/
def SentOther (t : Torrent) (sent : Deliveries) (cm : Content) (index q : Nat) : Prop :=
  ∃ block < t.torrentPieceBlocks index, ∃ data, sent q index (block * pieceBlocklen) data ∧
    data.length = t.torrentBlockSize index (t.torrentPieceBlocks index) block ∧
    t.sha1 data ≠ t.sha1 (cm.block t index block)

/-- The data sent at the offset hashes to what the content has there. -/
def SameHash (t : Torrent) (cm : Content) (index begin : Nat) (data : List UInt8) : Prop :=
  ∃ block < t.torrentPieceBlocks index, begin = block * pieceBlocklen ∧
    data.length = t.torrentBlockSize index (t.torrentPieceBlocks index) block ∧
    t.sha1 data = t.sha1 (cm.block t index block)

/-- What an event does in which a block of the piece has come: peers are banned for good
reason only, and when the piece is verified, whoever has sent anything else is banned. -/
structure Tested (t : Torrent) (sent : Deliveries) (index : Nat) (n n' : Net) : Prop where
  sound : n'.Sound t
  accounted : ∀ i, n'.Accounted t sent i
  nextPeer : n'.nextPeer = n.nextPeer
  unverified : n.cm.pieceField index = false
  posField : ∀ i, n.cm.posField i = true → n'.cm.posField i = true
  placed : n'.cm.posField index = true
  data : ∀ i < t.npieces, i ≠ index → n.cm.posField i = true →
    n'.cm.piece t i = n.cm.piece t i
  kept : ∀ q, n.bans q = true → n'.bans q = true
  others : ∀ i, i ≠ index → n'.cm.pieceField i = n.cm.pieceField i
  banned : ∀ q, n'.bans q = true → n.bans q = true ∨
    (t.sha1 (n'.cm.piece t index) ≠ t.pieceHash index ∧ SentWhole t sent n'.cm index q) ∨
    (t.sha1 (n'.cm.piece t index) = t.pieceHash index ∧ SentOther t sent n'.cm index q)
  verified : n'.cm.pieceField index = true →
    t.sha1 (n'.cm.piece t index) = t.pieceHash index ∧ ∀ q begin data,
      sent q index begin data → n'.bans q = true ∨ SameHash t n'.cm index begin data

/-- Assigning requests does not change what a test has done. -/
theorem Tested.of_follows {n'' : Net} {known : List Nat} (tested : Tested t sent index n n')
    (follows : Net.Follows t n' known n'') : Tested t sent index n n'' := by
  have bans : n''.bans = n'.bans := funext follows.banned
  have pieceEq : ∀ i, n''.cm.piece t i = n'.cm.piece t i := fun _ =>
    Content.read_of_data follows.data
  have blockEq : ∀ block, n''.cm.block t index block = n'.cm.block t index block := fun _ =>
    Content.block_of_data follows.data
  constructor
  · exact follows.sound
  · exact fun i => (tested.accounted i).of_follows follows
  · exact follows.nextPeer.trans tested.nextPeer
  · exact tested.unverified
  · exact fun i set => follows.posField i (tested.posField i set)
  · exact follows.posField index tested.placed
  · exact fun i inside other set => (pieceEq i).trans (tested.data i inside other set)
  · rw [bans]
    exact tested.kept
  · rw [follows.pieceField]
    exact tested.others
  · unfold SentWhole SentOther
    simp only [bans, pieceEq, blockEq]
    exact tested.banned
  · unfold SameHash
    simp only [follows.pieceField, bans, pieceEq, blockEq]
    exact tested.verified

theorem Tested.after {α : Type} {m : Routine α} {known : List Nat}
    (tested : Tested t sent index n n') (alloc : ∀ i ∈ known, n'.Allocated i)
    (keeps : Keeps whenReturns (Net.Follows t n' known) m) :
    m.wp whenReturns callers (fun _ n'' => Tested t sent index n n'') n' :=
  wp_mono (keeps callers n' ((Net.Follows.refl tested.sound).learn alloc))
    fun _ _ follows => tested.of_follows follows

/-- The piece has all its blocks and is about to be tested. -/
structure Complete (t : Torrent) (sent : Deliveries) (index : Nat) (n : Net) : Prop where
  sound : n.Sound t
  accounted : ∀ i, n.Accounted t sent i
  allocated : n.Allocated index
  busy : n.busyField index = true
  unverified : n.cm.pieceField index = false
  placed : n.cm.posField index = true
  all : ∀ block < t.torrentPieceBlocks index, n.cm.blockField index block = true

/-- The content changes in a way that concerns the piece alone. -/
theorem Complete.others {cm : Content} (complete : Complete t sent index n)
    (data : cm.data = n.cm.data) (posField : cm.posField = n.cm.posField)
    (blockField : ∀ i, i ≠ index → cm.blockField i = n.cm.blockField i)
    (pieceField : ∀ i, i ≠ index → cm.pieceField i = n.cm.pieceField i)
    (fewer : ∀ block, n.cm.blockField index block = false → cm.blockField index block = false)
    (verified : n.cm.pieceField index = true → cm.pieceField index = true) :
    Net.Others t sent index { n with cm := cm } := by
  have small : ∀ i block, 2 ^ 32 ≤ block * pieceBlocklen → n.cm.blockField i block = false →
      cm.blockField i block = false := by
    intro i block _ free
    by_cases same : i = index
    · subst same
      exact fewer block free
    · rw [blockField i same]
      exact free
  constructor
  · have sound := complete.sound
    refine ⟨sound.attached, sound.listed, ?_, ?_, ?_⟩
    · intro i alloc
      apply (sound.busy i alloc).imp_right
      intro set
      show cm.pieceField i = true
      by_cases same : i = index
      · subst same
        exact verified set
      · rw [pieceField i same]
        exact set
    · exact fun i alloc => (sound.piece i alloc).mono (small i)
    · exact fun q req mem => (sound.peer q req mem).imp_right fun asks => asks.mono (small _)
  · intro i other
    apply (complete.accounted i).of_same
    · rfl
    · exact ⟨rfl, rfl⟩
    · intro q block data' told
      apply told.of_same (Content.read_of_data data) _ (small i) _
      · show n.cm.blockField i block = true → cm.blockField i block = true
        rw [blockField i other]
        exact id
      · show n.cm.posField i = true → cm.posField i = true
        rw [posField]
        exact id
    · exact fun _ _ _ _ was => was
    · exact fun _ _ _ was => was
    · exact blockField i other
    · exact pieceField i other
    · exact fun _ _ _ _ banned => banned

/-- The logs are as in `b`, and only peers that are guilty were banned since. -/
structure Net.Punishes (t : Torrent) (b : Net) (index : Nat) (guilty : Nat → Prop) (n : Net) :
    Prop extends Net.SameLogs t b n where
  sound : n.Sound t
  allocated : n.Allocated index
  kept : ∀ q, b.bans q = true → n.bans q = true
  banned : ∀ q, n.bans q = true → b.bans q = true ∨ guilty q

/-- The record names a block that differs from the good one. -/
def LogRecord.Differs (t : Torrent) (index : Nat) (good hashes : Nat → List UInt8)
    (r : LogRecord) : Prop :=
  ∃ i < t.torrentPieceBlocks index, r.downField i = true ∧ good i ≠ hashes i

variable {b : Net} {guilty : Nat → Prop} {good : Nat → List UInt8}

theorem Net.Punishes.of_follows (held : Net.Punishes t b index guilty n)
    (follows : Net.Follows t n [index] n') : Net.Punishes t b index guilty n' := by
  have bans : n'.bans = n.bans := funext follows.banned
  refine ⟨held.toSameLogs.trans follows.toSameLogs, follows.sound,
    follows.known index List.mem_cons_self, ?_, ?_⟩
  · rw [bans]
    exact held.kept
  · rw [bans]
    exact held.banned

theorem Net.Punishes.ban (held : Net.Punishes t b index guilty n) (is_ : guilty p) :
    Net.Punishes t b index guilty (n.setPeer p { n.peer p with banned := true }) := by
  refine ⟨⟨held.data, held.blockField, held.pieceField, held.posField, held.nextPeer, held.busy,
    held.fresh⟩, held.sound.setPeer (held.sound.peer p), held.allocated, ?_, ?_⟩
  · intro q was
    unfold Net.bans
    rw [Net.setPeer_peer]
    split
    · rfl
    · exact held.kept q was
  · intro q banned
    unfold Net.bans at banned
    rw [Net.setPeer_peer] at banned
    split at banned
    · rename_i same
      rw [same]
      exact .inr is_
    · exact held.banned q banned

/-- The other accounts are kept when the verified piece is freed. -/
theorem Net.Others.dropPiece (held : Net.Others t sent index n)
    (verified : n.cm.pieceField index = true) :
    Net.Others t sent index (n.dropPiece index) := by
  have busy : ∀ i, i ≠ index → (n.dropPiece index).busyField i = n.busyField i := fun i other =>
    Function.update_of_ne other ..
  constructor
  · refine ⟨held.sound.attached, ?_, ?_, held.sound.piece, held.sound.peer⟩
    · intro i mem
      exact held.sound.listed i (List.mem_of_mem_erase mem)
    · intro i alloc
      by_cases same : i = index
      · rw [same]
        exact .inr verified
      · rw [busy i same]
        exact held.sound.busy i alloc
  · intro i other
    apply (held.others i other).of_same
    · exact busy i other
    · exact ⟨rfl, rfl⟩
    · exact fun _ _ _ told => told
    · exact fun _ _ _ _ was => was
    · exact fun _ _ _ was => was
    · rfl
    · rfl
    · exact fun _ _ _ _ banned => banned

/-- A piece that is verified and freed has no account any more. -/
theorem Net.Accounted.dropped (verified : n.cm.pieceField index = true) :
    (n.dropPiece index).Accounted t sent index := by
  have free : (n.dropPiece index).busyField index = false := Function.update_self ..
  constructor
  · intro busy
    exact absurd (free.symm.trans busy) Bool.false_ne_true
  · intro busy
    exact absurd (free.symm.trans busy) Bool.false_ne_true
  · intro p begin data was unverified
    exact absurd (unverified.symm.trans verified) Bool.false_ne_true

/-- An event that tests nothing. -/
theorem Tested.refl (sound : n.Sound t) (accounted : ∀ i, n.Accounted t sent i)
    (unverified : n.cm.pieceField index = false) (placed : n.cm.posField index = true) :
    Tested t sent index n n :=
  ⟨sound, accounted, rfl, unverified, fun _ set => set, placed, fun _ _ _ _ => rfl,
    fun _ was => was, fun _ _ => rfl, fun _ was => .inl was,
    fun verified => absurd (unverified.symm.trans verified) Bool.false_ne_true⟩

/-- A piece that has as many blocks as it is made of has them all. -/
theorem Net.Accounted.all (account : n.Accounted t sent index) (sound : n.Sound t)
    (alloc : n.Allocated index) (busy : n.busyField index = true)
    (full : (n.piece index).ngot = (n.piece index).nblocks) :
    ∀ block < t.torrentPieceBlocks index, n.cm.blockField index block = true := by
  rw [account.counted busy, (sound.piece index alloc).nblocks] at full
  unfold Content.blocksGot at full
  have all := List.countP_eq_length.mp (full.trans List.length_range.symm)
  exact fun block inside => all block (List.mem_range.mpr inside)

variable {b : Net} {known : List Nat} {begin length : Nat} {data : List UInt8}

theorem keeps_cancelOthers {req : BlockRequest} :
    Keeps whenReturns (Net.Follows t b known) (cancelOthers index p begin length req) := by
  apply keeps_when
  apply keeps_seq
  · apply keeps_when
    apply keeps_onPeer_sheds
    intro peer
    apply ends_mono (Returns.of_ends Peer.cancel_core)
    rintro peer' ⟨-, same⟩
    exact .of_core same ⟨rfl, fun _ mem => List.mem_of_mem_erase mem⟩
  · intro _
    apply keeps_onPiece_counts
    intro pc
    exact ⟨rfl, rfl, rfl, rfl, rfl, rfl⟩

/-- The bytes of another piece are left alone. -/
theorem Content.Put.piece {cm cm' : Content} {i : Nat} (put : cm.Put t index begin data cm')
    (inside : index < t.npieces) (fits : begin + data.length ≤ (t.torrentPieceSize index).toNat)
    (insideI : i < t.npieces) (other : i ≠ index) (set : cm.posField i = true) :
    cm'.piece t i = cm.piece t i := by
  apply Content.read_congr
  intro k small
  have here : t.InPiece i (i * t.pieceLength + k) :=
    ⟨Nat.le_add_right _ _, Nat.add_lt_add_left small _⟩
  apply put.kept i insideI set _ here
  intro k' small' same
  apply t.piece_apart insideI inside other here
  rw [same]
  constructor
  · omega
  · omega

end Btpd.Download
