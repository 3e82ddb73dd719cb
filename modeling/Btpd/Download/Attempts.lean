import Btpd.Download.Naming
import Btpd.Library.Count
import Mathlib

/-!
# Attempts at a piece

The blocks of a piece are recorded in its newest log until the piece is tested, and after a
failed test the log keeps the hashes of what was stored.  What the logs name was sent by the
peers that they name, and what a peer has sent for a piece that is not verified yet is
recorded in a log, unless the peer is banned.
-/

namespace Btpd.Download

open Prog

variable {t : Torrent} {index block begin length : Nat}

/-! ## Where blocks lie -/

/-- The address is one of the bytes of the piece. -/
def Torrent.InPiece (t : Torrent) (index a : Nat) : Prop :=
  index * t.pieceLength ≤ a ∧ a < index * t.pieceLength + (t.torrentPieceSize index).toNat

/-- Pieces do not overlap. -/
theorem Torrent.piece_apart {i j a : Nat} (insideI : i < t.npieces) (insideJ : j < t.npieces)
    (ne : i ≠ j) (inI : t.InPiece i a) : ¬ t.InPiece j a := by
  have ordered : ∀ i j, i < j → j < t.npieces → t.InPiece i a → ¬ t.InPiece j a := by
    intro i j before inside inI inJ
    have size : t.torrentPieceSize i = t.pieceLength := if_pos (by omega)
    have last := inI.2
    rw [size, Int.toNat_natCast] at last
    have next : (i + 1) * t.pieceLength ≤ j * t.pieceLength := Nat.mul_le_mul_right _ before
    rw [Nat.succ_mul] at next
    exact absurd (last.trans_le (next.trans inJ.1)) (Nat.lt_irrefl a)
  rcases Nat.lt_or_gt_of_ne ne with before | after
  · exact ordered i j before insideJ inI
  · exact fun inJ => ordered j i after insideI inJ inI

/-- A block is no larger than 2 ^ 14 bytes and lies in its piece. -/
theorem Torrent.block_fits (inside : block < t.torrentPieceBlocks index) :
    t.torrentBlockSize index (t.torrentPieceBlocks index) block ≤ pieceBlocklen ∧
      block * pieceBlocklen + t.torrentBlockSize index (t.torrentPieceBlocks index) block ≤
        (t.torrentPieceSize index).toNat := by
  unfold torrentBlockSize
  unfold torrentPieceBlocks at inside ⊢
  generalize t.torrentPieceSize index = size at *
  unfold pieceBlocklen at *
  split
  · omega
  · omega

variable {stored : Nat → Nat → Bool}

/-- What is asked for starts where a block starts, within 32 bits, and lies in the piece. -/
theorem Asks.fits (asks : Asks t stored index begin length) :
    begin = begin / pieceBlocklen * pieceBlocklen ∧ begin < 2 ^ 32 ∧ length ≤ pieceBlocklen ∧
      begin + length ≤ (t.torrentPieceSize index).toNat ∧
      begin / pieceBlocklen < t.torrentPieceBlocks index := by
  rcases asks with ⟨block, inside, beginEq, lengthEq, -⟩
  have fits := t.block_fits inside
  rw [← lengthEq] at fits
  unfold pieceBlocklen at *
  omega

/-- Where every block is stored, what is asked for is a block in full. -/
theorem Asks.whole (asks : Asks t stored index begin length)
    (all : ∀ block < t.torrentPieceBlocks index, stored index block = true) :
    length = t.torrentBlockSize index (t.torrentPieceBlocks index) (begin / pieceBlocklen) := by
  rcases asks with ⟨block, inside, beginEq, lengthEq, small⟩
  have fits : block * pieceBlocklen < 2 ^ 32 := by
    by_contra large
    exact Bool.false_ne_true ((small (Nat.le_of_not_lt large)).symm.trans (all block inside))
  rw [Nat.mod_eq_of_lt fits] at beginEq
  rw [lengthEq, beginEq, Nat.mul_div_cancel _ (by decide)]

/-! ## Storing a block -/

/-- What is read depends on the bytes that are read. -/
theorem Content.read_congr {cm cm' : Content} {off len : Nat}
    (same : ∀ k < len, cm'.data (t.place (off + k)) = cm.data (t.place (off + k))) :
    cm'.read t off len = cm.read t off len := by
  unfold read
  apply List.map_congr_left
  intro k mem
  exact same k (List.mem_range.mp mem)

theorem Content.read_of_data {cm cm' : Content} {off len : Nat} (same : cm'.data = cm.data) :
    cm'.read t off len = cm.read t off len :=
  read_congr fun k _ => congrFun same (t.place (off + k))

/-- What filling pieces with zeros does to the content: bytes of pieces that were allocated
before are kept. -/
structure Content.Filled (t : Torrent) (cm cm' : Content) : Prop where
  pieceField : cm'.pieceField = cm.pieceField
  blockField : cm'.blockField = cm.blockField
  posField : ∀ i, cm.posField i = true → cm'.posField i = true
  kept : ∀ i < t.npieces, cm.posField i = true → ∀ a, t.InPiece i a →
    cm'.data (t.place a) = cm.data (t.place a)

theorem Content.Filled.rfl {cm : Content} : cm.Filled t cm :=
  ⟨Eq.refl _, Eq.refl _, fun _ set => set, fun _ _ _ _ _ => Eq.refl _⟩

theorem Content.Filled.trans {cm cm' cm'' : Content} (first : cm.Filled t cm')
    (second : cm'.Filled t cm'') : cm.Filled t cm'' where
  pieceField := second.pieceField.trans first.pieceField
  blockField := second.blockField.trans first.blockField
  posField i set := second.posField i (first.posField i set)
  kept i inside set a here :=
    (second.kept i inside (first.posField i set) a here).trans (first.kept i inside set a here)

variable {n n' : Net} {callers : List Fn} {p : Nat}

/-- What storing a block does to the content. -/
structure Content.Put (t : Torrent) (index begin : Nat) (buf : List UInt8) (cm cm' : Content) :
    Prop where
  free : cm.blockField index (begin / pieceBlocklen) = false
  unverified : cm.pieceField index = false
  pieceField : cm'.pieceField = cm.pieceField
  blockField : cm'.blockField = Function.update cm.blockField index
    (setBit (cm.blockField index) (begin / pieceBlocklen))
  posField : ∀ i, cm.posField i = true → cm'.posField i = true
  allocated : cm'.posField index = true
  written : cm'.readBlock t index begin buf.length = buf
  kept : ∀ i < t.npieces, cm.posField i = true → ∀ a, t.InPiece i a →
    (∀ k < buf.length, a ≠ index * t.pieceLength + begin + k) →
      cm'.data (t.place a) = cm.data (t.place a)

/-- The blocks that peers have sent: the peer, the piece, the offset and the data. -/
abbrev Deliveries := Nat → Nat → Nat → List UInt8 → Prop

/-- The peer has sent the data of a block that is stored and not tested yet. -/
structure Stored (t : Torrent) (sent : Deliveries) (cm : Content) (index p block : Nat)
    (data : List UInt8) : Prop where
  sent : sent p index (block * pieceBlocklen) data
  inside : index < t.npieces
  held : cm.readBlock t index (block * pieceBlocklen) data.length = data
  marked : cm.blockField index block = true
  allocated : cm.posField index = true
  asked : Asks t cm.blockField index (block * pieceBlocklen) data.length

/-- The peer has sent the data of a block of a failed attempt with these hashes. -/
structure Hashed (t : Torrent) (sent : Deliveries) (hashes : Nat → List UInt8)
    (index p block : Nat) (data : List UInt8) : Prop where
  sent : sent p index (block * pieceBlocklen) data
  inside : block < t.torrentPieceBlocks index
  small : block * pieceBlocklen < 2 ^ 32
  whole : data.length = t.torrentBlockSize index (t.torrentPieceBlocks index) block
  hashed : hashes block = t.sha1 data

/-- The log names the peer as the sender of the block. -/
def BlockLog.Marks (log : BlockLog) (p block : Nat) : Prop :=
  ∃ r ∈ log.records, r.mp = p ∧ r.downField block = true

/-- Whoever the log names has sent a block of which this is true. -/
def BlockLog.Tells (log : BlockLog) (told : Nat → Nat → List UInt8 → Prop) : Prop :=
  ∀ p block, log.Marks p block → ∃ data, told p block data

/-- The log keeps the hashes of a failed attempt. -/
def BlockLog.Failed (t : Torrent) (sent : Deliveries) (index : Nat) (log : BlockLog) : Prop :=
  ∃ hashes, log.hashes = some hashes ∧ log.Tells (Hashed t sent hashes index)

/-- The block that the peer has sent is named in the newest log or in one of a failed
attempt. -/
def Recorded (t : Torrent) (sent : Deliveries) (cm : Content) (index : Nat)
    (logs : List BlockLog) (p block : Nat) (data : List UInt8) : Prop :=
  (∃ log ∈ logs.head?, log.Marks p block ∧ Stored t sent cm index p block data) ∨
    ∃ log ∈ logs.tail, log.Marks p block ∧
      ∃ hashes, log.hashes = some hashes ∧ Hashed t sent hashes index p block data

/-- The logs of the piece tell what peers have sent, and everything that peers have sent for
the piece is told or punished. -/
structure Net.Accounted (t : Torrent) (sent : Deliveries) (index : Nat) (n : Net) : Prop where
  counted : n.busyField index = true →
    (n.piece index).ngot = n.cm.blocksGot index (t.torrentPieceBlocks index)
  logs : n.busyField index = true → ∃ log older, (n.piece index).logs = log :: older ∧
    log.Tells (Stored t sent n.cm index) ∧ ∀ bad ∈ older, bad.Failed t sent index
  covered : ∀ p begin data, sent p index begin data → n.cm.pieceField index = false →
    n.busyField index = true ∧ ((n.peer p).banned = true ∨
      ∃ block, begin = block * pieceBlocklen ∧
        Recorded t sent n.cm index (n.piece index).logs p block data)

variable {sent sent' : Deliveries} {cm cm' : Content} {data : List UInt8}

theorem Stored.mono (held : Stored t sent cm index p block data)
    (more : ∀ p index begin data, sent p index begin data → sent' p index begin data) :
    Stored t sent' cm index p block data :=
  ⟨more _ _ _ _ held.sent, held.inside, held.held, held.marked, held.allocated, held.asked⟩

theorem Hashed.mono {hashes : Nat → List UInt8} (held : Hashed t sent hashes index p block data)
    (more : ∀ p index begin data, sent p index begin data → sent' p index begin data) :
    Hashed t sent' hashes index p block data :=
  ⟨more _ _ _ _ held.sent, held.inside, held.small, held.whole, held.hashed⟩

theorem BlockLog.Failed.mono {log : BlockLog} (failed : log.Failed t sent index)
    (more : ∀ p index begin data, sent p index begin data → sent' p index begin data) :
    log.Failed t sent' index := by
  rcases failed with ⟨hashes, here, tells⟩
  refine ⟨hashes, here, fun p block marks => ?_⟩
  rcases tells p block marks with ⟨data, told⟩
  exact ⟨data, told.mono more⟩

/-- What was asked for is still asked for when blocks with large offsets are not stored. -/
theorem Asks.mono {stored' : Nat → Nat → Bool} (asks : Asks t stored index begin length)
    (small : ∀ block, 2 ^ 32 ≤ block * pieceBlocklen → stored index block = false →
      stored' index block = false) : Asks t stored' index begin length := by
  rcases asks with ⟨block, inside, beginEq, lengthEq, large⟩
  exact ⟨block, inside, beginEq, lengthEq, fun beyond => small block beyond (large beyond)⟩

/-- A stored block is told by another content that has it. -/
theorem Stored.of_same (held : Stored t sent cm index p block data)
    (read : cm'.readBlock t index (block * pieceBlocklen) data.length =
      cm.readBlock t index (block * pieceBlocklen) data.length)
    (marked : cm.blockField index block = true → cm'.blockField index block = true)
    (small : ∀ block, 2 ^ 32 ≤ block * pieceBlocklen → cm.blockField index block = false →
      cm'.blockField index block = false)
    (posField : cm.posField index = true → cm'.posField index = true) :
    Stored t sent cm' index p block data where
  sent := held.sent
  inside := held.inside
  held := read.trans held.held
  marked := marked held.marked
  allocated := posField held.allocated
  asked := held.asked.mono small

/-- The account of a piece of which neither the logs nor the stored blocks have changed. -/
theorem Net.Accounted.of_same (held : n.Accounted t sent index)
    (busy : n'.busyField index = n.busyField index)
    (piece : (n'.piece index).logs = (n.piece index).logs ∧
      (n'.piece index).ngot = (n.piece index).ngot)
    (stored : ∀ p block data, Stored t sent n.cm index p block data →
      Stored t sent' n'.cm index p block data)
    (more : ∀ p index begin data, sent p index begin data → sent' p index begin data)
    (others : ∀ p begin data, sent' p index begin data → sent p index begin data)
    (blockField : n'.cm.blockField index = n.cm.blockField index)
    (pieceField : n'.cm.pieceField index = n.cm.pieceField index)
    (banned : ∀ p begin data, sent' p index begin data → (n.peer p).banned = true →
      (n'.peer p).banned = true) : n'.Accounted t sent' index := by
  rcases piece with ⟨logs, ngot⟩
  constructor
  · rw [busy, ngot]
    unfold Content.blocksGot
    rw [blockField]
    exact held.counted
  · rw [busy, logs]
    intro set
    rcases held.logs set with ⟨log, older, here, tells, failed⟩
    refine ⟨log, older, here, fun p block marks => ?_, fun bad mem => (failed bad mem).mono more⟩
    rcases tells p block marks with ⟨data, told⟩
    exact ⟨data, stored p block data told⟩
  · rw [busy, logs, pieceField]
    intro p begin data was unverified
    rcases held.covered p begin data (others p begin data was) unverified with ⟨set, cover⟩
    refine ⟨set, cover.imp (banned p begin data was) ?_⟩
    rintro ⟨block, beginEq, ⟨log, mem, marks, told⟩ | ⟨log, mem, marks, hashes, here, told⟩⟩
    · exact ⟨block, beginEq, .inl ⟨log, mem, marks, stored p block data told⟩⟩
    · exact ⟨block, beginEq, .inr ⟨log, mem, marks, hashes, here, told.mono more⟩⟩

/-- A piece keeps its account where nothing that blame is built from changes.  A piece that is
allocated starts one, since nobody has sent anything for it. -/
theorem Net.Accounted.of_sameLogs (held : n.Accounted t sent index)
    (same : Net.SameLogs t n n')
    (banned : ∀ p, (n.peer p).banned = true → (n'.peer p).banned = true) :
    n'.Accounted t sent index := by
  have blockField : n'.cm.blockField index = n.cm.blockField index :=
    congrFun same.blockField index
  have pieceField : n'.cm.pieceField index = n.cm.pieceField index :=
    congrFun same.pieceField index
  rcases Bool.eq_false_or_eq_true (n.busyField index) with busy | free
  · rcases same.busy index busy with ⟨busy', logs, ngot⟩
    refine held.of_same (busy'.trans busy.symm) ⟨logs, ngot⟩ (fun p block data told => ?_)
      (fun _ _ _ _ was => was) (fun _ _ _ was => was) blockField pieceField fun p _ _ _ => banned p
    apply told.of_same (Content.read_of_data same.data) _ _ (same.posField index)
    · rw [blockField]
      exact id
    · rw [blockField]
      exact fun _ _ => id
  · have nothing : ∀ p begin data, sent p index begin data → n.cm.pieceField index = false →
        False := by
      intro p begin data was unverified
      exact Bool.false_ne_true
        (free.symm.trans (held.covered p begin data was unverified).1)
    constructor
    · intro busy
      rw [(same.fresh index free busy).2]
      unfold Content.blocksGot
      rw [same.blockField]
    · intro busy
      refine ⟨_, [], (same.fresh index free busy).1, ?_, by simp⟩
      rintro p block ⟨r, mem, -⟩
      cases mem
    · intro p begin data was unverified
      rw [pieceField] at unverified
      exact (nothing p begin data was unverified).elim

theorem Net.Accounted.of_follows {known : List Nat} (held : n.Accounted t sent index)
    (follows : Net.Follows t n known n') : n'.Accounted t sent index := by
  apply held.of_sameLogs follows.toSameLogs
  intro p banned
  rw [follows.banned]
  exact banned

/-! ## A block that comes -/

/-- The newest log names the sender of the block besides those it named before. -/
theorem pieceLogBlock_wp :
    (pieceLogBlock index p begin).wp whenReturns callers (fun _ n' => ∃ log older log',
      (n.piece index).logs = log :: older ∧
      n' = n.setPiece index { n.piece index with logs := log' :: older } ∧
      ∀ q block, log'.Marks q block ↔
        log.Marks q block ∨ (q = p ∧ block = begin / pieceBlocklen)) n := by
  unfold pieceLogBlock onFirstLog
  rw [wp_onPiece]
  split
  · trivial
  · rename_i log older logs
    refine ⟨log, older, _, logs, rfl, fun q block => ?_⟩
    rcases found : log.records.find? (fun r => decide (r.mp = p)) with _ | record
    · -- the first block of this peer
      have fresh : ∀ r ∈ log.records, r.mp ≠ p := by simpa using found
      have kept : log.records.eraseP (fun r => decide (r.mp = p)) = log.records :=
        List.eraseP_of_forall_not (by simpa using fresh)
      unfold BlockLog.Marks
      dsimp only
      rw [found, Option.getD_none, kept]
      simp only [List.mem_cons, exists_eq_or_imp, setBit, Function.update_apply]
      constructor
      · rintro (⟨rfl, marked⟩ | before)
        · right
          exact ⟨rfl, by simpa using marked⟩
        · exact .inl before
      · rintro (before | ⟨rfl, rfl⟩)
        · exact .inr before
        · exact .inl ⟨rfl, if_pos rfl⟩
    · have same : record.mp = p := by simpa using List.find?_some found
      rcases List.exists_of_eraseP (List.mem_of_find?_eq_some found)
        (p := fun r => decide (r.mp = p)) (by simpa using same) with
        ⟨first, before, after, earlier, firstSame, split, erased⟩
      have first_eq : first = record := by
        rw [split, List.find?_append, List.find?_eq_none.mpr earlier, Option.none_or,
          List.find?_cons_of_pos (p := fun r : LogRecord => decide (r.mp = p)) firstSame] at found
        exact Option.some.inj found
      subst first_eq
      unfold BlockLog.Marks
      dsimp only
      rw [found, Option.getD_some, erased, split]
      simp only [List.mem_cons, List.mem_append, exists_eq_or_imp, setBit,
        Function.update_apply]
      constructor
      · rintro (⟨rfl, marked⟩ | ⟨r, mem, here⟩)
        · split at marked
          · rename_i new
            exact .inr ⟨same, new⟩
          · exact .inl ⟨first, .inr (.inl rfl), rfl, marked⟩
        · left
          refine ⟨r, ?_, here⟩
          exact mem.imp_right .inr
      · rintro (⟨r, mem, here⟩ | ⟨rfl, rfl⟩)
        · rcases mem with left | rfl | right
          · exact .inr ⟨r, .inl left, here⟩
          · left
            refine ⟨here.1, ?_⟩
            split
            · rfl
            · exact here.2
          · exact .inr ⟨r, .inr right, here⟩
        · exact .inl ⟨same, if_pos rfl⟩

/-- A block is recorded, stored and counted, and nothing else happens. -/
structure Net.Stores (t : Torrent) (index p begin : Nat) (data : List UInt8) (n n' : Net) :
    Prop where
  put : n.cm.Put t index begin data n'.cm
  busyField : n'.busyField = n.busyField
  peer : n'.peer = n.peer
  peers : n'.peers = n.peers
  nextPeer : n'.nextPeer = n.nextPeer
  getlst : n'.getlst = n.getlst
  others : ∀ i, i ≠ index → n'.piece i = n.piece i
  piece : ∃ log older log', (n.piece index).logs = log :: older ∧
    n'.piece index =
      { n.piece index with logs := log' :: older, ngot := (n.piece index).ngot + 1 } ∧
    ∀ q block, log'.Marks q block ↔
      log.Marks q block ∨ (q = p ∧ block = begin / pieceBlocklen)

theorem Piece.Sound.mono {stored' : Nat → Nat → Bool} {pc : Piece}
    (sound : pc.Sound t stored index)
    (small : ∀ block, 2 ^ 32 ≤ block * pieceBlocklen → stored index block = false →
      stored' index block = false) : pc.Sound t stored' index where
  inside := sound.inside
  nblocks := sound.nblocks
  nextBlock := sound.nextBlock
  reqs req mem := (sound.reqs req mem).imp_right fun asks => asks.mono small
  egReqs egReqs block msg here found :=
    (sound.egReqs egReqs block msg here found).imp_right fun asks => asks.mono small

namespace Net.Stores

variable (stores : Net.Stores t index p begin data n n')

include stores

theorem allocated (i : Nat) : n'.Allocated i ↔ n.Allocated i := by
  unfold Net.Allocated
  by_cases same : i = index
  · rcases stores.piece with ⟨log, older, log', -, here, -⟩
    rw [same, here]
  · rw [stores.others i same]

/-- A block with an offset of 32 bits is stored, and none beyond. -/
theorem small (fits : begin < 2 ^ 32) (i block : Nat) (beyond : 2 ^ 32 ≤ block * pieceBlocklen)
    (free : n.cm.blockField i block = false) : n'.cm.blockField i block = false := by
  rw [stores.put.blockField, Function.update_apply]
  split
  · rename_i same
    subst same
    have other : block ≠ begin / pieceBlocklen := by
      unfold pieceBlocklen at *
      omega
    rw [setBit, Function.update_of_ne other]
    exact free
  · exact free

theorem sound (before : n.Sound t) (fits : begin < 2 ^ 32) : n'.Sound t := by
  have small := stores.small fits
  constructor
  · rw [stores.peers, stores.nextPeer]
    exact before.attached
  · rw [stores.getlst]
    intro i mem
    exact (stores.allocated i).mpr (before.listed i mem)
  · rw [stores.busyField, stores.put.pieceField]
    intro i alloc
    exact before.busy i ((stores.allocated i).mp alloc)
  · intro i alloc
    have held := (before.piece i ((stores.allocated i).mp alloc)).mono (small i)
    by_cases same : i = index
    · subst same
      rcases stores.piece with ⟨log, older, log', -, here, -⟩
      rw [here]
      exact ⟨held.inside, held.nblocks, held.nextBlock, held.reqs, held.egReqs⟩
    · rw [stores.others i same]
      exact held
  · rw [stores.peer]
    intro q req mem
    exact (before.peer q req mem).imp_right fun asks => asks.mono (small _)

/-- A block that is stored already stays as it is. -/
theorem kept (fits : begin = begin / pieceBlocklen * pieceBlocklen)
    (short : data.length ≤ pieceBlocklen) (inside : index < t.npieces)
    (within_ : begin + data.length ≤ (t.torrentPieceSize index).toNat) {i q block : Nat}
    {data' : List UInt8} (held : Stored t sent n.cm i q block data') :
    n'.cm.readBlock t i (block * pieceBlocklen) data'.length =
      n.cm.readBlock t i (block * pieceBlocklen) data'.length := by
  have asked := held.asked.fits
  apply Content.read_congr
  intro k small
  apply stores.put.kept i held.inside held.allocated
  · constructor
    · omega
    · omega
  · intro k' small' same
    by_cases here : i = index
    · subst here
      have other : block ≠ begin / pieceBlocklen := by
        rintro rfl
        exact Bool.false_ne_true (stores.put.free.symm.trans held.marked)
      unfold pieceBlocklen at *
      omega
    · apply t.piece_apart held.inside inside here (a := i * t.pieceLength +
        block * pieceBlocklen + k)
      · constructor
        · omega
        · omega
      · constructor
        · omega
        · omega

end Net.Stores

/-- One more block has been sent. -/
def Deliveries.add (sent : Deliveries) (p index begin : Nat) (data : List UInt8) : Deliveries :=
  fun q i begin' data' =>
    sent q i begin' data' ∨ (q = p ∧ i = index ∧ begin' = begin ∧ data' = data)

/-- Every piece keeps its account when a block comes. -/
theorem Net.Stores.accounted (stores : Net.Stores t index p begin data n n')
    (inside : index < t.npieces) (asks : Asks t n.cm.blockField index begin data.length)
    (busy : n.busyField index = true) (before : ∀ i, n.Accounted t sent i) (i : Nat) :
    n'.Accounted t (sent.add p index begin data) i := by
  rcases asks.fits with ⟨start, fits, short, within_, blockInside⟩
  have more : ∀ q i begin' data', sent q i begin' data' →
      sent.add p index begin data q i begin' data' := fun _ _ _ _ => .inl
  have grows : ∀ i block, n.cm.blockField i block = true → n'.cm.blockField i block = true := by
    intro i block set
    rw [stores.put.blockField, Function.update_apply]
    split
    · rename_i same
      subst same
      rw [setBit, Function.update_apply]
      split
      · rfl
      · exact set
    · exact set
  have told : ∀ i q block data', Stored t sent n.cm i q block data' →
      Stored t (sent.add p index begin data) n'.cm i q block data' := by
    intro i q block data' held
    have kept := stores.kept start short inside within_ held
    exact (held.of_same kept (grows i block) (stores.small fits i) (stores.put.posField i)).mono
      more
  by_cases same : i = index
  · subst same
    rcases stores.piece with ⟨log, older, log', logs, here, marks⟩
    have own := before i
    -- the block that has just come
    have new : Stored t (sent.add p i begin data) n'.cm i p (begin / pieceBlocklen) data := by
      constructor
      · exact .inr ⟨rfl, rfl, start.symm, rfl⟩
      · exact inside
      · rw [← start]
        exact stores.put.written
      · rw [stores.put.blockField, Function.update_self]
        exact Function.update_self ..
      · exact stores.put.allocated
      · rw [← start]
        exact asks.mono (stores.small fits i)
    constructor
    · intro _
      rw [here]
      unfold Content.blocksGot
      rw [stores.put.blockField, Function.update_self, setBit,
        Count.countP_update List.nodup_range (List.mem_range.mpr blockInside) stores.put.free]
      exact congrArg (· + 1) (own.counted busy)
    · intro _
      rcases own.logs busy with ⟨log₀, older₀, logs₀, tells, failed⟩
      rw [logs] at logs₀
      cases logs₀
      refine ⟨log', older, by rw [here], ?_, fun bad mem => (failed bad mem).mono more⟩
      intro q block marked
      rcases (marks q block).mp marked with old | ⟨rfl, rfl⟩
      · rcases tells q block old with ⟨data', held⟩
        exact ⟨data', told i q block data' held⟩
      · exact ⟨data, new⟩
    · intro q begin' data' was unverified
      rw [stores.busyField, stores.peer, here]
      refine ⟨busy, ?_⟩
      rcases was with was | ⟨rfl, -, rfl, rfl⟩
      · rw [stores.put.pieceField] at unverified
        apply (own.covered q begin' data' was unverified).2.imp_right
        rw [logs]
        rintro ⟨block, beginEq, ⟨first, head, marked, held⟩ | ⟨bad, mem, marked, hashes, has, held⟩⟩
        · cases head
          refine ⟨block, beginEq, .inl ⟨log', rfl, (marks q block).mpr (.inl marked), ?_⟩⟩
          exact told i q block data' held
        · exact ⟨block, beginEq, .inr ⟨bad, mem, marked, hashes, has, held.mono more⟩⟩
      · right
        exact ⟨begin' / pieceBlocklen, start, .inl ⟨log', rfl, (marks q _).mpr (.inr ⟨rfl, rfl⟩),
          new⟩⟩
  · have other : ∀ q begin' data', sent.add p index begin data q i begin' data' →
        sent q i begin' data' := by
      rintro q begin' data' (was | ⟨-, here, -⟩)
      · exact was
      · exact absurd here same
    apply (before i).of_same
    · rw [stores.busyField]
    · rw [stores.others i same]
      exact ⟨rfl, rfl⟩
    · exact told i
    · exact more
    · exact other
    · rw [stores.put.blockField, Function.update_of_ne same]
    · rw [stores.put.pieceField]
    · rw [stores.peer]
      exact fun _ _ _ _ banned => banned

end Btpd.Download
