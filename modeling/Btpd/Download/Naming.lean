import Btpd.Download.Invariant
import Mathlib

/-!
# The blocks that requests name

Every request that is out names a block of its piece by its offset and its length.  The
routines that assign and take back requests keep it so, and leave alone what the blame for a
bad piece is built from: the content, the logs of the blocks and the bans.
-/

namespace Btpd.Download

open Prog

/-- The offset and the length name a block of the piece.  A block whose offset does not fit
in 32 bits is named only while it is not stored. -/
def Asks (t : Torrent) (stored : Nat → Nat → Bool) (index begin length : Nat) : Prop :=
  ∃ block < t.torrentPieceBlocks index,
    begin = block * pieceBlocklen % 2 ^ 32 ∧
    length = t.torrentBlockSize index (t.torrentPieceBlocks index) block ∧
    (2 ^ 32 ≤ block * pieceBlocklen → stored index block = false)

/-- The message asks for a block of the piece. -/
def ReqMsg.Names (t : Torrent) (stored : Nat → Nat → Bool) (index : Nat) (msg : ReqMsg) : Prop :=
  msg.index = index ∧ Asks t stored index msg.begin msg.length

theorem ReqMsg.Names.own {t : Torrent} {stored : Nat → Nat → Bool} {index : Nat} {msg : ReqMsg}
    (names : msg.Names t stored index) : msg.Names t stored msg.index := by
  refine ⟨rfl, ?_⟩
  rw [names.1]
  exact names.2

/-- The requests for a piece name blocks of it, and so does the next one. -/
structure Piece.Sound (t : Torrent) (stored : Nat → Nat → Bool) (index : Nat) (pc : Piece) :
    Prop where
  inside : index < t.npieces
  nblocks : pc.nblocks = t.torrentPieceBlocks index
  nextBlock : pc.nextBlock < pc.nblocks
  reqs : ∀ req ∈ pc.reqs, req.msg.Names t stored index
  egReqs : ∀ egReqs block msg, pc.egReqs = some egReqs → egReqs block = some msg →
    msg.Names t stored index

/-- A `struct piece` was made for the index. -/
def Net.Allocated (n : Net) (index : Nat) : Prop := (n.piece index).nblocks ≠ 0

/-- Whatever names a block names one that there is. -/
structure Net.Sound (t : Torrent) (n : Net) : Prop where
  attached : ∀ p ∈ n.peers, p < n.nextPeer
  listed : ∀ i ∈ n.getlst, n.Allocated i
  busy : ∀ i, n.Allocated i → n.busyField i = true ∨ n.cm.pieceField i = true
  piece : ∀ i, n.Allocated i → (n.piece i).Sound t n.cm.blockField i
  peer : ∀ p, ∀ req ∈ (n.peer p).myReqs, req.msg.Names t n.cm.blockField req.msg.index

/-- What blame is built from is as it was before, and a piece that was allocated since has
one log, which is empty. -/
structure Net.SameLogs (t : Torrent) (b n : Net) : Prop where
  data : n.cm.data = b.cm.data
  blockField : n.cm.blockField = b.cm.blockField
  pieceField : n.cm.pieceField = b.cm.pieceField
  posField : ∀ i, b.cm.posField i = true → n.cm.posField i = true
  nextPeer : n.nextPeer = b.nextPeer
  busy : ∀ i, b.busyField i = true → n.busyField i = true ∧
    (n.piece i).logs = (b.piece i).logs ∧ (n.piece i).ngot = (b.piece i).ngot
  fresh : ∀ i, b.busyField i = false → n.busyField i = true →
    (n.piece i).logs = [⟨[], none⟩] ∧
      (n.piece i).ngot = b.cm.blocksGot i (t.torrentPieceBlocks i)

/-- The state is sound, what blame is built from is as in `b`, nobody was banned since, and
the known pieces are allocated. -/
structure Net.Follows (t : Torrent) (b : Net) (known : List Nat) (n : Net) : Prop extends
    Net.SameLogs t b n where
  sound : n.Sound t
  banned : ∀ p, (n.peer p).banned = (b.peer p).banned
  known : ∀ i ∈ known, n.Allocated i

variable {t : Torrent} {b n n' n'' : Net} {callers : List Fn} {p index : Nat}
  {known known' : List Nat}

namespace Net

theorem SameLogs.rfl : Net.SameLogs t n n where
  data := Eq.refl _
  blockField := Eq.refl _
  pieceField := Eq.refl _
  posField _ set := set
  nextPeer := Eq.refl _
  busy _ busy := ⟨busy, Eq.refl _, Eq.refl _⟩
  fresh _ free busy := absurd (free.symm.trans busy) Bool.false_ne_true

theorem SameLogs.trans (first : Net.SameLogs t n n') (second : Net.SameLogs t n' n'') :
    Net.SameLogs t n n'' where
  data := second.data.trans first.data
  blockField := second.blockField.trans first.blockField
  pieceField := second.pieceField.trans first.pieceField
  posField i set := second.posField i (first.posField i set)
  nextPeer := second.nextPeer.trans first.nextPeer
  busy i busy := by
    rcases first.busy i busy with ⟨busy', logs, ngot⟩
    rcases second.busy i busy' with ⟨busy'', logs', ngot'⟩
    exact ⟨busy'', logs'.trans logs, ngot'.trans ngot⟩
  fresh i free busy := by
    rcases Bool.eq_false_or_eq_true (n'.busyField i) with busy' | free'
    · rcases first.fresh i free busy' with ⟨logs, ngot⟩
      rcases second.busy i busy' with ⟨-, logs', ngot'⟩
      exact ⟨logs'.trans logs, ngot'.trans ngot⟩
    · rcases second.fresh i free' busy with ⟨logs, ngot⟩
      refine ⟨logs, ngot.trans ?_⟩
      unfold Content.blocksGot
      rw [first.blockField]

theorem Follows.refl (sound : n.Sound t) : Net.Follows t n [] n :=
  ⟨.rfl, sound, fun _ => rfl, fun _ mem => absurd mem List.not_mem_nil⟩

/-- Pieces that are known to be allocated are remembered or forgotten. -/
theorem Follows.learn (held : Net.Follows t b known n) (alloc : ∀ i ∈ known', n.Allocated i) :
    Net.Follows t b known' n :=
  ⟨held.toSameLogs, held.sound, held.banned, alloc⟩

end Net

/-- A request is for one piece, and what else is done to the piece leaves its logs alone. -/
def Piece.Tended (t : Torrent) (index : Nat) (pc pc' : Piece) : Prop :=
  pc'.logs = pc.logs ∧ pc'.ngot = pc.ngot ∧ pc'.nblocks = pc.nblocks ∧
    ∀ stored, pc.Sound t stored index → pc'.Sound t stored index

/-- No request is added to the peer, and it is banned if it was before. -/
def Peer.Sheds (peer peer' : Peer) : Prop :=
  peer'.banned = peer.banned ∧ ∀ req ∈ peer'.myReqs, req ∈ peer.myReqs

theorem Peer.Sheds.of_core {peer peer' peer'' : Peer} (same : peer'.core = peer'')
    (fewer : peer.Sheds peer'') : peer.Sheds peer' := by
  subst same
  exact fewer

theorem Peer.Sheds.rfl {peer : Peer} : peer.Sheds peer := ⟨Eq.refl _, fun _ mem => mem⟩

/-! ## Changes of one record -/

theorem Net.Sound.setPeer {peer : Peer} (sound : n.Sound t)
    (names : ∀ req ∈ peer.myReqs, req.msg.Names t n.cm.blockField req.msg.index) :
    (n.setPeer p peer).Sound t := by
  refine ⟨sound.attached, sound.listed, sound.busy, sound.piece, ?_⟩
  intro q
  rw [Net.setPeer_peer]
  split
  · exact names
  · exact sound.peer q

theorem Net.Follows.setPeer {peer : Peer} (held : Net.Follows t b known n)
    (banned : peer.banned = (n.peer p).banned)
    (names : ∀ req ∈ peer.myReqs, req.msg.Names t n.cm.blockField req.msg.index) :
    Net.Follows t b known (n.setPeer p peer) := by
  constructor
  · exact ⟨held.data, held.blockField, held.pieceField, held.posField, held.nextPeer, held.busy,
      held.fresh⟩
  · exact held.sound.setPeer names
  · intro q
    rw [Net.setPeer_peer]
    split
    · rename_i same
      rw [banned, same]
      exact held.banned p
    · exact held.banned q
  · exact held.known

theorem Net.Follows.fewer {peer : Peer} (held : Net.Follows t b known n)
    (fewer : (n.peer p).Sheds peer) : Net.Follows t b known (n.setPeer p peer) :=
  held.setPeer fewer.1 fun req mem => held.sound.peer p req (fewer.2 req mem)

theorem Net.allocated_setPiece {pc : Piece} (nblocks : pc.nblocks = (n.piece index).nblocks)
    (i : Nat) : (n.setPiece index pc).Allocated i ↔ n.Allocated i := by
  unfold Net.Allocated
  rw [Net.setPiece_piece]
  split
  · rename_i same
    rw [nblocks, same]
  · rfl

theorem Net.Sound.setPiece {pc : Piece} (held : n.Sound t)
    (nblocks : pc.nblocks = (n.piece index).nblocks)
    (sound : n.Allocated index → pc.Sound t n.cm.blockField index) :
    (n.setPiece index pc).Sound t := by
  have allocated := Net.allocated_setPiece (n := n) nblocks
  constructor
  · exact held.attached
  · intro i mem
    exact (allocated i).mpr (held.listed i mem)
  · intro i alloc
    exact held.busy i ((allocated i).mp alloc)
  · intro i alloc
    have alloc' := (allocated i).mp alloc
    rw [Net.setPiece_piece]
    split
    · rename_i same
      subst same
      exact sound alloc'
    · exact held.piece i alloc'
  · exact held.peer

theorem Net.Follows.setPiece {pc : Piece} (held : Net.Follows t b known n)
    (nblocks : pc.nblocks = (n.piece index).nblocks)
    (logs : pc.logs = (n.piece index).logs) (ngot : pc.ngot = (n.piece index).ngot)
    (sound : n.Allocated index → pc.Sound t n.cm.blockField index) :
    Net.Follows t b known (n.setPiece index pc) := by
  have kept : ∀ i, ((n.setPiece index pc).piece i).logs = (n.piece i).logs ∧
      ((n.setPiece index pc).piece i).ngot = (n.piece i).ngot := by
    intro i
    rw [Net.setPiece_piece]
    split
    · rename_i same
      rw [logs, ngot, same]
      exact ⟨rfl, rfl⟩
    · exact ⟨rfl, rfl⟩
  constructor
  · refine ⟨held.data, held.blockField, held.pieceField, held.posField, held.nextPeer, ?_, ?_⟩
    · intro i busy
      rw [(kept i).1, (kept i).2]
      exact held.busy i busy
    · intro i free busy
      rw [(kept i).1, (kept i).2]
      exact held.fresh i free busy
  · exact held.sound.setPiece nblocks sound
  · exact held.banned
  · intro i mem
    exact (Net.allocated_setPiece nblocks i).mpr (held.known i mem)

theorem Net.Follows.tended {pc : Piece} (held : Net.Follows t b known n)
    (tended : (n.piece index).Tended t index pc) :
    Net.Follows t b known (n.setPiece index pc) :=
  held.setPiece tended.2.2.1 tended.1 tended.2.1 fun alloc =>
    tended.2.2.2 _ (held.sound.piece index alloc)

/-- What neither the logs nor the requests depend on. -/
theorem Net.Follows.same (held : Net.Follows t b known n)
    (cm : n'.cm.data = n.cm.data ∧ n'.cm.blockField = n.cm.blockField ∧
      n'.cm.pieceField = n.cm.pieceField ∧ n'.cm.posField = n.cm.posField)
    (peers : n'.nextPeer = n.nextPeer ∧ n'.peer = n.peer ∧ ∀ q ∈ n'.peers, q ∈ n.peers)
    (pieces : n'.busyField = n.busyField ∧ n'.piece = n.piece ∧ n'.getlst = n.getlst) :
    Net.Follows t b known n' := by
  rcases cm with ⟨data, blockField, pieceField, posField⟩
  rcases peers with ⟨nextPeer, peer, peers⟩
  rcases pieces with ⟨busyField, piece, getlst⟩
  have allocated : ∀ i, n'.Allocated i ↔ n.Allocated i := by
    intro i
    unfold Net.Allocated
    rw [piece]
  constructor
  · constructor
    · rw [data]
      exact held.data
    · rw [blockField]
      exact held.blockField
    · rw [pieceField]
      exact held.pieceField
    · rw [posField]
      exact held.posField
    · rw [nextPeer]
      exact held.nextPeer
    · rw [busyField, piece]
      exact held.busy
    · rw [busyField, piece]
      exact held.fresh
  · constructor
    · intro q mem
      rw [nextPeer]
      exact held.sound.attached q (peers q mem)
    · intro i mem
      rw [getlst] at mem
      exact (allocated i).mpr (held.sound.listed i mem)
    · intro i alloc
      rw [busyField, pieceField]
      exact held.sound.busy i ((allocated i).mp alloc)
    · intro i alloc
      rw [piece, blockField]
      exact held.sound.piece i ((allocated i).mp alloc)
    · rw [peer, blockField]
      exact held.sound.peer
  · rw [peer]
    exact held.banned
  · intro i mem
    exact (allocated i).mpr (held.known i mem)

/-! ## Routines of one peer or one piece -/

section Routines

variable {α : Type}

theorem keeps_onPeer_sheds {f : Peer → Except Fault Peer}
    (fewer : ∀ peer, Returns (f peer) peer.Sheds) :
    Keeps whenReturns (Net.Follows t b known) (onPeer p f) := by
  intro callers n held
  rw [wp_onPeer]
  exact ends_mono (fewer _) fun _ fewer => held.fewer fewer

theorem keeps_onPiece_tended {f : Piece → Except Fault Piece}
    (tended : ∀ pc, Returns (f pc) (pc.Tended t index)) :
    Keeps whenReturns (Net.Follows t b known) (onPiece index f) := by
  intro callers n held
  rw [wp_onPiece]
  exact ends_mono (tended _) fun _ tended => held.tended tended

theorem keeps_peerUnwant_follows :
    Keeps whenReturns (Net.Follows t b known) (peerUnwant p index) := by
  apply keeps_onPeer_sheds
  intro peer
  exact ends_mono (Returns.of_ends Peer.unwant_core) fun _ same => .of_core same.2 .rfl

/-- The counts of a piece and its marks of busy blocks do not matter. -/
theorem keeps_onPiece_counts {f : Piece → Piece}
    (same : ∀ pc, (f pc).logs = pc.logs ∧ (f pc).ngot = pc.ngot ∧ (f pc).nblocks = pc.nblocks ∧
      (f pc).nextBlock = pc.nextBlock ∧ (f pc).reqs = pc.reqs ∧ (f pc).egReqs = pc.egReqs) :
    Keeps whenReturns (Net.Follows t b known) (onPiece index fun pc => .ok (f pc)) := by
  apply keeps_onPiece_tended
  intro pc
  rcases same pc with ⟨logs, ngot, nblocks, nextBlock, reqs, egReqs⟩
  refine ⟨logs, ngot, nblocks, fun stored sound => ?_⟩
  constructor
  · exact sound.inside
  · rw [nblocks]
    exact sound.nblocks
  · rw [nblocks, nextBlock]
    exact sound.nextBlock
  · rw [reqs]
    exact sound.reqs
  · rw [egReqs]
    exact sound.egReqs

theorem Piece.Sound.incNextBlock {stored : Nat → Nat → Bool} {pc : Piece}
    (sound : pc.Sound t stored index) : pc.incNextBlock.Sound t stored index :=
  ⟨sound.inside, sound.nblocks, Nat.mod_lt _ (Nat.zero_lt_of_lt sound.nextBlock), sound.reqs,
    sound.egReqs⟩

end Routines

/-! ## Requests -/

theorem Piece.Tended.trans {pc pc' pc'' : Piece} (first : pc.Tended t index pc')
    (second : pc'.Tended t index pc'') : pc.Tended t index pc'' :=
  ⟨second.1.trans first.1, second.2.1.trans first.2.1, second.2.2.1.trans first.2.2.1,
    fun stored sound => second.2.2.2 stored (first.2.2.2 stored sound)⟩

/-- What a request that is linked to a piece leaves alone, whatever the mode. -/
theorem Piece.addRequest_same (pc : Piece) (endgame : Bool) (req : BlockRequest) :
    (pc.addRequest endgame req).nblocks = pc.nblocks ∧
      (pc.addRequest endgame req).logs = pc.logs ∧ (pc.addRequest endgame req).ngot = pc.ngot ∧
      (pc.addRequest endgame req).nextBlock = pc.nextBlock ∧
      (pc.addRequest endgame req).egReqs = pc.egReqs ∧
      (pc.addRequest endgame req).reqs = pc.reqs ++ [req] := by
  unfold addRequest
  split
  · exact ⟨rfl, rfl, rfl, rfl, rfl, rfl⟩
  · exact ⟨rfl, rfl, rfl, rfl, rfl, rfl⟩

/-- A request that names a block of the piece is linked to it. -/
theorem Net.Follows.addRequest {req : BlockRequest} (held : Net.Follows t b known n)
    (names : req.msg.Names t n.cm.blockField index) :
    Net.Follows t b known (n.addRequest index req) := by
  have linked : Net.Follows t b known
      (n.setPiece index ((n.piece index).addRequest n.endgame req)) := by
    rcases (n.piece index).addRequest_same n.endgame req with
      ⟨nblocks, logs, ngot, nextBlock, egReqs, reqs⟩
    apply held.setPiece nblocks logs ngot
    intro alloc
    have sound := held.sound.piece index alloc
    constructor
    · exact sound.inside
    · rw [nblocks]
      exact sound.nblocks
    · rw [nblocks, nextBlock]
      exact sound.nextBlock
    · rw [reqs]
      intro other mem
      rcases List.mem_append.mp mem with before | new
      · exact sound.reqs other before
      · rw [List.mem_singleton.mp new]
        exact names
    · rw [egReqs]
      exact sound.egReqs
  exact linked.same ⟨rfl, rfl, rfl, rfl⟩ ⟨rfl, rfl, fun _ mem => mem⟩ ⟨rfl, rfl, rfl⟩

/-- A piece that is allocated has one log, which is empty. -/
theorem Net.Follows.addPiece (held : Net.Follows t b known n) (inside : index < t.npieces)
    (free : n.busyField index = false)
    (room : n.cm.blocksGot index (t.torrentPieceBlocks index) < t.torrentPieceBlocks index) :
    Net.Follows t b (index :: known) (n.addPiece index
      { nreqs := 0, nblocks := t.torrentPieceBlocks index
        ngot := n.cm.blocksGot index (t.torrentPieceBlocks index), nbusy := 0, nextBlock := 0
        egReqs := none, reqs := [], logs := [⟨[], none⟩], downField := fun _ => false }) := by
  generalize made : ({
    nreqs := 0, nblocks := t.torrentPieceBlocks index
    ngot := n.cm.blocksGot index (t.torrentPieceBlocks index), nbusy := 0, nextBlock := 0
    egReqs := none, reqs := [], logs := [⟨[], none⟩], downField := fun _ => false } : Piece) = pc
  have piece : ∀ i, (n.addPiece index pc).piece i = if i = index then pc else n.piece i :=
    fun i => Net.setPiece_piece n index pc i
  have busy : ∀ i, (n.addPiece index pc).busyField i = if i = index then true else n.busyField i :=
    fun i => Function.update_apply n.busyField index true i
  have here : (n.addPiece index pc).Allocated index := by
    unfold Net.Allocated
    rw [piece, if_pos rfl, ← made]
    exact Nat.ne_of_gt (Nat.zero_lt_of_lt room)
  have others : ∀ i, i ≠ index → ((n.addPiece index pc).Allocated i ↔ n.Allocated i) := by
    intro i other
    unfold Net.Allocated
    rw [piece, if_neg other]
  have grown : ∀ i, n.Allocated i → (n.addPiece index pc).Allocated i := by
    intro i alloc
    by_cases same : i = index
    · rw [same]
      exact here
    · exact (others i same).mpr alloc
  constructor
  · refine ⟨held.data, held.blockField, held.pieceField, held.posField, held.nextPeer, ?_, ?_⟩
    · intro i set
      have before := held.busy i set
      have other : i ≠ index := by
        rintro rfl
        exact Bool.false_ne_true (free.symm.trans before.1)
      rw [busy, piece, if_neg other, if_neg other]
      exact before
    · intro i unset set
      rw [busy] at set
      rw [piece]
      split at set
      · rename_i same
        subst same
        rw [if_pos rfl, ← made]
        refine ⟨rfl, ?_⟩
        unfold Content.blocksGot
        rw [held.blockField]
      · rename_i other
        rw [if_neg other]
        exact held.fresh i unset set
  · constructor
    · exact held.sound.attached
    · intro i mem
      rcases List.mem_append.mp mem with before | new
      · exact grown i (held.sound.listed i before)
      · rw [List.mem_singleton.mp new]
        exact here
    · intro i alloc
      rw [busy]
      split
      · exact .inl rfl
      · rename_i other
        exact held.sound.busy i ((others i other).mp alloc)
    · intro i alloc
      rw [piece]
      split
      · rename_i same
        subst same
        rw [← made]
        exact ⟨inside, rfl, Nat.zero_lt_of_lt room, by simp, by simp⟩
      · rename_i other
        exact held.sound.piece i ((others i other).mp alloc)
    · exact held.sound.peer
  · exact held.banned
  · intro i mem
    rcases List.mem_cons.mp mem with rfl | before
    · exact here
    · exact grown i (held.known i before)

end Btpd.Download
