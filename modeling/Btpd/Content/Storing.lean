import Btpd.Content.Stopping

/-!
# Blocks that arrive

What `cm_put_bytes` does: it fills pieces with zeros that have not been allocated, and
writes the block.  Whether it fails or not, it touches no place of a piece that has been
allocated but those of the block.
-/

namespace Btpd.Content

open Prog
open Download (Torrent pieceBlocklen setBit)

variable {t : Nat → Torrent} {n : Nat} {s : Contents} {x x' x'' : Item}
  {callers : List Fn} {k : Contract Contents Fn CmFault} {piece start i : Nat}
  {buf : List UInt8}

/-- The places of the pieces that have not been allocated. -/
def Vacant (t : Torrent) (x : Item) (o : Nat) : Prop :=
  ∃ j < t.npieces, x.cm.posField j = false ∧ InPiece t j o

/-- Bytes have been written at some places, and pieces have been filled with zeros,
perhaps not to the end. -/
structure Wrote (t : Torrent) (P : Nat → Prop) (x x' : Item) : Prop where
  sound : x'.disk.Sound t.files
  outside : x.disk.Outside t.files P x'.disk
  pos : ∀ j, x.cm.posField j = true → x'.cm.posField j = true
  filled : ∀ j, x'.cm.filled j = x.cm.filled j ∨
    x.cm.posField j = false ∧ x'.cm.filled j = x.cm.filled j + 1
  eq : x' = { x with
    disk := x'.disk
    cm := { x.cm with
      posField := x'.cm.posField
      filled := x'.cm.filled } }

/-- The pieces that have been filled with zeros have been marked. -/
structure Filled (t : Torrent) (x x' : Item) : Prop extends Wrote t (Vacant t x) x x' where
  clean : ∀ j, x'.cm.posField j = false → x'.cm.filled j = x.cm.filled j

theorem Filled.refl {t : Torrent} (sound : x.disk.Sound t.files) : Filled t x x :=
  ⟨⟨sound, .refl, fun _ pos => pos, fun _ => .inl rfl, rfl⟩, fun _ _ => rfl⟩

theorem Filled.vacant {t : Torrent} (filled : Filled t x x') {o : Nat} (vacant : Vacant t x' o) :
    Vacant t x o := by
  obtain ⟨j, lt, clear, inside⟩ := vacant
  refine ⟨j, lt, ?_, inside⟩
  exact (Bool.not_eq_true _).mp fun pos => by
    rw [filled.pos j pos] at clear
    cases clear

theorem Filled.wrote {t : Torrent} {P : Nat → Prop} (first : Filled t x x')
    (second : Wrote t P x' x'') : Wrote t (fun o => Vacant t x o ∨ P o) x x'' where
  sound := second.sound
  outside := first.outside.trans second.outside
  pos j pos := second.pos j (first.pos j pos)
  filled j := by
    rcases second.filled j with same | ⟨clear, more⟩
    · rw [same]
      exact first.filled j
    · refine .inr ⟨?_, by rw [more, first.clean j clear]⟩
      exact (Bool.not_eq_true _).mp fun pos => by
        rw [first.pos j pos] at clear
        cases clear
  eq := by rw [second.eq, first.eq]

theorem Wrote.mono {t : Torrent} {P Q : Nat → Prop} (wrote : Wrote t P x x')
    (more : ∀ o, P o → Q o) : Wrote t Q x x' :=
  ⟨wrote.sound, wrote.outside.mono more, wrote.pos, wrote.filled, wrote.eq⟩

theorem Filled.trans {t : Torrent} (first : Filled t x x') (second : Filled t x' x'') :
    Filled t x x'' where
  toWrote := (first.wrote second.toWrote).mono fun _ place =>
    place.elim id first.vacant
  clean j clear := by
    have before : x'.cm.posField j = false :=
      (Bool.not_eq_true _).mp fun pos => by
        rw [second.pos j pos] at clear
        cases clear
    rw [second.clean j clear, first.clean j before]

/-- A torrent to which blocks can be written. -/
structure Writable (t : Torrent) (x : Item) : Prop extends Usable t x where
  live : x.cm.ptr .wrs = .live

theorem Wrote.writable {t : Torrent} {P : Nat → Prop} (wrote : Wrote t P x x')
    (writable : Writable t x) : Writable t x' := by
  rw [wrote.eq]
  exact ⟨⟨wrote.sound, writable.error, writable.state, writable.rds, writable.wrs⟩, writable.live⟩

/-- Bytes have been written at some places, and then an error has been met. -/
def Broken (t : Torrent) (P : Nat → Prop) (x x' : Item) : Prop :=
  ∃ x₁, Wrote t P x x₁ ∧ Failed t x₁ x'

theorem fillPiece_wp (sized : Sized (t n)) (writable : Writable (t n) x)
    (lt : start < (t n).npieces) (clear : x.cm.posField start = false)
    (missing : x.cm.pieceField start = false) (open_ : Contract.Open k) :
    (fillPiece t n start).wp k callers (On n s fun err x' =>
      (err = none → Filled (t n) x x' ∧ x'.cm.posField start = true) ∧
        (err ≠ none → Broken (t n) (Vacant (t n) x) x x')) (s.setItem n x) := by
  have inside : (t n).pieceLength * start + pieceSize (t n) start ≤ (t n).files.sum := by
    rw [Nat.mul_comm]
    exact sized.piece_le lt
  unfold fillPiece
  rw [wp_bind, wp_content, Contents.setItem_self, wp_bind, wp_assert, if_pos missing]
  dsimp only
  rw [wp_bind, wp_setContent]
  refine on_seq (useStream_wp writable.live
    (zeroLoop_outside writable.sound (Nat.le_refl _) inside)) ?_
  rintro err x₁ ⟨d, rfl, sound, outside⟩
  have vacant : x.disk.Outside (t n).files (Vacant (t n) x) d := by
    refine outside.mono fun o within => ⟨start, lt, clear, ?_⟩
    rw [Nat.mul_comm] at within
    exact within
  have wrote : Wrote (t n) (Vacant (t n) x) x { x with
      disk := d
      cm.filled := Function.update x.cm.filled start (x.cm.filled start + 1) } := by
    refine ⟨sound, vacant, fun _ pos => pos, fun j => ?_, rfl⟩
    by_cases same : j = start
    · subst same
      exact .inr ⟨clear, Function.update_self ..⟩
    · exact .inl (Function.update_of_ne same ..)
  cases err with
  | some e =>
      dsimp only
      refine on_seq (fails_wp (wrote.writable writable).toUsable open_) ?_
      rintro - x₂ failed
      exact wp_pure.mpr ⟨x₂, rfl, nofun, fun _ => ⟨_, wrote, failed⟩⟩
  | none =>
      dsimp only
      rw [wp_bind, wp_setContent, wp_pure]
      refine ⟨_, rfl, fun _ => ⟨⟨⟨sound, vacant, fun j pos => ?_, wrote.filled, rfl⟩,
        fun j unset => ?_⟩, Function.update_self ..⟩, fun some => absurd rfl some⟩
      · by_cases same : j = start
        · rw [same]
          exact Function.update_self ..
        · exact (Function.update_of_ne same ..).trans pos
      · by_cases same : j = start
        · subst same
          have set : setBit x.cm.posField j j = true := Function.update_self ..
          cases set.symm.trans unset
        · exact Function.update_of_ne same ..

theorem fillTurn_wp (sized : Sized (t n)) (writable : Writable (t n) x)
    (lt : start < (t n).npieces)
    (held : x.cm.pieceField start = true → x.cm.posField start = true)
    (open_ : Contract.Open k) :
    (fillTurn t n start).wp k callers (On n s fun err x' =>
      (err = none → Filled (t n) x x' ∧ x'.cm.posField start = true) ∧
        (err ≠ none → Broken (t n) (Vacant (t n) x) x x')) (s.setItem n x) := by
  unfold fillTurn
  rw [wp_bind, wp_content, Contents.setItem_self, wp_ite]
  cases clear : x.cm.posField start with
  | true =>
      rw [if_pos rfl]
      exact wp_pure.mpr ⟨x, rfl, fun _ => ⟨.refl writable.sound, clear⟩,
        fun some => absurd rfl some⟩
  | false =>
      rw [if_neg (by simp)]
      have missing : x.cm.pieceField start = false :=
        (Bool.not_eq_true _).mp fun set => by
          rw [held set] at clear
          cases clear
      exact fillPiece_wp sized writable lt clear missing open_

theorem fillLoop_wp {pieces : List Nat} (sized : Sized (t n)) (writable : Writable (t n) x)
    (lt : ∀ j ∈ pieces, j < (t n).npieces)
    (held : ∀ j < (t n).npieces, x.cm.pieceField j = true → x.cm.posField j = true)
    (open_ : Contract.Open k) :
    (fillLoop t n pieces).wp k callers (On n s fun err x' =>
      (err = none → Filled (t n) x x' ∧ ∀ j ∈ pieces, x'.cm.posField j = true) ∧
        (err ≠ none → Broken (t n) (Vacant (t n) x) x x')) (s.setItem n x) := by
  induction pieces generalizing x with
  | nil =>
      exact wp_pure.mpr ⟨x, rfl, fun _ => ⟨.refl writable.sound, nofun⟩,
        fun some => absurd rfl some⟩
  | cons start rest ih =>
      have inside := lt start List.mem_cons_self
      refine on_seq (fillTurn_wp sized writable inside (held start inside) open_) ?_
      rintro err x₁ ⟨ok, broken⟩
      cases err with
      | some e => exact wp_pure.mpr ⟨x₁, rfl, nofun, fun _ => broken nofun⟩
      | none =>
          obtain ⟨filled, set⟩ := ok rfl
          have held₁ : ∀ j < (t n).npieces, x₁.cm.pieceField j = true →
              x₁.cm.posField j = true := by
            intro j lt set
            rw [filled.eq] at set
            exact filled.pos j (held j lt set)
          refine on_mono (ih (filled.writable writable)
            (fun j mem => lt j (List.mem_cons_of_mem _ mem)) held₁) ?_
          rintro err x₂ ⟨ok₂, broken₂⟩
          refine ⟨fun none => ?_, fun some => ?_⟩
          · obtain ⟨filled₂, set₂⟩ := ok₂ none
            refine ⟨filled.trans filled₂, fun j mem => ?_⟩
            rcases List.mem_cons.mp mem with rfl | mem
            · exact filled₂.pos _ set
            · exact set₂ j mem
          obtain ⟨x₃, wrote, failed⟩ := broken₂ some
          exact ⟨x₃, (filled.wrote wrote).mono fun o place => place.elim id filled.vacant, failed⟩

theorem allocate_wp (sized : Sized (t n)) (writable : Writable (t n) x)
    (lt : piece < (t n).npieces) (alloc : (t n).cmAllocSize ≠ 0)
    (held : ∀ j < (t n).npieces, x.cm.pieceField j = true → x.cm.posField j = true)
    (open_ : Contract.Open k) :
    (allocate t n piece).wp k callers (On n s fun err x' =>
      (err = none → Filled (t n) x x' ∧ x'.cm.posField piece = true) ∧
        (err ≠ none → Broken (t n) (Vacant (t n) x) x x')) (s.setItem n x) := by
  have positive := sized.pieceLength_pos
  have some : ((t n).cmAllocSize + ((t n).pieceLength - 1)) / (t n).pieceLength ≠ 0 :=
    Nat.ne_of_gt (Nat.div_pos (by omega) positive)
  unfold allocate
  dsimp only
  rw [wp_bind, wp_assert, if_pos some]
  generalize ((t n).cmAllocSize + ((t n).pieceLength - 1)) / (t n).pieceLength = group at some ⊢
  have rest := Nat.mod_lt piece (Nat.pos_of_ne_zero some)
  have le := Nat.mod_le piece group
  refine on_mono (fillLoop_wp sized writable (fun j mem => ?_) held open_) ?_
  · obtain ⟨lower, upper⟩ := List.mem_range'_1.mp mem
    omega
  · rintro err x' ⟨ok, broken⟩
    refine ⟨fun none => ?_, broken⟩
    obtain ⟨filled, set⟩ := ok none
    refine ⟨filled, set piece (List.mem_range'_1.mpr ?_)⟩
    omega

theorem allocateNew_wp (sized : Sized (t n)) (writable : Writable (t n) x)
    (lt : piece < (t n).npieces)
    (alloc : (t n).cmAllocSize = 0 → x.cm.posField piece = true)
    (held : ∀ j < (t n).npieces, x.cm.pieceField j = true → x.cm.posField j = true)
    (open_ : Contract.Open k) :
    (allocateNew t n piece).wp k callers (On n s fun err x' =>
      (err = none → Filled (t n) x x' ∧ x'.cm.posField piece = true) ∧
        (err ≠ none → Broken (t n) (Vacant (t n) x) x x')) (s.setItem n x) := by
  unfold allocateNew
  rw [wp_bind, wp_content, Contents.setItem_self, wp_ite]
  split
  case isTrue set =>
    exact wp_pure.mpr ⟨x, rfl, fun _ => ⟨.refl writable.sound, set⟩,
      fun some => absurd rfl some⟩
  case isFalse clear =>
    exact allocate_wp sized writable lt (fun zero => clear (alloc zero)) held open_

/-! ## `cm_put_bytes` -/

/-- A block has been written and recorded. -/
structure Placed (t : Torrent) (piece i : Nat) (x x' : Item) : Prop where
  sound : x'.disk.Sound t.files
  outside : x.disk.Outside t.files (InBlock t piece i) x'.disk
  eq : x' = { x with
    disk := x'.disk
    cm := { x.cm with
      ncontentBytes := x.cm.ncontentBytes + blockSize t piece i
      blockField := Function.update x.cm.blockField piece (setBit (x.cm.blockField piece) i) } }

theorem block_div : i * pieceBlocklen / pieceBlocklen = i :=
  Nat.mul_div_cancel i pieceBlocklen_pos

theorem storeBlock_wp (sized : Sized (t n)) (writable : Writable (t n) x)
    (lt : piece < (t n).npieces) (block : i < (t n).torrentPieceBlocks piece)
    (size : buf.length = blockSize (t n) piece i) (open_ : Contract.Open k) :
    (storeBlock t n piece (i * pieceBlocklen) buf).wp k callers (On n s fun err x' =>
      (err = none → Placed (t n) piece i x x') ∧
        (err ≠ none → Broken (t n) (InBlock (t n) piece i) x x')) (s.setItem n x) := by
  have some : buf ≠ [] := by
    have positive := sized.blockSize_pos lt block
    exact List.ne_nil_of_length_pos (size ▸ positive)
  have inside : piece * (t n).pieceLength + i * pieceBlocklen + buf.length ≤ (t n).files.sum := by
    have inner := sized.block_le lt block
    have outer := sized.piece_le lt
    omega
  unfold storeBlock
  refine on_seq (useStream_wp writable.live (btsPut_outside writable.sound inside some)) ?_
  rintro err x₁ ⟨d, rfl, sound, outside⟩
  rw [size] at outside
  cases err with
  | some e =>
      have wrote : Wrote (t n) (InBlock (t n) piece i) x { x with disk := d } :=
        ⟨sound, outside, fun _ pos => pos, fun _ => .inl rfl, rfl⟩
      dsimp only
      refine on_seq (fails_wp (wrote.writable writable).toUsable open_) ?_
      rintro - x₂ failed
      exact wp_pure.mpr ⟨x₂, rfl, nofun, fun _ => ⟨_, wrote, failed⟩⟩
  | none =>
      dsimp only
      rw [wp_bind, wp_setContent, wp_pure, block_div]
      refine ⟨_, rfl, fun _ => ⟨sound, outside, ?_⟩, fun some => absurd rfl some⟩
      rw [size]

/-- The block has been stored, and the piece has been allocated. -/
def Stored (t : Torrent) (piece i : Nat) (x x' : Item) : Prop :=
  ∃ x₁, Filled t x x₁ ∧ x₁.cm.posField piece = true ∧ Placed t piece i x₁ x'

/-- The places that a block may change. -/
def Spoiled (t : Torrent) (piece i : Nat) (x : Item) (o : Nat) : Prop :=
  Vacant t x o ∨ InBlock t piece i o

theorem putBytes_wp (sized : Sized (t n)) (writable : Writable (t n) x)
    (lt : piece < (t n).npieces) (block : i < (t n).torrentPieceBlocks piece)
    (size : buf.length = blockSize (t n) piece i)
    (missing : x.cm.pieceField piece = false)
    (alloc : (t n).cmAllocSize = 0 → x.cm.posField piece = true)
    (held : ∀ j < (t n).npieces, x.cm.pieceField j = true → x.cm.posField j = true)
    (open_ : Contract.Open k) (putBlock : k.allowed .putBlock) :
    (putBytes t n piece (i * pieceBlocklen) buf).wp k callers (On n s fun err x' =>
      x.cm.blockField piece i = false ∧ (err = none → Stored (t n) piece i x x') ∧
        (err ≠ none → Broken (t n) (Spoiled (t n) piece i x) x x')) (s.setItem n x) := by
  unfold putBytes
  rw [wp_bind, wp_content, Contents.setItem_self, wp_bind, wp_assert, block_div]
  split
  case isFalse => exact putBlock
  case isTrue new =>
    rw [wp_bind, wp_assert, if_pos missing]
    refine on_seq (allocateNew_wp sized writable lt alloc held open_) ?_
    rintro err x₁ ⟨ok, broken⟩
    cases err with
    | some e =>
        obtain ⟨x₂, wrote, failed⟩ := broken (Option.some_ne_none e)
        exact wp_pure.mpr ⟨x₁, rfl, new, fun none => absurd none (Option.some_ne_none e),
          fun _ => ⟨x₂, wrote.mono fun _ => .inl, failed⟩⟩
    | none =>
        obtain ⟨filled, set⟩ := ok rfl
        refine on_mono (storeBlock_wp sized (filled.writable writable) lt block size open_) ?_
        rintro err x₂ ⟨ok₂, broken₂⟩
        refine ⟨new, fun none => ⟨x₁, filled, set, ok₂ none⟩, fun some => ?_⟩
        obtain ⟨x₃, wrote, failed⟩ := broken₂ some
        exact ⟨x₃, filled.wrote wrote, failed⟩

end Btpd.Content
