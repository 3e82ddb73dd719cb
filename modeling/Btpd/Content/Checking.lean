import Btpd.Content.Storing

/-!
# Pieces that are tested

What `cm_test_piece` does when the last block of a piece has arrived.  Its three ends
are an error, a piece that is good, and a piece whose blocks are all dropped; in the
last two an error can still be met when the blocks are hashed one by one.
-/

namespace Btpd.Content

open Prog
open Download (Torrent pieceBlocklen setBit)

variable {t : Nat → Torrent} {n : Nat} {s : Contents} {x x' x'' : Item}
  {callers : List Fn} {k : Contract Contents Fn CmFault} {piece i : Nat}

/-- The bytes of a piece have the hash of the metainfo file. -/
def HashOk (t : Torrent) (x : Item) (piece : Nat) : Prop :=
  t.sha1 ((flat t.files x.disk.file).slice (piece * t.pieceLength) (pieceSize t piece)) =
    t.pieceHash piece

/-- The piece had its hash before the files were cut. -/
def Hashed (t : Torrent) (x : Item) (piece : Nat) : Prop :=
  ∃ file, x.disk.Cut t.files file ∧
    t.sha1 ((flat t.files file).slice (piece * t.pieceLength) (pieceSize t piece)) =
      t.pieceHash piece

theorem HashOk.hashed {t : Torrent} (ok : HashOk t x piece) (near : x.disk.Near t.files x'.disk) :
    Hashed t x' piece :=
  ⟨_, near.toCut, ok⟩

theorem Hashed.ok {t : Torrent} (hashed : Hashed t x piece) (apart : x.disk.Apart t.files) :
    HashOk t x piece := by
  obtain ⟨file, cut, hash⟩ := hashed
  unfold HashOk
  rw [cut.flat apart]
  exact hash

/-- A piece has been read for a test. -/
structure Tried (t : Torrent) (piece : Nat) (x x' : Item) : Prop where
  same : x.disk.Same t.files x'.disk
  eq : x' = { x with
    disk := x'.disk
    cm.tested := Function.update x.cm.tested piece (x.cm.tested piece + 1) }

theorem testPiece_wp (sized : Sized (t n)) (lt : piece < (t n).npieces)
    (sound : x.disk.Sound (t n).files) (live : x.cm.ptr .rds = .live) :
    (testPiece t n piece).wp k callers (On n s fun r x' => Tried (t n) piece x x' ∧
      ∀ ok, r = .ok ok → (ok = true ↔ HashOk (t n) x piece)) (s.setItem n x) := by
  unfold testPiece
  rw [wp_bind, wp_setContent]
  refine on_seq (useStream_wp live (btsSha_same sound (sized.piece_le lt))) ?_
  rintro r x₁ ⟨d, rfl, same, hash⟩
  refine wp_pure.mpr ⟨_, rfl, ⟨same, rfl⟩, ?_⟩
  cases r with
  | error e => exact nofun
  | ok out =>
      rintro ok ⟨⟩
      rw [decide_eq_true_iff, hash out rfl]
      exact Iff.rfl

/-- What the end of a test adds to the changes that it is about: nothing, an error, or
the close of the write stream when all pieces are held. -/
def Concluded (t : Torrent) (x x' : Item) : Prop :=
  Kept t x x' ∧ ¬ x.cm.full t.npieces ∨ Failed t x x' ∨ Written t x x' ∧ x.cm.full t.npieces

/-- A change of the pieces that are downloaded does not mind an error. -/
theorem Ended.mapPiece {t : Torrent} (ended : Ended t x x')
    (f : (Nat → Option Piece) → Nat → Option Piece) :
    Ended t { x with piece := f x.piece } { x' with piece := f x'.piece } := by
  rcases ended with ⟨same, eq⟩ | ⟨same, ptr, eq⟩
  · refine .inl ⟨same, ?_⟩
    rw [eq]
  · refine .inr ⟨same, ptr, ?_⟩
    rw [eq]

/-- The piece of an index is gone. -/
def Item.dropPiece (x : Item) (piece : Nat) : Item :=
  { x with piece := Function.update x.piece piece none }

/-- All blocks of a piece are to be asked for again. -/
def Item.restartPiece (x : Item) (piece hashed : Nat) : Item := { x with
  piece := Function.update x.piece piece
    ((x.piece piece).map fun pc => ⟨0, pc.hashed + hashed⟩) }

theorem dlOnOkPiece_wp (sized : Sized (t n)) (lt : piece < (t n).npieces)
    (usable : Usable (t n) x) (open_ : Contract.Open k) :
    (dlOnOkPiece t n piece).wp k callers (Does n s (Ended (t n) (x.dropPiece piece)))
      (s.setItem n x) := by
  have hashes : (when (∃ pc ∈ x.piece piece, pc.hashed ≠ 0) (pieceLogHashes t n piece)).wp k
      callers (Does n s (Ended (t n) x)) (s.setItem n x) := by
    rw [wp_when]
    split
    · exact pieceLogHashes_wp sized lt usable open_
    · exact ⟨x, rfl, .inl (.refl usable.sound)⟩
  unfold dlOnOkPiece
  rw [wp_bind, wp_item, Contents.setItem_self]
  refine on_seq hashes ?_
  rintro - x' ended
  refine wp_setItem.mpr ⟨_, rfl, ?_⟩
  exact ended.mapPiece fun pieces => Function.update pieces piece none

theorem dlOnBadPiece_wp {sole : Bool} (sized : Sized (t n)) (lt : piece < (t n).npieces)
    (usable : Usable (t n) x) (open_ : Contract.Open k) :
    (dlOnBadPiece t n piece sole).wp k callers
      (Does n s fun x' => ∃ hashed, Ended (t n) (x.restartPiece piece hashed) x')
      (s.setItem n x) := by
  unfold dlOnBadPiece changePiece
  rw [wp_bind, wp_setItem, wp_when]
  split
  · refine on_seq (pieceLogHashes_wp sized lt
      ⟨usable.sound, usable.error, usable.state, usable.rds, usable.wrs⟩ open_) ?_
    rintro - x' ended
    refine wp_setItem.mpr ⟨_, rfl, 1, ?_⟩
    have mapped := ended.mapPiece fun pieces => Function.update pieces piece
      ((pieces piece).map fun pc => { pc with hashed := pc.hashed + 1 })
    simp only [Function.update_self, Function.update_idem, Option.map_map] at mapped
    exact mapped
  · exact ⟨_, rfl, 0, .inl (.refl usable.sound)⟩

/-- The changes for a piece that has passed its test. -/
structure Passed (piece : Nat) (x x' : Item) : Prop where
  eq : x' = Item.dropPiece { x with cm := { x.cm with
      npiecesGot := x.cm.npiecesGot + 1
      pieceField := setBit x.cm.pieceField piece } } piece

/-- The changes for a piece that has not passed its test. -/
structure Missed (t : Torrent) (piece : Nat) (x x' : Item) : Prop where
  eq : ∃ hashed, x' = Item.restartPiece { x with cm := { x.cm with
      ncontentBytes := x.cm.ncontentBytes - t.torrentPieceSize piece
      blockField := Function.update x.cm.blockField piece fun _ => false } } piece hashed

theorem cmPieceOk_wp (sized : Sized (t n)) (lt : piece < (t n).npieces)
    (writable : Writable (t n) x) (active : x.active = true)
    (some : x.cm.npiecesGot < (t n).npieces) (open_ : Contract.Open k) :
    (cmPieceOk t n piece).wp k (.cmTestPiece n piece :: callers)
      (Does n s fun x' => ∃ x₁, Passed piece x x₁ ∧ Concluded (t n) x₁ x') (s.setItem n x) := by
  unfold cmPieceOk
  rw [wp_bind, wp_content, Contents.setItem_self, wp_bind, wp_assert, if_pos some, wp_bind,
    wp_setContent, wp_bind, wp_item, Contents.setItem_self, wp_bind, wp_when, if_pos active]
  refine wp_mono (dlOnOkPiece_wp sized lt ⟨writable.sound, writable.error, writable.state,
    writable.rds, writable.wrs⟩ open_) ?_
  rintro - - ⟨x₁, rfl, ended⟩
  generalize passed : Item.dropPiece { x with cm := { x.cm with
    npiecesGot := x.cm.npiecesGot + 1
    pieceField := setBit x.cm.pieceField piece } } piece = x₀ at ended
  have is : Passed piece x x₀ := ⟨passed.symm⟩
  have writable₀ : Writable (t n) x₀ := by
    rw [← passed]
    exact ⟨⟨writable.sound, writable.error, writable.state, writable.rds, writable.wrs⟩,
      writable.live⟩
  have full : x₁.cm.full (t n).npieces ↔ x₀.cm.full (t n).npieces := by
    rcases ended with kept | failed
    · rw [kept.eq]
    · rw [failed.eq]
      rfl
  rw [wp_bind, wp_content, Contents.setItem_self, wp_when]
  split
  case isFalse more =>
    refine ⟨x₁, rfl, x₀, is, ?_⟩
    rcases ended with kept | failed
    · exact .inl ⟨kept, mt full.mpr more⟩
    · exact .inr (.inl failed)
  case isTrue all =>
    have all := full.mp all
    unfold cmWriteDone
    rcases ended with kept | failed
    · have usable₁ := kept.usable writable₀.toUsable
      have live : x₁.cm.ptr .wrs = .live := by
        rw [kept.eq]
        exact writable₀.live
      refine cmWriteDoneBy_wp usable₁.sound live (fun x' written => ?_) ?_
      · refine ⟨x₀, is, .inr (.inr ⟨⟨kept.same.near.trans written.near, ?_⟩, all⟩)⟩
        rw [written.eq, kept.eq]
      · intro _ _ x₂ written
        have sane : Sane (t n) { x₂ with cm.error := true } := by
          rw [written.eq, kept.eq]
          exact ⟨written.near.sound, by simp [writable₀.state],
            fun b => by cases b <;> simp [writable₀.rds], fun _ => by simp [writable₀.rds]⟩
        have state : x₂.cm.state = .active := by
          rw [written.eq, kept.eq]
          exact writable₀.state
        refine on_mono (cmStop_active_wp sane state open_) ?_
        rintro - x₃ ⟨near, ptr, eq⟩
        refine ⟨⟨x₀, is, .inr (.inl ⟨(kept.same.near.trans written.near).trans near, ptr, ?_⟩)⟩, ?_⟩
        · rw [eq, written.eq, kept.eq]
        · rw [eq]
    · -- the stream has been closed already
      refine wp_call.mpr ?_
      rcases open_ with bad | allowed
      · refine .inl (bad _ ?_)
        unfold Misuses
        dsimp only
        rw [if_neg (by simp), Contents.setItem_self]
        exact failed.error
      · right
        rw [wp_bind]
        unfold closeStream
        rw [wp_bind, wp_content, Contents.setItem_self]
        cases ptr : x₁.cm.ptr .wrs with
        | live => exact absurd ptr (failed.ptr .wrs)
        | null => exact wp_fault.mpr (allowed _ (.inl rfl))
        | freed => exact wp_fault.mpr (allowed _ (.inr (.inr rfl)))

theorem cmPieceBad_wp {sole : Bool} (sized : Sized (t n)) (lt : piece < (t n).npieces)
    (usable : Usable (t n) x) (active : x.active = true) (open_ : Contract.Open k) :
    (cmPieceBad t n piece sole).wp k callers
      (Does n s fun x' => ∃ x₁, Missed (t n) piece x x₁ ∧ Ended (t n) x₁ x') (s.setItem n x) := by
  unfold cmPieceBad
  rw [wp_bind, wp_setContent, wp_bind, wp_item, Contents.setItem_self, wp_when, if_pos active]
  refine on_mono (dlOnBadPiece_wp sized lt
    ⟨usable.sound, usable.error, usable.state, usable.rds, usable.wrs⟩ open_) ?_
  rintro - x' ⟨hashed, ended⟩
  exact ⟨_, ⟨hashed, rfl⟩, ended⟩

/-- What a test leaves behind. -/
inductive Checked (t : Torrent) (piece : Nat) (x x' : Item) : Prop
  | error (x₁ : Item) : Tried t piece x x₁ → Failed t x₁ x' → Checked t piece x x'
  | ok (x₁ x₂ : Item) : Tried t piece x x₁ → HashOk t x piece → Passed piece x₁ x₂ →
      Concluded t x₂ x' → Checked t piece x x'
  | bad (x₁ x₂ : Item) : Tried t piece x x₁ → ¬ HashOk t x piece → Missed t piece x₁ x₂ →
      Ended t x₂ x' → Checked t piece x x'

theorem Tried.writable {t : Torrent} (tried : Tried t piece x x') (writable : Writable t x) :
    Writable t x' := by
  rw [tried.eq]
  exact ⟨⟨tried.same.sound, writable.error, writable.state, writable.rds, writable.wrs⟩,
    writable.live⟩

theorem cmTestPiece_wp {sole : Bool} (sized : Sized (t n)) (lt : piece < (t n).npieces)
    (writable : Writable (t n) x) (active : x.active = true)
    (some : x.cm.npiecesGot < (t n).npieces) (open_ : Contract.Open k) :
    (cmTestPiece t n piece sole).wp k callers (Does n s (Checked (t n) piece x))
      (s.setItem n x) := by
  refine wp_call.mpr (.inr ?_)
  refine on_seq (testPiece_wp sized lt writable.sound writable.rds) ?_
  rintro r x₁ ⟨tried, hash⟩
  have writable₁ := tried.writable writable
  have active₁ : x₁.active = true := by
    rw [tried.eq]
    exact active
  have some₁ : x₁.cm.npiecesGot < (t n).npieces := by
    rw [tried.eq]
    exact some
  rcases r with e | ok
  · exact on_mono (fails_wp writable₁.toUsable open_) fun _ x' failed => .error x₁ tried failed
  · cases ok with
    | true =>
        refine on_mono (cmPieceOk_wp sized lt writable₁ active₁ some₁ open_) ?_
        rintro - x' ⟨x₂, passed, concluded⟩
        exact .ok x₁ x₂ tried ((hash true rfl).mp rfl) passed concluded
    | false =>
        refine on_mono (cmPieceBad_wp sized lt writable₁.toUsable active₁ open_) ?_
        rintro - x' ⟨x₂, missed, ended⟩
        exact .bad x₁ x₂ tried (fun ok => nomatch (hash false rfl).mpr ok) missed ended

/-- A torrent that has met an error must not be tested any more. -/
theorem cmTestPiece_again {sole : Bool} {post : Unit → Contents → Prop}
    (error : x.cm.error = true) (ptr : x.cm.ptr .rds ≠ .live) (open_ : Contract.Open k) :
    (cmTestPiece t n piece sole).wp k callers post (s.setItem n x) := by
  refine wp_call.mpr ?_
  rcases open_ with bad | allowed
  · refine .inl (bad _ ?_)
    unfold Misuses
    dsimp only
    rw [Contents.setItem_self]
    exact error
  · right
    unfold testPiece
    rw [wp_bind, wp_bind, wp_setContent, wp_bind]
    unfold useStream
    rw [wp_bind, wp_content, Contents.setItem_self]
    cases rds : x.cm.ptr .rds with
    | live => exact absurd rds ptr
    | null =>
        exact wp_fault.mpr (allowed _ (.inl rfl))
    | freed =>
        exact wp_fault.mpr (allowed _ (.inr (.inl rfl)))

end Btpd.Content
