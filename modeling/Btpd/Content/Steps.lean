import Btpd.Content.Invariant

/-!
# What an event may do to a torrent

A piece becomes held only when it has passed its test, what has been recorded stays on
the disk, and a torrent that becomes active after its files have changed has been tested.
With it, what holds of one torrent between two events, and the end of its start.
-/

namespace Btpd.Content

open Prog Segments
open Download (Torrent pieceBlocklen setBit clearBit)

variable {t : Nat → Torrent} {n m : Nat} {s s' : Contents} {x x' x'' : Item} {cm cm' : Cm}
  {callers : List Fn} {k : Contract Contents Fn CmFault} {u : Torrent} {piece i j b o : Nat}

/-! ## What an event may do to a torrent -/

/-- A place of the whole is in a piece that is held or in a block that is recorded. -/
def Recorded (u : Torrent) (x : Item) (o : Nat) : Prop :=
  ∃ i < u.npieces, x.cm.pieceField i = true ∧ InPiece u i o ∨
    ∃ b < u.torrentPieceBlocks i, x.cm.blockField i b = true ∧ InBlock u i b o

/-- The test of the pieces at the start has come to the right end. -/
structure Verified (u : Torrent) (x : Item) : Prop where
  held : ∀ i < u.npieces, x.cm.pieceField i = true ↔ ¬ Lost u x.cm.found i ∧ HashOk u x i
  lost : ∀ i < u.npieces, Lost u x.cm.found i →
    (∀ b, x.cm.blockField i b = false) ∧ x.cm.tested i = 0
  once : ∀ i < u.npieces, ¬ Lost u x.cm.found i → x.cm.tested i = 1

/-- What one event may do to a torrent. -/
structure Step (u : Torrent) (x x' : Item) : Prop where
  inode : x'.disk.inode = x.disk.inode
  hash : ∀ i, x'.cm.pieceField i = true → x.cm.pieceField i = true ∨ Hashed u x' i
  data : x.disk.Apart u.files → x.cm.state = .active → ∀ o, Recorded u x o →
    flat u.files x'.disk.file o = flat u.files x.disk.file o
  verified : x.cm.state ≠ .active → x'.cm.state = .active →
    Differs x'.cm.recorded x'.cm.found → Verified u x'

/-- The bit field of pieces and the bytes are as before, and the torrent does not become
active. -/
theorem Step.of_same (inode : x'.disk.inode = x.disk.inode)
    (piece : x'.cm.pieceField = x.cm.pieceField)
    (flat : x.disk.Apart u.files → flat u.files x'.disk.file = flat u.files x.disk.file)
    (calm : x'.cm.state = .active → x.cm.state = .active) : Step u x x' where
  inode := inode
  hash _ set := .inl (piece ▸ set)
  data apart _ o _ := congrFun (flat apart) o
  verified off on := absurd (calm on) off

theorem Step.refl : Step u x x := .of_same rfl rfl (fun _ => rfl) id

theorem Failed.step (failed : Failed u x x') : Step u x x' := by
  have data := failed.near.data
  refine .of_same failed.near.inode ?_ data ?_
  · rw [failed.eq]
  · rw [failed.eq]
    exact nofun

/-! ## What holds of a torrent -/

/-- No piece that is not held has all its blocks. -/
def Open (u : Torrent) (x : Item) : Prop :=
  ∀ i < u.npieces, x.cm.pieceField i = false → x.cm.Whole u i → u.torrentPieceBlocks i = 0

/-- What holds of a torrent between two events. -/
structure Good (u : Torrent) (x : Item) : Prop where
  sound : x.disk.Sound u.files
  off : x.cm.state = .inactive → ∀ b, x.cm.ptr b ≠ .live
  error : x.cm.error = true → x.cm.state = .inactive
  active : x.cm.state = .active → Active u x ∧ Open u x
  filled : ∀ i, x.cm.filled i ≤ 1
  ghost : x.state = .ghost → x.cm.state = .inactive
  net : x.active = true → x.cm.state = .active ∨ x.cm.error = true
  pieces : x.active = false → ∀ i, x.piece i = none

theorem Failed.good (failed : Failed u x x') (filled : ∀ i, x.cm.filled i ≤ 1)
    (pieces : x.active = false → ∀ i, x.piece i = none) : Good u x' := by
  have sound := failed.near.sound
  have ptr := failed.ptr
  rw [failed.eq] at ptr ⊢
  exact ⟨sound, fun _ => ptr, fun _ => rfl, nofun, filled, fun _ => rfl, fun _ => .inr rfl, pieces⟩

theorem Stopped.good (stopped : Stopped u x x') (filled : ∀ i, x.cm.filled i ≤ 1)
    (inactive : x.active = false) (pieces : ∀ i, x.piece i = none) : Good u x' := by
  have sound := stopped.near.sound
  have ptr := stopped.ptr
  rw [stopped.eq] at ptr ⊢
  exact ⟨sound, fun _ => ptr, fun _ => rfl, nofun, filled, fun _ => rfl,
    fun active => (by cases inactive.symm.trans active), fun _ => pieces⟩

/-- A torrent that is active, with pieces only while the download is active. -/
theorem Active.good (active : Active u x) (open_ : Open u x) (filled : ∀ i, x.cm.filled i ≤ 1)
    (state : x.state ≠ .ghost) (pieces : x.active = false → ∀ i, x.piece i = none) :
    Good u x where
  sound := active.usable.sound
  off inactive := by cases active.usable.state.symm.trans inactive
  error error := by cases active.usable.error.symm.trans error
  active _ := ⟨active, open_⟩
  filled := filled
  ghost ghost := absurd ghost state
  net _ := .inl active.usable.state
  pieces := pieces

/-! ## The end of the start -/

section Launched

variable (sized : Sized u) (fresh : Fresh u x) (blank : Blank x.cm)
  (pieces : ∀ i, x.piece i = none)

theorem Surveyed.fields (surveyed : Surveyed u i { x.cm with posField := fun _ => false } cm) :
    cm.pieceField = x.cm.pieceField ∧ cm.found = x.cm.found ∧ cm.recorded = x.cm.recorded ∧
      cm.tested = x.cm.tested ∧ cm.filled = x.cm.filled ∧ cm.error = x.cm.error ∧
      cm.ptr = x.cm.ptr := by
  rw [surveyed.eq]
  exact ⟨rfl, rfl, rfl, rfl, rfl, rfl, rfl⟩

/-- No piece is left complete and not held. -/
theorem Surveyed.open_
    (surveyed : Surveyed u u.npieces { x.cm with posField := fun _ => false } cm) (i : Nat)
    (lt : i < u.npieces) (missing : cm.pieceField i = false) (whole : cm.Whole u i) :
    u.torrentPieceBlocks i = 0 := by
  rw [surveyed.fields.1] at missing
  have block := surveyed.block i
  by_cases before : x.cm.Whole u i
  · rw [if_pos ⟨lt, missing, before⟩] at block
    by_contra some
    have first := whole 0 (Nat.pos_of_ne_zero some)
    rw [block] at first
    cases first
  · rw [if_neg fun dropped => before dropped.2.2] at block
    unfold Cm.Whole at whole
    rw [block] at whole
    exact absurd whole before

include fresh blank pieces

theorem launched_active
    (surveyed : Surveyed u u.npieces { x.cm with posField := fun _ => false } cm)
    {resd : Nat → FileTimeSize} (same : x.disk.Same u.files x'.disk)
    (eq : x' = { x with
      disk := x'.disk
      cm := { cm with
        state := .active
        ptr := if cm.full u.npieces then cm.ptr else Function.update cm.ptr .wrs .live
        resd := resd } }) : Active u x' := by
  obtain ⟨piece, -, -, -, filled, error, ptr⟩ := surveyed.fields
  have got : cm.npiecesGot = (List.range u.npieces).countP cm.pieceField := by
    rw [surveyed.got, piece]
    dsimp only
    rw [blank.got, Nat.zero_add]
  have bytes : cm.ncontentBytes = cm.bytes u u.npieces := by
    rw [surveyed.bytes]
    dsimp only
    rw [blank.bytes, Int.zero_add]
  have sound := same.sound
  rw [eq]
  refine ⟨⟨sound, error.trans fresh.error, rfl, ?_, ?_⟩, ?_, ⟨got, bytes⟩, ?_, ?_, ?_, ?_⟩
  · dsimp only
    split
    · exact (congrFun ptr .rds).trans fresh.rds
    · exact (congrFun ptr .rds).trans fresh.rds
  · dsimp only
    split
    · rw [ptr, fresh.wrs]
      exact nofun
    · exact nofun
  · rintro ⟨i, lt, missing⟩
    dsimp only at missing ⊢
    rw [if_neg]
    · rfl
    · intro full
      have all := List.countP_eq_length.mp ((got.symm.trans full).trans List.length_range.symm)
      exact absurd (all i (List.mem_range.mpr lt)) (by simp [missing])
  · intro i lt set
    exact (surveyed.pos i).mpr (.inr ⟨lt, .inl (piece ▸ set)⟩)
  · intro i lt b block set
    dsimp only at set
    refine (surveyed.pos i).mpr (.inr ⟨lt, ?_⟩)
    cases held : x.cm.pieceField i with
    | true => exact .inl rfl
    | false =>
        rw [surveyed.block] at set
        split at set
        · cases set
        case isFalse kept =>
          refine .inr ⟨fun whole => kept ⟨lt, held, whole⟩, fun none => ?_⟩
          have mem : b ∈ x.cm.stored u i := Cm.mem_stored.mpr ⟨block, set⟩
          rw [show x.cm.stored u i = [] from none] at mem
          cases mem
  · intro i _
    exact (congrFun filled i).trans (blank.filled i)
  · intro i pc at_
    cases (pieces i).symm.trans at_

omit fresh blank pieces in
theorem launched_verified
    (surveyed : Surveyed u u.npieces { x.cm with posField := fun _ => false } cm)
    {resd : Nat → FileTimeSize} (same : x.disk.Same u.files x'.disk)
    (eq : x' = { x with
      disk := x'.disk
      cm := { cm with
        state := .active
        ptr := if cm.full u.npieces then cm.ptr else Function.update cm.ptr .wrs .live
        resd := resd } })
    (tested : Tested u u.npieces x) : Verified u x' := by
  obtain ⟨piece, found, -, count, -⟩ := surveyed.fields
  have found' : x'.cm.found = x.cm.found := by
    rw [eq]
    exact found
  have piece' : x'.cm.pieceField = x.cm.pieceField := by
    rw [eq]
    exact piece
  have count' : x'.cm.tested = x.cm.tested := by
    rw [eq]
    exact count
  have block' : ∀ i b, x.cm.blockField i b = false → x'.cm.blockField i b = false := by
    intro i b clear
    rw [eq]
    dsimp only
    rw [surveyed.block]
    split
    · rfl
    · exact clear
  have hash : ∀ i, HashOk u x' i ↔ HashOk u x i := fun i => HashOk.congr same.flat
  refine ⟨fun i lt => ?_, fun i lt lost => ?_, fun i lt kept => ?_⟩
  · rw [piece', found', hash]
    by_cases lost : Lost u x.cm.found i
    · have missing := (tested.lost i lt lost).2.1
      exact iff_of_false (by simp [missing]) fun h => h.1 lost
    · have on := tested.rest i lt lost
      rw [(tested.done i lt on).2]
      exact (and_iff_right lost).symm
  · rw [found'] at lost
    obtain ⟨off, -, clear⟩ := tested.lost i lt lost
    exact ⟨fun b => block' i b (clear b), by rw [count', tested.skipped i lt off]⟩
  · rw [found'] at kept
    rw [count']
    exact (tested.done i lt (tested.rest i lt kept)).1

end Launched

theorem Launched.good (launched : Launched u x x') (fresh : Fresh u x) (blank : Blank x.cm)
    (pieces : ∀ i, x.piece i = none) (state : x.state ≠ .ghost) : Good u x' := by
  have zero {cm : Cm} (same : cm.filled = x.cm.filled) (i : Nat) : cm.filled i ≤ 1 := by
    rw [same, blank.filled]
    exact Nat.zero_le 1
  cases launched with
  | active cm resd surveyed same eq =>
      have active := launched_active fresh blank pieces surveyed same eq
      rw [eq] at active ⊢
      exact active.good surveyed.open_ (zero surveyed.fields.2.2.2.2.1) state fun _ => pieces
  | failed cm resd surveyed failed =>
      exact failed.good (zero surveyed.fields.2.2.2.2.1) fun _ => pieces

/-- From the state before the event that ends the start. -/
theorem Launched.step (launched : Launched u x' x'') (inode : x'.disk.inode = x.disk.inode)
    (hash : ∀ i, x'.cm.pieceField i = true → x.cm.pieceField i = true ∨ HashOk u x' i)
    (state : x.cm.state ≠ .active)
    (tested : Differs x'.cm.recorded x'.cm.found → Tested u u.npieces x') : Step u x x'' := by
  cases launched with
  | active cm resd surveyed same eq =>
      obtain ⟨piece, found, recorded, -⟩ := surveyed.fields
      refine ⟨same.inode.trans inode, fun i set => ?_, fun _ active => absurd active state,
        fun _ _ differs => ?_⟩
      · rw [eq] at set
        exact (hash i (piece ▸ set)).imp_right fun ok => ok.hashed same.near
      · refine launched_verified surveyed same eq (tested ?_)
        rw [eq] at differs
        dsimp only at differs
        rw [recorded, found] at differs
        exact differs
  | failed cm resd surveyed failed =>
      refine ⟨failed.near.inode.trans inode, fun i set => ?_,
        fun _ active => absurd active state, fun _ active => ?_⟩
      · rw [failed.eq] at set
        exact (hash i (surveyed.fields.1 ▸ set)).imp_right fun ok =>
          HashOk.hashed (x := x') ok failed.near
      · rw [failed.eq] at active
        cases active

end Btpd.Content
