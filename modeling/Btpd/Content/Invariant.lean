import Btpd.Content.Testing

/-!
# An active torrent

What holds of the counters and the bit fields of a torrent that is active, and that
blocks, tests and new pieces keep it.
-/

namespace Btpd.Content

open Prog Segments
open Download (Torrent pieceBlocklen setBit clearBit)

variable {x x' x'' : Item} {cm cm' : Cm} {u : Torrent} {piece i j b o : Nat} {pc : Piece}

/-- A piece that is downloaded. -/
structure Fetched (u : Torrent) (x : Item) (i : Nat) (pc : Piece) : Prop where
  lt : i < u.npieces
  missing : x.cm.pieceField i = false
  alloc : u.cmAllocSize = 0 → x.cm.posField i = true
  ngot : pc.ngot = (x.cm.stored u i).length

/-- A torrent that is active: the counters are right, and every piece that is held or
has a block is allocated. -/
structure Active (u : Torrent) (x : Item) : Prop where
  usable : Usable u x
  live : (∃ i < u.npieces, x.cm.pieceField i = false) → x.cm.ptr .wrs = .live
  counted : Counted u x.cm
  held : ∀ i < u.npieces, x.cm.pieceField i = true → x.cm.posField i = true
  block : ∀ i < u.npieces, ∀ b < u.torrentPieceBlocks i, x.cm.blockField i b = true →
    x.cm.posField i = true
  filled : ∀ i, x.cm.posField i = false → x.cm.filled i = 0
  fetched : ∀ i pc, x.piece i = some pc → Fetched u x i pc

theorem Active.writable (active : Active u x) (lt : i < u.npieces)
    (missing : x.cm.pieceField i = false) : Writable u x :=
  ⟨active.usable, active.live ⟨i, lt, missing⟩⟩

theorem Active.got_lt (active : Active u x) (lt : i < u.npieces)
    (missing : x.cm.pieceField i = false) : x.cm.npiecesGot < u.npieces := by
  rw [active.counted.got]
  refine Nat.lt_of_le_of_ne ?_ fun all => ?_
  · have le := List.countP_le_length (p := x.cm.pieceField) (l := List.range u.npieces)
    rw [List.length_range] at le
    exact le
  · have each := List.countP_eq_length.mp (all.trans List.length_range.symm)
    exact absurd (each i (List.mem_range.mpr lt)) (by simp [missing])

/-! ## What leaves an active torrent alone -/

theorem Kept.active (kept : Kept u x x') (active : Active u x) : Active u x' := by
  have usable := kept.usable active.usable
  rw [kept.eq] at usable ⊢
  exact ⟨usable, active.live, active.counted, active.held, active.block, active.filled,
    fun i pc at_ => ⟨(active.fetched i pc at_).lt, (active.fetched i pc at_).missing,
      (active.fetched i pc at_).alloc, (active.fetched i pc at_).ngot⟩⟩

theorem Tried.active (tried : Tried u piece x x') (active : Active u x) : Active u x' := by
  have usable := active.usable
  rw [tried.eq]
  exact ⟨⟨tried.same.sound, usable.error, usable.state, usable.rds, usable.wrs⟩, active.live,
    ⟨active.counted.got, active.counted.bytes⟩, active.held, active.block, active.filled,
    fun i pc at_ => ⟨(active.fetched i pc at_).lt, (active.fetched i pc at_).missing,
      (active.fetched i pc at_).alloc, (active.fetched i pc at_).ngot⟩⟩

/-- When all pieces are held the write stream is not needed any more. -/
theorem Written.active (written : Written u x x') (active : Active u x)
    (full : x.cm.full u.npieces) : Active u x' := by
  have usable := active.usable
  have sound := written.near.sound
  rw [written.eq]
  refine ⟨⟨sound, usable.error, usable.state, usable.rds, nofun⟩, ?_,
    ⟨active.counted.got, active.counted.bytes⟩, active.held, active.block, active.filled,
    fun i pc at_ => ⟨(active.fetched i pc at_).lt, (active.fetched i pc at_).missing,
      (active.fetched i pc at_).alloc, (active.fetched i pc at_).ngot⟩⟩
  rintro ⟨i, lt, missing⟩
  exact absurd full (Nat.ne_of_lt (active.got_lt lt missing))

/-! ## Blocks -/

/-- One more block of a list is recorded. -/
theorem filter_setBit_perm {l : List Nat} {bits : Nat → Bool} (nodup : l.Nodup) (mem : b ∈ l)
    (clear : bits b = false) : (l.filter (setBit bits b)).Perm (b :: l.filter bits) := by
  induction l with
  | nil => cases mem
  | cons a l ih =>
      obtain ⟨fresh, nodup⟩ := List.nodup_cons.mp nodup
      by_cases here : a = b
      · subst here
        have others : l.filter (setBit bits a) = l.filter bits := by
          refine List.filter_congr fun c other => ?_
          refine Function.update_of_ne ?_ ..
          rintro rfl
          exact fresh other
        rw [List.filter_cons_of_pos (by simp [setBit]), List.filter_cons_of_neg (by simp [clear]),
          others]
      · have mem : b ∈ l := (List.mem_cons.mp mem).resolve_left fun eq => here eq.symm
        have rest := ih nodup mem
        have same : setBit bits b a = bits a := Function.update_of_ne here ..
        cases bit : bits a with
        | true =>
            rw [List.filter_cons_of_pos (same.trans bit), List.filter_cons_of_pos bit]
            exact (rest.cons a).trans (List.Perm.swap ..)
        | false =>
            rw [List.filter_cons_of_neg (by simp [same, bit]),
              List.filter_cons_of_neg (by simp [bit])]
            exact rest

/-- The content after a block has been recorded. -/
def Cm.record (u : Torrent) (cm : Cm) (piece b : Nat) : Cm := { cm with
  ncontentBytes := cm.ncontentBytes + blockSize u piece b
  blockField := Function.update cm.blockField piece (setBit (cm.blockField piece) b) }

theorem Cm.record_stored (block : b < u.torrentPieceBlocks i)
    (clear : cm.blockField i b = false) :
    ((cm.record u i b).stored u i).Perm (b :: cm.stored u i) := by
  have perm := filter_setBit_perm (List.nodup_range (n := u.torrentPieceBlocks i))
    (List.mem_range.mpr block) clear
  have eq : (cm.record u i b).stored u i =
      (List.range (u.torrentPieceBlocks i)).filter (setBit (cm.blockField i) b) := by
    unfold Cm.stored Cm.record
    dsimp only
    rw [Function.update_self]
  rw [eq]
  exact perm

theorem Cm.record_of_ne (ne : j ≠ i) :
    (cm.record u i b).blockField j = cm.blockField j := Function.update_of_ne ne ..

theorem Counted.record (counted : Counted u cm) (lt : i < u.npieces)
    (block : b < u.torrentPieceBlocks i) (missing : cm.pieceField i = false)
    (clear : cm.blockField i b = false) : Counted u (cm.record u i b) where
  got := counted.got
  bytes := by
    have here : (cm.record u i b).pieceBytes u i = cm.pieceBytes u i + blockSize u i b := by
      have missing' : (cm.record u i b).pieceField i = false := missing
      rw [Cm.pieceBytes, Cm.pieceBytes, missing, missing', if_neg (by simp), if_neg (by simp),
        Cm.storedBytes, Cm.storedBytes,
        ((Cm.record_stored block clear).map _).sum_eq, List.map_cons, List.sum_cons, Int.add_comm]
    have others : ∀ j < u.npieces, j ≠ i →
        (cm.record u i b).pieceBytes u j = cm.pieceBytes u j := fun j _ ne =>
      Cm.pieceBytes_congr rfl fun c _ => congrFun (Cm.record_of_ne ne) c
    rw [Cm.bytes_of_change lt here others, ← counted.bytes]
    rfl

/-- One more block of a piece has come. -/
def Item.countBlock (x : Item) (index : Nat) : Item := { x with
  piece := Function.update x.piece index
    ((x.piece index).map fun pc => { pc with ngot := pc.ngot + 1 }) }

theorem Filled.active (filled : Filled u x x') (active : Active u x) : Active u x' := by
  have usable := active.usable
  have sound := filled.sound
  have pos := filled.pos
  have clean := filled.clean
  have eq := filled.eq
  have before : ∀ i, x'.cm.posField i = false → x.cm.posField i = false := fun i clear =>
    (Bool.not_eq_true _).mp fun set => by cases (pos i set).symm.trans clear
  rw [eq]
  refine ⟨⟨sound, usable.error, usable.state, usable.rds, usable.wrs⟩, active.live,
    ⟨active.counted.got, active.counted.bytes⟩, fun i lt set => pos i (active.held i lt set),
    fun i lt b block set => pos i (active.block i lt b block set), fun i clear => ?_,
    fun i pc at_ => ⟨(active.fetched i pc at_).lt, (active.fetched i pc at_).missing,
      fun zero => pos i ((active.fetched i pc at_).alloc zero), (active.fetched i pc at_).ngot⟩⟩
  exact (clean i clear).trans (active.filled i (before i clear))

/-- A block has been stored and is counted. -/
theorem Placed.active (placed : Placed u piece b x x') (active : Active u x)
    (lt : piece < u.npieces) (block : b < u.torrentPieceBlocks piece)
    (missing : x.cm.pieceField piece = false) (clear : x.cm.blockField piece b = false)
    (set : x.cm.posField piece = true) : Active u (x'.countBlock piece) := by
  have usable := active.usable
  have sound := placed.sound
  have eq : x' = { x with disk := x'.disk, cm := x.cm.record u piece b } := placed.eq
  rw [eq, Item.countBlock]
  refine ⟨⟨sound, usable.error, usable.state, usable.rds, usable.wrs⟩, active.live,
    active.counted.record lt block missing clear, active.held, fun i lt c block on => ?_,
    active.filled, fun i pc at_ => ?_⟩
  · by_cases same : i = piece
    · rw [same]
      exact set
    · exact active.block i lt c block ((congrFun (Cm.record_of_ne same) c).symm.trans on)
  · dsimp only at at_
    by_cases same : i = piece
    · subst same
      rw [Function.update_self, Option.map_eq_some_iff] at at_
      obtain ⟨pc, old, rfl⟩ := at_
      have fetched := active.fetched i pc old
      refine ⟨fetched.lt, fetched.missing, fetched.alloc, ?_⟩
      rw [(Cm.record_stored block clear).length_eq, List.length_cons, ← fetched.ngot]
    · rw [Function.update_of_ne same] at at_
      have fetched := active.fetched i pc at_
      refine ⟨fetched.lt, fetched.missing, fetched.alloc, ?_⟩
      rw [Cm.stored_congr fun c _ => congrFun (Cm.record_of_ne same) c]
      exact fetched.ngot

/-! ## Tests -/

theorem Passed.active (passed : Passed piece x x') (sized : Sized u) (active : Active u x)
    (lt : piece < u.npieces) (missing : x.cm.pieceField piece = false)
    (whole : x.cm.Whole u piece) (set : x.cm.posField piece = true) : Active u x' := by
  have usable := active.usable
  have held : ∀ i, setBit x.cm.pieceField piece i = true ↔ i = piece ∨ x.cm.pieceField i = true := by
    intro i
    rw [setBit, Function.update_apply]
    by_cases same : i = piece <;> simp [same]
  rw [passed.eq, Item.dropPiece]
  refine ⟨⟨usable.sound, usable.error, usable.state, usable.rds, usable.wrs⟩, ?_, ⟨?_, ?_⟩,
    fun i lt' on => ?_, active.block, active.filled, fun i pc at_ => ?_⟩
  · exact fun _ => active.live ⟨piece, lt, missing⟩
  · have perm := filter_setBit_perm List.nodup_range (List.mem_range.mpr lt) missing
    dsimp only
    rw [List.countP_eq_length_filter, perm.length_eq, List.length_cons,
      ← List.countP_eq_length_filter, ← active.counted.got]
  · refine active.counted.bytes.trans (Cm.bytes_congr fun i less => ?_).symm
    by_cases same : i = piece
    · subst same
      have on : setBit x.cm.pieceField i i = true := (held i).mpr (.inl rfl)
      rw [Cm.pieceBytes, Cm.pieceBytes, missing, if_pos on, if_neg (by simp),
        sized.storedBytes_of_whole lt whole]
    · exact Cm.pieceBytes_congr (Function.update_of_ne same ..) fun _ _ => rfl
  · rcases (held i).mp on with rfl | before
    · exact set
    · exact active.held i lt' before
  · dsimp only at at_
    by_cases same : i = piece
    · rw [same, Function.update_self] at at_
      cases at_
    · rw [Function.update_of_ne same] at at_
      have fetched := active.fetched i pc at_
      exact ⟨fetched.lt, (Function.update_of_ne same ..).trans fetched.missing, fetched.alloc,
        fetched.ngot⟩

theorem Missed.active (missed : Missed u piece x x') (sized : Sized u) (active : Active u x)
    (lt : piece < u.npieces) (missing : x.cm.pieceField piece = false)
    (whole : x.cm.Whole u piece) : Active u x' := by
  have usable := active.usable
  obtain ⟨hashed, eq⟩ := missed.eq
  generalize dropped : ({ x.cm with
    ncontentBytes := x.cm.ncontentBytes - u.torrentPieceSize piece
    blockField := Function.update x.cm.blockField piece fun _ => false } : Cm) = cm at eq
  have clear : ∀ b, cm.blockField piece b = false := by
    rw [← dropped]
    exact fun b => congrFun (Function.update_self piece (fun _ => false) x.cm.blockField) b
  have others : ∀ i, i ≠ piece → cm.blockField i = x.cm.blockField i := by
    rw [← dropped]
    exact fun i ne => Function.update_of_ne ne ..
  have piece_ : cm.pieceField = x.cm.pieceField := by rw [← dropped]
  have pos : cm.posField = x.cm.posField := by rw [← dropped]
  have none : cm.stored u piece = [] := List.filter_eq_nil_iff.mpr fun b _ => by simp [clear]
  rw [eq, Item.restartPiece]
  refine ⟨?_, ?_, ⟨?_, ?_⟩, fun i lt on => ?_, fun i lt b block on => ?_, ?_, fun i pc at_ => ?_⟩
  · rw [← dropped]
    exact ⟨usable.sound, usable.error, usable.state, usable.rds, usable.wrs⟩
  · rw [← dropped]
    exact active.live
  · rw [← dropped]
    exact active.counted.got
  · have here : cm.pieceBytes u piece = x.cm.pieceBytes u piece + -(pieceSize u piece : Int) := by
      rw [Cm.pieceBytes, Cm.pieceBytes, piece_, missing, if_neg (by simp), if_neg (by simp),
        Cm.storedBytes_of_clear clear, sized.storedBytes_of_whole lt whole, Int.add_right_neg]
    have same : ∀ j < u.npieces, j ≠ piece → cm.pieceBytes u j = x.cm.pieceBytes u j :=
      fun j _ ne => Cm.pieceBytes_congr (congrFun piece_ j) fun b _ => congrFun (others j ne) b
    rw [Cm.bytes_of_change lt here same, ← active.counted.bytes, ← dropped,
      sized.torrentPieceSize_eq lt, Int.sub_eq_add_neg]
  · dsimp only at on ⊢
    rw [piece_] at on
    rw [pos]
    exact active.held i lt on
  · dsimp only at on ⊢
    rw [pos]
    by_cases same : i = piece
    · rw [same, clear] at on
      cases on
    · rw [others i same] at on
      exact active.block i lt b block on
  · rw [← dropped]
    exact active.filled
  · dsimp only at at_
    by_cases same : i = piece
    · subst same
      rw [Function.update_self, Option.map_eq_some_iff] at at_
      obtain ⟨pc, old, rfl⟩ := at_
      have fetched := active.fetched i pc old
      refine ⟨fetched.lt, ?_, ?_, ?_⟩
      · exact (congrFun piece_ i).trans missing
      · exact fun zero => (congrFun pos i).trans (fetched.alloc zero)
      · dsimp only
        rw [none]
        rfl
    · rw [Function.update_of_ne same] at at_
      have fetched := active.fetched i pc at_
      refine ⟨fetched.lt, ?_, ?_, ?_⟩
      · exact (congrFun piece_ i).trans fetched.missing
      · exact fun zero => (congrFun pos i).trans (fetched.alloc zero)
      · dsimp only
        rw [Cm.stored_congr fun b _ => congrFun (others i same) b]
        exact fetched.ngot

end Btpd.Content
