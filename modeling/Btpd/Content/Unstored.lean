import Btpd.Content.Steady
import Btpd.Library.Count

/-!
# Blocks that are not stored

What `dl_on_block` leaves behind when `cm_put_bytes` gives back an error: the block counts
as one that has come, and its bit is not set.
-/

namespace Btpd.Content

open Prog
open Download (Torrent pieceBlocklen setBit)

variable {t : Nat → Torrent} {n m index i : Nat} {s s' : Contents} {e : CmEvent}
  {callers : List Fn} {k : Contract Contents Fn CmFault} {more less : Nat} {x x' : Item}

/-- The blocks of a piece whose bits are set in `have_field`. -/
def Cm.blocksGot (u : Torrent) (cm : Cm) (i : Nat) : Nat :=
  (List.range (u.torrentPieceBlocks i)).countP (cm.blockField i)

/-- A piece that is being downloaded counts its blocks, up to some that it counts though
their bits are clear and some whose bits are set before they count. -/
def Item.Covered (u : Torrent) (i more less : Nat) (x : Item) : Prop :=
  ∀ pc, x.piece i = some pc → x.cm.blocksGot u i + more ≤ pc.ngot + less

/-- The same of one of all torrents. -/
def Covered (t : Nat → Torrent) (n i more less : Nat) (s : Contents) : Prop :=
  (s.item n).Covered (t n) i more less

theorem Cm.blocksGot_le {u : Torrent} {cm cm' : Cm}
    (fewer : ∀ b, cm'.blockField i b = true → cm.blockField i b = true) :
    cm'.blocksGot u i ≤ cm.blocksGot u i :=
  List.countP_mono_left fun b _ => fewer b

theorem Item.Covered.mild {u : Torrent} (covered : x.Covered u i more less)
    (mild : Mild x x') : x'.Covered u i more less := by
  intro pc' at_
  obtain ⟨pc, before, le⟩ := mild.piece i pc' at_
  have bound := covered pc before
  have fewer : x'.cm.blocksGot u i ≤ x.cm.blocksGot u i := Cm.blocksGot_le (mild.block i)
  omega

theorem covered_setItem_of_ne (other : m ≠ n) :
    Covered t m i more less (s.setItem n x) ↔ Covered t m i more less s := by
  unfold Covered
  rw [Contents.setItem_of_ne other]

theorem covered_setItem :
    Covered t n i more less (s.setItem n x) ↔ x.Covered (t n) i more less := by
  unfold Covered
  rw [Contents.setItem_self]

theorem steady_covered : Steady (Covered t m i more less) where
  mild s n x mild covered := by
    by_cases same : m = n
    · subst same
      exact covered_setItem.mpr (Item.Covered.mild covered mild)
    · exact (covered_setItem_of_ne same).mpr covered
  leave _ _ covered := covered
  join _ _ covered := covered

/-- Of another piece a change of one piece says nothing. -/
theorem Item.covered_of_ne {u : Torrent} {pc : Option Piece} (other : i ≠ index) :
    ({ x with piece := Function.update x.piece index pc } : Item).Covered u i more less ↔
      x.Covered u i more less := by
  unfold Covered
  dsimp only
  rw [Function.update_of_ne other]

/-! ## New and bad pieces -/

theorem keeps_dlNewPiece : Keeps whenReturns (Covered t m i 0 0) (dlNewPiece t n index) := by
  have steady : Steady (Covered t m i 0 0) := steady_covered
  refine keeps_seq (keeps_when (steady.setOther fun _ => rfl)) fun _ callers s covered => ?_
  rw [wp_bind, wp_content]
  dsimp only
  rw [wp_bind, wp_assert]
  split
  case isFalse => trivial
  case isTrue =>
    refine wp_modify.mpr ?_
    by_cases same : m = n
    · subst same
      refine covered_setItem.mpr ?_
      by_cases here : i = index
      · subst here
        intro pc at_
        dsimp only at at_
        rw [Function.update_self] at at_
        obtain rfl := Option.some.inj at_
        exact Nat.le_refl _
      · exact (Item.covered_of_ne here).mpr covered
    · exact (covered_setItem_of_ne same).mpr covered

/-- All bits of a piece are clear. -/
theorem Cm.blocksGot_of_clear {u : Torrent} {cm : Cm} (clear : ∀ b, cm.blockField i b = false) :
    cm.blocksGot u i = 0 :=
  List.countP_eq_zero.mpr fun b _ => by simp [clear]

/-- All blocks of a piece whose bits are clear have to come again. -/
theorem keeps_zero (callers : List Fn) (s : Contents)
    (covered : Covered t m i 0 0 s) (clear : ∀ b, (s.item n).cm.blockField index b = false) :
    (changePiece n index fun pc => { pc with ngot := 0 }).wp k callers
      (fun _ s' => Covered t m i 0 0 s') s := by
  refine wp_modify.mpr ?_
  by_cases same : m = n
  · subst same
    refine covered_setItem.mpr ?_
    by_cases here : i = index
    · subst here
      intro pc at_
      have none : (s.item m).cm.blocksGot (t m) i = 0 := Cm.blocksGot_of_clear clear
      dsimp only at at_ ⊢
      rw [none]
      exact Nat.zero_le _
    · exact (Item.covered_of_ne here).mpr covered
  · exact (covered_setItem_of_ne same).mpr covered

theorem keeps_cmPieceBad {sole : Bool} :
    Keeps whenReturns (Covered t m i 0 0) (cmPieceBad t n index sole) := by
  have steady : Steady (Covered t m i 0 0) := steady_covered
  intro callers s covered
  have after := steady.mild s n { s.item n with cm := { (s.item n).cm with
    ncontentBytes := (s.item n).cm.ncontentBytes - (t n).torrentPieceSize index
    blockField := Function.update (s.item n).cm.blockField index fun _ => false } }
    (.of_content fun _ _ => block_of_update) covered
  unfold cmPieceBad
  rw [wp_bind, setContent, setItem, wp_modify, wp_bind, wp_item, wp_when]
  split
  case isFalse => exact after
  case isTrue =>
    refine wp_seq (keeps_zero callers _ after fun b => ?_) fun _ s' covered' => ?_
    · rw [Contents.setItem_self]
      exact congrFun (Function.update_self index (fun _ => false) (s.item n).cm.blockField) b
    · refine keeps_when (keeps_seq steady.pieceLogHashes fun _ => ?_) callers s' covered'
      exact steady.changePiece fun _ => Nat.le_refl _

/-! ## Blocks -/

theorem Cm.blocksGot_setBit (u : Torrent) (cm : Cm) (b : Nat) :
    (List.range (u.torrentPieceBlocks i)).countP (setBit (cm.blockField i) b) ≤
      cm.blocksGot u i + 1 := by
  unfold setBit blocksGot
  cases unset : cm.blockField i b with
  | true =>
      rw [← unset, Function.update_eq_self]
      exact Nat.le_succ _
  | false =>
      by_cases mem : b ∈ List.range (u.torrentPieceBlocks i)
      · exact Nat.le_of_eq (Count.countP_update List.nodup_range mem unset)
      · rw [Count.countP_update_of_notMem mem]
        exact Nat.le_succ _

/-- The number of blocks that may be stored without being counted. -/
def uncounted (stored : Prop) [Decidable stored] (m i n index : Nat) : Nat :=
  if stored ∧ m = n ∧ i = index then 1 else 0

theorem Covered.slack (covered : Covered t m i 0 0 s) : Covered t m i 0 less s := by
  intro pc at_
  have bound := covered pc at_
  omega

theorem covered_stored {begin bytes : Nat} (covered : Covered t m i 0 0 s) :
    (setContent n fun cm => { cm with
      ncontentBytes := cm.ncontentBytes + bytes
      blockField := Function.update cm.blockField index
        (setBit (cm.blockField index) (begin / pieceBlocklen)) }).wp k callers
      (fun _ s' => Covered t m i 0 (uncounted True m i n index) s') s := by
  refine wp_modify.mpr ?_
  by_cases same : m = n
  · subst same
    refine covered_setItem.mpr fun pc at_ => ?_
    have bound := covered pc at_
    unfold Cm.blocksGot
    dsimp only
    by_cases here : i = index
    · subst here
      have one : uncounted True m i m i = 1 := if_pos ⟨trivial, rfl, rfl⟩
      have le := (s.item m).cm.blocksGot_setBit (i := i) (t m) (begin / pieceBlocklen)
      rw [Function.update_self, one]
      omega
    · rw [Function.update_of_ne here]
      exact Nat.le_trans bound (Nat.le_add_right ..)
  · exact (covered_setItem_of_ne same).mpr covered.slack

theorem cmPutBytes_covered {begin : Nat} {buf : List UInt8} (covered : Covered t m i 0 0 s) :
    (cmPutBytes t n index begin buf).wp whenReturns callers
      (fun err s' => Covered t m i 0 (uncounted (err = none) m i n index) s') s := by
  have steady : Steady (Covered t m i 0 0) := steady_covered
  refine wp_seq (keeps_content callers s covered) fun cm s₁ covered₁ => ?_
  rw [wp_ite]
  split
  · exact wp_pure.mpr covered₁.slack
  refine wp_seq (keeps_content callers s₁ covered₁) fun cm s₂ covered₂ => ?_
  refine wp_seq (keeps_assert trivial callers s₂ covered₂) fun _ s₃ covered₃ => ?_
  refine wp_seq (keeps_assert trivial callers s₃ covered₃) fun _ s₄ covered₄ => ?_
  refine wp_seq (steady.allocateNew callers s₄ covered₄) fun err s₅ covered₅ => ?_
  cases err with
  | some e => exact wp_pure.mpr covered₅.slack
  | none =>
      refine wp_seq (steady.useStream callers s₅ covered₅) fun err s₆ covered₆ => ?_
      cases err with
      | some e =>
          refine wp_seq (steady.cmOnError callers s₆ covered₆) fun _ s₇ covered₇ => ?_
          exact wp_pure.mpr covered₇.slack
      | none =>
          refine wp_seq (covered_stored covered₆) fun _ s₇ covered₇ => ?_
          exact wp_pure.mpr (by simpa [uncounted] using covered₇)

/-- Another block of the piece has come. -/
theorem covered_count (covered : Covered t n index more less s) :
    (changePiece n index fun pc => { pc with ngot := pc.ngot + 1 }).wp k callers
      (fun _ s' => Covered t n index (more + 1) less s') s := by
  refine wp_modify.mpr (covered_setItem.mpr fun pc' at_ => ?_)
  dsimp only at at_
  rw [Function.update_self] at at_
  obtain ⟨pc, before, rfl⟩ := Option.map_eq_some_iff.mp at_
  have bound := covered pc before
  dsimp only at bound ⊢
  omega

theorem keeps_dlOnBlock {block : Nat} {buf : List UInt8} {sole : Bool} :
    Keeps whenReturns (Covered t m i 0 0) (dlOnBlock t n index block buf sole) := by
  have steady : Steady (Covered t m i 0 0) := steady_covered
  intro callers s covered
  refine wp_seq (cmPutBytes_covered covered) fun err s₁ covered₁ => ?_
  have counted : (changePiece n index fun pc => { pc with ngot := pc.ngot + 1 }).wp whenReturns
      callers (fun _ s' => Covered t m i 0 0 s') s₁ := by
    by_cases here : m = n ∧ i = index
    · obtain ⟨rfl, rfl⟩ := here
      refine wp_mono (covered_count covered₁) fun _ s₂ covered₂ pc at_ => ?_
      have bound := covered₂ pc at_
      have le : uncounted (err = none) m i m i ≤ 1 := by
        unfold uncounted
        split <;> omega
      omega
    · have zero : uncounted (err = none) m i n index = 0 := if_neg fun all => here all.2
      rw [zero] at covered₁
      exact steady.changePiece (fun _ => Nat.le_succ _) callers s₁ covered₁
  refine wp_seq counted fun _ s₂ covered₂ => ?_
  refine wp_seq (keeps_item callers s₂ covered₂) fun y s₃ covered₃ => ?_
  exact keeps_when (steady.cmTestPiece keeps_cmPieceBad) callers s₃ covered₃

/-! ## Runs -/

/-- The queue and the timer do not matter. -/
theorem keeps_queue {q : Contents → List StartTestData} {w : Contents → Bool} :
    Keeps k (Covered t m i more less) (modify fun s => { s with startq := q s, workev := w s }) :=
  keeps_modify fun _ covered => covered

theorem keeps_popTested : Keeps whenReturns (Covered t m i more less) (popTested t n) := by
  refine keeps_get fun callers s covered => ?_
  cases s.startq with
  | nil => exact wp_fault.mpr trivial
  | cons std rest =>
      refine wp_seq (keeps_queue (w := Contents.workev) callers s covered) fun _ s₁ covered₁ => ?_
      refine steady_covered.setOther ?_ callers s₁ covered₁
      exact fun _ => rfl

theorem keeps_testedPiece {std : StartTestData} {ok : Bool} :
    Keeps whenReturns (Covered t m i more less) (testedPiece t std ok) := by
  have steady : Steady (Covered t m i more less) := steady_covered
  refine keeps_seq (steady.setOther fun _ => rfl) fun _ => keeps_seq keeps_content fun cm => ?_
  refine keeps_seq (keeps_queue (w := Contents.workev)) fun _ => ?_
  refine keeps_seq (keeps_when ?_) fun _ => keeps_queue (q := Contents.startq)
  refine keeps_seq (steady.setOther fun _ => rfl) fun _ => keeps_seq steady.endPieces fun _ => ?_
  exact keeps_seq (keeps_when keeps_popTested) fun _ => steady.activate

theorem keeps_startupTestRun : Keeps whenReturns (Covered t m i more less) (startupTestRun t) := by
  refine keeps_get fun callers s covered => ?_
  cases s.startq with
  | nil => exact wp_pure.mpr covered
  | cons std rest =>
      refine wp_seq (steady_covered.testPiece callers s covered) fun r s₁ covered₁ => ?_
      cases r with
      | error e => exact steady_covered.cmOnError callers s₁ covered₁
      | ok ok => exact keeps_testedPiece callers s₁ covered₁

theorem cmHandle_covered (covered : Covered t m i 0 0 s) (e : CmEvent) :
    (cmHandle t e).wp whenReturns [] (fun _ s' => Covered t m i 0 0 s') s := by
  unfold cmHandle
  rw [wp_bind, wp_get, wp_when]
  split
  case isFalse => exact covered
  case isTrue =>
    by_cases other : e ≠ .work
    · exact steady_covered.act other (fun _ _ => keeps_dlNewPiece)
        (fun _ _ _ _ _ => keeps_dlOnBlock) [] s covered
    · obtain rfl := not_not.mp other
      refine wp_bind.mpr (wp_modify.mpr ?_)
      exact keeps_startupTestRun [] _ covered

/-- In every state of a run a piece that is being downloaded has counted the blocks that
are stored. -/
theorem covered_of_reachable (reached : (daemon t).Reachable (fun _ => False) s) (n i : Nat) :
    Covered t n i 0 0 s := by
  refine reached.invariant _ (fun _ => True) (fun s (init : s.Init t) pc at_ => ?_)
    fun s e _ covered => cmHandle_covered covered e
  rw [init.piece] at at_
  cases at_

variable (t) in
/-- `cm_put_bytes` gives back an error for the block. -/
def PutFails (s : Contents) (n index i : Nat) (buf : List UInt8) : Prop :=
  match (cmPutBytes t n index (i * pieceBlocklen) buf [] s).2 with
  | .ok (some _, _) => True
  | _ => False

instance {buf : List UInt8} : Decidable (PutFails t s n index i buf) := by
  unfold PutFails
  split <;> infer_instance

/-- The routine tests the piece. -/
def Tests (n index : Nat) (c : Call Contents Fn) : Prop := c.fn = .cmTestPiece n index

/-- A block that is not stored counts, and the piece is tested if it was the last one. -/
theorem dlOnBlock_unstored {b : Nat} {buf : List UInt8} {sole : Bool}
    (covered : Covered t n index 0 0 s) (fails : PutFails t s n index b buf) :
    (dlOnBlock t n index b buf sole).wp ⟨Tests n index, fun _ => True⟩ []
      (fun _ s' => Covered t n index 1 0 s') s := by
  obtain ⟨e, s₁, ended⟩ : ∃ e s₁,
      (cmPutBytes t n index (b * pieceBlocklen) buf [] s).2 = .ok (some e, s₁) := by
    unfold PutFails at fails
    split at fails
    · exact ⟨_, _, ‹_›⟩
    · exact fails.elim
  have covered₁ : Covered t n index 0 0 s₁ := by
    have after := wp_whenReturns_iff.mp (cmPutBytes_covered covered) (some e) s₁ ended
    rwa [uncounted, if_neg fun all => Option.some_ne_none e all.1] at after
  refine wp_bind.mpr (wp_of_ok ended ?_)
  refine wp_seq (covered_count covered₁) fun _ s₂ covered₂ => ?_
  rw [wp_bind, wp_item, wp_when]
  split
  · exact wp_call.mpr (.inl rfl)
  · exact covered₂

/-- `dl_on_block` leaves the piece as it should: it counts the blocks whose bits are set, and
has not been tested. -/
def Consistent (t : Nat → Torrent) (s : Contents) (e : CmEvent) (n index : Nat) : Prop :=
  ∃ s', (daemon t).Steps (Tests n index) s e s' ∧
    ∃ pc, (s'.item n).piece index = some pc ∧ pc.ngot = (s'.item n).cm.blocksGot (t n) index

/-- No block that is not stored leaves the piece as it should. -/
theorem not_consistent_of_putFails {b : Nat} {buf : List UInt8} {sole : Bool}
    (reached : (daemon t).Reachable (fun _ => False) s)
    (allowed : (CmEvent.block n index b buf sole).Allowed t s)
    (fails : PutFails t s n index b buf) :
    ¬Consistent t s (.block n index b buf sole) n index := by
  rintro ⟨s', steps, pc, at_, eq⟩
  have met : (cmHandle t (.block n index b buf sole)).wp ⟨Tests n index, fun _ => True⟩ []
      (fun _ s' => Covered t n index 1 0 s') s := by
    unfold cmHandle
    rw [wp_bind, wp_get, wp_when, if_pos allowed]
    exact dlOnBlock_unstored (covered_of_reachable reached n index) fails
  have covered : Covered t n index 1 0 s' := steps.of_wp met
  have bound := covered pc at_
  omega

/-- The block of the first of two pieces cannot be written. -/
abbrev lostBlock : CmEvent := .block 0 0 0 [1, 2] true

theorem not_consistent_of_putFails_lostBlock :
    ∃ s, (daemon twoPieces).Reachable (fun _ => False) s ∧
      PutFails twoPieces s 0 0 0 [1, 2] ∧ ¬Consistent twoPieces s lostBlock 0 0 := by
  obtain ⟨s, reached, allowed, fails⟩ := System.Reachable.of_after
    (P := fun s => lostBlock.Allowed twoPieces s ∧ PutFails twoPieces s 0 0 0 [1, 2])
    [.start 0 false, .tick 0, .newPiece 0 0] (reachable_ofFile (fun _ => False) [] false 5)
    (by decide +kernel)
  exact ⟨s, reached, fails, not_consistent_of_putFails reached allowed fails⟩

/-- The piece that has no block is tested, by the use of a stream that has been closed. -/
theorem not_consistent :
    ¬∀ t s n index b buf sole, (daemon t).Reachable (fun _ => False) s →
      (CmEvent.block n index b buf sole).Allowed t s → PutFails t s n index b buf →
      Consistent t s (.block n index b buf sole) n index := by
  intro claim
  obtain ⟨s, reached, allowed, fails, ended⟩ := System.Reachable.of_after
    (P := fun s => lostBlock.Allowed twoPieces s ∧ PutFails twoPieces s 0 0 0 [1, 2] ∧
      (daemon twoPieces).outcome [lostBlock] s = some .usedClosed)
    [.start 0 false, .tick 0, .newPiece 0 0] (reachable_ofFile (fun _ => False) [] false 5)
    (by decide +kernel)
  obtain ⟨s', ⟨returned, -⟩, -⟩ := claim twoPieces s 0 0 0 [1, 2] true reached allowed fails
  unfold System.outcome at ended
  rw [returned] at ended
  cases ended

end Btpd.Content
