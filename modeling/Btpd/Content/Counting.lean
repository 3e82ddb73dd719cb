import Btpd.Content.Checking
import Mathlib

/-!
# Pieces and bytes that are there

How the pieces and the bytes of a torrent are counted: what `startup_test_end` finds in
the bit fields, and what `cm_put_bytes` and `cm_test_piece` add to it.
-/

namespace Btpd.Content

open Download (Torrent pieceBlocklen setBit)

variable {t : Torrent} {cm cm' : Cm} {i j b : Nat}

/-- The blocks of a piece that are recorded. -/
def Cm.stored (t : Torrent) (cm : Cm) (i : Nat) : List Nat :=
  (List.range (t.torrentPieceBlocks i)).filter (cm.blockField i)

/-- The sizes of the blocks of a piece that are recorded. -/
def Cm.storedBytes (t : Torrent) (cm : Cm) (i : Nat) : Int :=
  ((cm.stored t i).map fun b => (blockSize t i b : Int)).sum

/-- The bytes of a piece that count. -/
def Cm.pieceBytes (t : Torrent) (cm : Cm) (i : Nat) : Int :=
  if cm.pieceField i then (pieceSize t i : Int) else cm.storedBytes t i

/-- The bytes of the first pieces that count. -/
def Cm.bytes (t : Torrent) (cm : Cm) (upto : Nat) : Int :=
  ((List.range upto).map (cm.pieceBytes t)).sum

/-- All blocks of a piece are recorded. -/
def Cm.Whole (t : Torrent) (cm : Cm) (i : Nat) : Prop :=
  ∀ b < t.torrentPieceBlocks i, cm.blockField i b = true

theorem Cm.mem_stored : b ∈ cm.stored t i ↔ b < t.torrentPieceBlocks i ∧
    cm.blockField i b = true := by
  rw [stored, List.mem_filter, List.mem_range]

theorem Cm.whole_iff : cm.Whole t i ↔ (cm.stored t i).length = t.torrentPieceBlocks i := by
  unfold Whole stored
  rw [← List.countP_eq_length_filter]
  conv => rhs; rhs; rw [← List.length_range (n := t.torrentPieceBlocks i)]
  rw [List.countP_eq_length]
  simp only [List.mem_range]

instance : Decidable (cm.Whole t i) := decidable_of_iff _ Cm.whole_iff.symm

theorem Cm.stored_of_whole (whole : cm.Whole t i) :
    cm.stored t i = List.range (t.torrentPieceBlocks i) :=
  List.filter_eq_self.mpr fun b mem => whole b (List.mem_range.mp mem)

theorem sum_map_cast {α : Type} (l : List α) (f : α → Nat) :
    (l.map fun a => (f a : Int)).sum = ((l.map f).sum : Nat) := by
  induction l with
  | nil => rfl
  | cons a l ih => simp [ih]

theorem Sized.storedBytes_of_whole (sized : Sized t) (lt : i < t.npieces)
    (whole : cm.Whole t i) : cm.storedBytes t i = pieceSize t i := by
  rw [Cm.storedBytes, Cm.stored_of_whole whole, sum_map_cast, sized.sum_blockSize lt]

theorem Cm.storedBytes_of_clear (clear : ∀ b, cm.blockField i b = false) :
    cm.storedBytes t i = 0 := by
  have none : cm.stored t i = [] := List.filter_eq_nil_iff.mpr fun b _ => by simp [clear]
  rw [storedBytes, none]
  rfl

theorem Cm.stored_congr (same : ∀ b < t.torrentPieceBlocks i,
    cm'.blockField i b = cm.blockField i b) : cm'.stored t i = cm.stored t i :=
  List.filter_congr fun b mem => same b (List.mem_range.mp mem)

theorem Cm.pieceBytes_congr (piece : cm'.pieceField i = cm.pieceField i)
    (same : ∀ b < t.torrentPieceBlocks i, cm'.blockField i b = cm.blockField i b) :
    cm'.pieceBytes t i = cm.pieceBytes t i := by
  rw [pieceBytes, pieceBytes, piece, storedBytes, storedBytes, stored_congr same]

theorem Cm.bytes_succ : cm.bytes t (i + 1) = cm.bytes t i + cm.pieceBytes t i := by
  rw [bytes, bytes, List.range_succ, List.map_append, List.sum_append, List.map_singleton,
    List.sum_singleton]

theorem Cm.bytes_congr {upto : Nat}
    (same : ∀ i < upto, cm'.pieceBytes t i = cm.pieceBytes t i) :
    cm'.bytes t upto = cm.bytes t upto := by
  rw [bytes, bytes]
  exact congrArg List.sum (List.map_congr_left fun i mem => same i (List.mem_range.mp mem))

/-- One piece counts for more or less. -/
theorem Cm.bytes_of_change {upto : Nat} {d : Int} (lt : i < upto)
    (changed : cm'.pieceBytes t i = cm.pieceBytes t i + d)
    (same : ∀ j < upto, j ≠ i → cm'.pieceBytes t j = cm.pieceBytes t j) :
    cm'.bytes t upto = cm.bytes t upto + d := by
  induction upto with
  | zero => cases lt
  | succ upto ih =>
      rw [bytes_succ, bytes_succ]
      rcases Nat.lt_succ_iff_lt_or_eq.mp lt with inner | rfl
      · rw [ih inner fun j less => same j (Nat.lt_succ_of_lt less),
          same upto (Nat.lt_succ_self _) (Nat.ne_of_gt inner)]
        omega
      · rw [changed, bytes_congr fun j less => same j (Nat.lt_succ_of_lt less) (Nat.ne_of_lt less)]
        omega

/-- The counters are right. -/
structure Counted (t : Torrent) (cm : Cm) : Prop where
  got : cm.npiecesGot = (List.range t.npieces).countP cm.pieceField
  bytes : cm.ncontentBytes = cm.bytes t t.npieces

/-! ## What counts -/

theorem Cm.storedBytes_nonneg : 0 ≤ cm.storedBytes t i := by
  rw [storedBytes, sum_map_cast]
  exact Int.natCast_nonneg _

theorem Cm.pieceBytes_nonneg : 0 ≤ cm.pieceBytes t i := by
  unfold pieceBytes
  split
  · exact Int.natCast_nonneg _
  · exact storedBytes_nonneg

theorem Cm.bytes_nonneg {upto : Nat} : 0 ≤ cm.bytes t upto := by
  induction upto with
  | zero => exact Int.le_refl _
  | succ upto ih =>
      rw [bytes_succ]
      exact Int.add_nonneg ih pieceBytes_nonneg

/-- Some block counts for nothing. -/
theorem Sized.storedBytes_lt (sized : Sized t) (lt : i < t.npieces)
    (missing : ¬ cm.Whole t i) : cm.storedBytes t i < pieceSize t i := by
  have some : ∃ b < t.torrentPieceBlocks i, cm.blockField i b = false := by
    by_contra none
    refine missing fun b block => ?_
    by_contra clear
    exact none ⟨b, block, (Bool.not_eq_true _).mp clear⟩
  obtain ⟨b, block, clear⟩ := some
  have smaller : ∀ l : List Nat, b ∈ l →
      ((l.filter (cm.blockField i)).map (blockSize t i)).sum + blockSize t i b ≤
        (l.map (blockSize t i)).sum := by
    intro l
    induction l with
    | nil => exact nofun
    | cons a l ih =>
        have rest : ((l.filter (cm.blockField i)).map (blockSize t i)).sum ≤
            (l.map (blockSize t i)).sum :=
          List.Sublist.sum_le_sum (List.filter_sublist.map _) fun _ _ => Nat.zero_le _
        intro mem
        rw [List.filter_cons]
        rcases List.mem_cons.mp mem with rfl | mem
        · rw [clear, if_neg (by simp), List.map_cons, List.sum_cons]
          omega
        · have less := ih mem
          split
          · rw [List.map_cons, List.map_cons, List.sum_cons, List.sum_cons]
            omega
          · rw [List.map_cons, List.sum_cons]
            omega
  have less := smaller _ (List.mem_range.mpr block)
  have positive := sized.blockSize_pos lt block
  rw [sized.sum_blockSize lt] at less
  rw [Cm.storedBytes, sum_map_cast]
  unfold Cm.stored
  omega

theorem Sized.pieceBytes_le (sized : Sized t) (lt : i < t.npieces) :
    cm.pieceBytes t i ≤ pieceSize t i := by
  unfold Cm.pieceBytes
  split
  · exact Int.le_refl _
  · by_cases whole : cm.Whole t i
    · exact Int.le_of_eq (sized.storedBytes_of_whole lt whole)
    · exact Int.le_of_lt (sized.storedBytes_lt lt whole)

/-- A piece counts in full if and only if it is held or all its blocks are recorded. -/
theorem Sized.pieceBytes_eq_iff (sized : Sized t) (lt : i < t.npieces) :
    cm.pieceBytes t i = pieceSize t i ↔ cm.pieceField i = true ∨ cm.Whole t i := by
  unfold Cm.pieceBytes
  split
  case isTrue held => exact iff_of_true rfl (.inl held)
  case isFalse missing =>
    constructor
    · intro eq
      by_contra none
      have lt := sized.storedBytes_lt lt fun whole => none (.inr whole)
      omega
    · rintro (held | whole)
      · exact absurd held missing
      · exact sized.storedBytes_of_whole lt whole

/-- All bytes count if and only if each piece is held or all its blocks are recorded. -/
theorem Sized.bytes_eq_iff (sized : Sized t) : cm.bytes t t.npieces = t.totalLength ↔
    ∀ i < t.npieces, cm.pieceField i = true ∨ cm.Whole t i := by
  have upto : ∀ n ≤ t.npieces,
      cm.bytes t n ≤ (((List.range n).map (pieceSize t)).sum : Nat) ∧
        (cm.bytes t n = (((List.range n).map (pieceSize t)).sum : Nat) ↔
          ∀ i < n, cm.pieceField i = true ∨ cm.Whole t i) := by
    intro n
    induction n with
    | zero => exact fun _ => ⟨Int.le_refl _, iff_of_true rfl nofun⟩
    | succ n ih =>
        intro le
        obtain ⟨below, each⟩ := ih (Nat.le_of_succ_le le)
        have last : cm.pieceBytes t n ≤ pieceSize t n := sized.pieceBytes_le le
        have exactly : cm.pieceBytes t n = pieceSize t n ↔
            cm.pieceField n = true ∨ cm.Whole t n := sized.pieceBytes_eq_iff le
        rw [Cm.bytes_succ, List.range_succ, List.map_append, List.sum_append,
          List.map_singleton, List.sum_singleton, Int.natCast_add]
        refine ⟨Int.add_le_add below last, ?_⟩
        have parts : cm.bytes t n + cm.pieceBytes t n =
            (((List.range n).map (pieceSize t)).sum : Nat) + (pieceSize t n : Int) ↔
            cm.bytes t n = (((List.range n).map (pieceSize t)).sum : Nat) ∧
              cm.pieceBytes t n = pieceSize t n := by
          constructor
          · intro eq
            constructor <;> omega
          · rintro ⟨first, second⟩
            rw [first, second]
        rw [parts, each, exactly]
        constructor
        · rintro ⟨before, here⟩ i less
          rcases Nat.lt_succ_iff_lt_or_eq.mp less with inner | rfl
          · exact before i inner
          · exact here
        · intro all
          exact ⟨fun i less => all i (Nat.lt_succ_of_lt less), all n (Nat.lt_succ_self n)⟩
  have whole := (upto t.npieces (Nat.le_refl _)).2
  rw [sized.sum_pieceSize_eq] at whole
  exact whole

end Btpd.Content
