import Btpd.Content.Counting

/-!
# The end of the start

What `startup_test_end` makes of the bit fields: it counts what is there, drops the
blocks of pieces that are complete but not held, and marks the others as allocated.
-/

namespace Btpd.Content

open Prog
open Download (Torrent pieceBlocklen setBit)

variable {t : Nat → Torrent} {n : Nat} {s : Contents} {x x' x'' : Item} {cm cm' : Cm}
  {callers : List Fn} {k : Contract Contents Fn CmFault} {u : Torrent} {piece i j : Nat}

/-- The blocks of a piece are dropped at the end of the start. -/
def Cm.Dropped (u : Torrent) (cm : Cm) (i : Nat) : Prop :=
  cm.pieceField i = false ∧ cm.Whole u i

instance : Decidable (cm.Dropped u i) := inferInstanceAs (Decidable (_ ∧ _))

/-- The content after the first pieces in the loop of `startup_test_end`. -/
structure Surveyed (u : Torrent) (upto : Nat) (cm cm' : Cm) : Prop where
  got : cm'.npiecesGot = cm.npiecesGot + (List.range upto).countP cm.pieceField
  bytes : cm'.ncontentBytes = cm.ncontentBytes + cm'.bytes u upto
  block : ∀ i, cm'.blockField i =
    if i < upto ∧ cm.Dropped u i then fun _ => false else cm.blockField i
  pos : ∀ i, cm'.posField i = true ↔ cm.posField i = true ∨ i < upto ∧
    (cm.pieceField i = true ∨ ¬ cm.Whole u i ∧ cm.stored u i ≠ [])
  eq : cm' = { cm with
    npiecesGot := cm'.npiecesGot
    ncontentBytes := cm'.ncontentBytes
    blockField := cm'.blockField
    posField := cm'.posField }

theorem Surveyed.zero : Surveyed u 0 cm cm where
  got := rfl
  bytes := (Int.add_zero _).symm
  block i := (if_neg fun h => absurd h.1 (Nat.not_lt_zero i)).symm
  pos i := by simp
  eq := rfl

/-- What the loop does to a piece whose blocks are all recorded. -/
def Cm.dropBlocks (u : Torrent) (cm : Cm) (i : Nat) : Cm := { cm with
  ncontentBytes := cm.ncontentBytes + cm.storedBytes u i - u.torrentPieceSize i
  blockField := Function.update cm.blockField i fun _ => false }

/-- What the loop does to a piece of which some blocks are recorded, or none. -/
def Cm.countBlocks (u : Torrent) (cm : Cm) (i : Nat) : Cm := { cm with
  ncontentBytes := cm.ncontentBytes + cm.storedBytes u i
  posField := if cm.stored u i = [] then cm.posField else setBit cm.posField i }

/-- The three things that the loop does to a piece. -/
theorem endPiece_eq : cm.endPiece u i =
    if cm.pieceField i then { cm with
      ncontentBytes := cm.ncontentBytes + u.torrentPieceSize i
      npiecesGot := cm.npiecesGot + 1
      posField := setBit cm.posField i }
    else if cm.Whole u i then cm.dropBlocks u i
    else cm.countBlocks u i := by
  unfold Cm.endPiece
  split
  · rfl
  · dsimp only
    change (if (cm.stored u i).length = u.torrentPieceBlocks i then _ else
      if 0 < (cm.stored u i).length then _ else _) = _
    by_cases whole : cm.Whole u i
    · rw [if_pos (Cm.whole_iff.mp whole), if_pos whole]
      rfl
    · rw [if_neg (mt Cm.whole_iff.mpr whole), if_neg whole]
      by_cases none : cm.stored u i = []
      · rw [if_neg (by simp [none])]
        simp only [Cm.countBlocks, none, if_true]
        rfl
      · rw [if_pos (List.length_pos_iff.mpr none)]
        simp only [Cm.countBlocks, none, if_false]
        rfl

section Step

variable (sized : Sized u) (lt : i < u.npieces) (surveyed : Surveyed u i cm cm')

include surveyed

theorem Surveyed.held_eq : cm'.pieceField = cm.pieceField := by
  rw [surveyed.eq]

theorem Surveyed.blocks_eq : cm'.blockField i = cm.blockField i := by
  rw [surveyed.block, if_neg fun h => absurd h.1 (Nat.lt_irrefl i)]

theorem Surveyed.whole_iff : cm'.Whole u i ↔ cm.Whole u i := by
  unfold Cm.Whole
  rw [surveyed.blocks_eq]

omit surveyed in
theorem lt_succ_of_ne (ne : j ≠ i) : j < i + 1 ↔ j < i := by
  omega

/-- A piece whose blocks are not dropped leaves the block fields alone. -/
theorem Surveyed.block_of_not_dropped (kept : ¬ cm.Dropped u i) (j : Nat) : cm'.blockField j =
    if j < i + 1 ∧ cm.Dropped u j then fun _ => false else cm.blockField j := by
  rw [surveyed.block]
  refine if_congr ⟨fun h => ⟨Nat.lt_succ_of_lt h.1, h.2⟩, fun h => ⟨?_, h.2⟩⟩ rfl rfl
  refine Nat.lt_of_le_of_ne (Nat.le_of_lt_succ h.1) ?_
  rintro rfl
  exact kept h.2

include sized lt

/-- The piece is held. -/
theorem Surveyed.step_held (set : cm'.pieceField i = true) : Surveyed u (i + 1) cm { cm' with
    ncontentBytes := cm'.ncontentBytes + u.torrentPieceSize i
    npiecesGot := cm'.npiecesGot + 1
    posField := setBit cm'.posField i } := by
  have held : cm.pieceField i = true := surveyed.held_eq ▸ set
  refine ⟨?_, ?_, ?_, fun j => ?_, ?_⟩
  · rw [List.range_succ, List.countP_append, List.countP_singleton, if_pos held]
    exact congrArg (· + 1) surveyed.got
  · rw [Cm.bytes_succ, Cm.pieceBytes, if_pos set, sized.torrentPieceSize_eq lt]
    change cm'.ncontentBytes + _ = cm.ncontentBytes + (cm'.bytes u i + _)
    rw [surveyed.bytes, Int.add_assoc]
  · exact surveyed.block_of_not_dropped fun dropped => by simp [dropped.1] at held
  · change setBit cm'.posField i j = true ↔ _
    rw [setBit, Function.update_apply]
    by_cases same : j = i
    · subst same
      simp [held]
    · rw [if_neg same, surveyed.pos, lt_succ_of_ne same]
  · rw [surveyed.eq]

/-- All blocks of the piece are recorded. -/
theorem Surveyed.step_whole (clear : cm'.pieceField i = false) (all : cm'.Whole u i) :
    Surveyed u (i + 1) cm (cm'.dropBlocks u i) := by
  have missing : cm.pieceField i = false := surveyed.held_eq ▸ clear
  have dropped : cm.Dropped u i := ⟨missing, surveyed.whole_iff.mp all⟩
  refine ⟨?_, ?_, fun j => ?_, fun j => ?_, ?_⟩
  · rw [List.range_succ, List.countP_append, List.countP_singleton, missing, if_neg (by simp)]
    exact surveyed.got
  · have before : (cm'.dropBlocks u i).bytes u i = cm'.bytes u i :=
      Cm.bytes_congr fun j less => Cm.pieceBytes_congr rfl fun b _ =>
        congrFun (Function.update_of_ne (Nat.ne_of_lt less) ..) b
    have none : (cm'.dropBlocks u i).pieceBytes u i = 0 := by
      refine (if_neg (by simp [Cm.dropBlocks, clear])).trans (Cm.storedBytes_of_clear fun b => ?_)
      exact congrFun (Function.update_self i (fun _ => false) cm'.blockField) b
    rw [Cm.bytes_succ, before, none, Cm.dropBlocks, sized.storedBytes_of_whole lt all,
      sized.torrentPieceSize_eq lt, Int.add_sub_cancel, Int.add_zero]
    exact surveyed.bytes
  · change Function.update cm'.blockField i (fun _ => false) j = _
    rw [Function.update_apply]
    by_cases same : j = i
    · subst same
      rw [if_pos rfl, if_pos ⟨Nat.lt_succ_self _, dropped⟩]
    · rw [if_neg same, surveyed.block]
      exact if_congr (and_congr_left' (lt_succ_of_ne same).symm) rfl rfl
  · change cm'.posField j = true ↔ _
    rw [surveyed.pos]
    by_cases same : j = i
    · subst same
      simp [missing, dropped.2]
    · rw [lt_succ_of_ne same]
  · rw [Cm.dropBlocks, surveyed.eq]

omit sized lt in
/-- Some blocks of the piece are recorded, or none. -/
theorem Surveyed.step_partial (clear : cm'.pieceField i = false) (some : ¬ cm'.Whole u i) :
    Surveyed u (i + 1) cm (cm'.countBlocks u i) := by
  have missing : cm.pieceField i = false := surveyed.held_eq ▸ clear
  have kept : ¬ cm.Whole u i := mt surveyed.whole_iff.mpr some
  have stored : cm'.stored u i = cm.stored u i :=
    Cm.stored_congr fun b _ => congrFun surveyed.blocks_eq b
  refine ⟨?_, ?_, ?_, fun j => ?_, ?_⟩
  · rw [List.range_succ, List.countP_append, List.countP_singleton, missing, if_neg (by simp)]
    exact surveyed.got
  · have here : (cm'.countBlocks u i).pieceBytes u i = cm'.storedBytes u i :=
      if_neg (by simp [Cm.countBlocks, clear])
    rw [Cm.bytes_succ, here]
    change cm'.ncontentBytes + _ = cm.ncontentBytes + (cm'.bytes u i + _)
    rw [surveyed.bytes, Int.add_assoc]
  · exact surveyed.block_of_not_dropped fun dropped => kept dropped.2
  · have set : (if cm'.stored u i = [] then cm'.posField else setBit cm'.posField i) j = true ↔
        cm'.posField j = true ∨ j = i ∧ cm.stored u i ≠ [] := by
      rw [stored]
      by_cases none : cm.stored u i = []
      · simp [none]
      · rw [if_neg none, setBit, Function.update_apply]
        by_cases same : j = i <;> simp [same, none]
    refine set.trans ?_
    rw [surveyed.pos]
    by_cases same : j = i
    · subst same
      simp [missing, kept]
    · simp [same, lt_succ_of_ne same]
  · rw [Cm.countBlocks, surveyed.eq]

theorem Surveyed.step : Surveyed u (i + 1) cm (cm'.endPiece u i) := by
  rw [endPiece_eq]
  split
  case isTrue set => exact surveyed.step_held sized lt set
  case isFalse clear =>
    have clear : cm'.pieceField i = false := (Bool.not_eq_true _).mp clear
    split
    case isTrue all => exact surveyed.step_whole sized lt clear all
    case isFalse some => exact surveyed.step_partial clear some

end Step

/-! ## `startup_test_end` -/

theorem wp_forEach_setContent {f : Nat → Cm → Cm} {l : List Nat}
    {post : Unit → Contents → Prop} :
    (forEach l fun piece => setContent n (f piece)).wp k callers post (s.setItem n x) ↔
      post () (s.setItem n { x with cm := l.foldl (fun cm piece => f piece cm) x.cm }) := by
  induction l generalizing x with
  | nil => exact wp_pure
  | cons piece l ih =>
      unfold forEach
      rw [wp_bind, wp_setContent, ih]
      rfl

theorem surveyed_foldl (sized : Sized u) (le : i ≤ u.npieces) :
    Surveyed u i cm ((List.range i).foldl (fun cm piece => cm.endPiece u piece) cm) := by
  induction i with
  | zero => exact .zero
  | succ i ih =>
      rw [List.range_succ, List.foldl_append]
      exact (ih (Nat.le_of_succ_le le)).step sized le

/-- The torrent has been started, or an error has been met. -/
inductive Launched (u : Torrent) (x x' : Item) : Prop
  | active (cm : Cm) (resd : Nat → FileTimeSize) :
      Surveyed u u.npieces { x.cm with posField := fun _ => false } cm →
      x.disk.Same u.files x'.disk →
      x' = { x with
        disk := x'.disk
        cm := { cm with
          state := .active
          ptr := if cm.full u.npieces then cm.ptr else Function.update cm.ptr .wrs .live
          resd := resd } } →
      Launched u x x'
  | failed (cm : Cm) (resd : Nat → FileTimeSize) :
      Surveyed u u.npieces { x.cm with posField := fun _ => false } cm →
      Failed u { x with cm := { cm with resd := resd } } x' → Launched u x x'

/-- No torrent of the queue is this one. -/
def Contents.Free (s : Contents) (n : Nat) : Prop := ∀ std ∈ s.startq, std.tp ≠ n

theorem Contents.Free.leave {state : CmState} (free : s.Free n) : s.leave n state = s := by
  unfold Contents.leave
  split
  · rw [List.eraseP_of_forall_not fun std mem => by simpa using free std mem]
  · rfl

/-- An error in a torrent that is not in the queue. -/
theorem Contents.Free.fails_wp (free : s.Free n) (sane : Sane (t n) x)
    (first : x.cm.error = false) (open_ : Contract.Open k) :
    (cmOnError t n).wp k callers (Does n s (Failed (t n) x)) (s.setItem n x) := by
  have met : (cmOnError t n).wp k callers (Does n (s.leave n x.cm.state) (Failed (t n) x))
      (s.setItem n x) := cmOnError_wp sane first open_
  rw [free.leave] at met
  exact met

/-- A torrent that is being started. -/
structure Fresh (u : Torrent) (x : Item) : Prop where
  sound : x.disk.Sound u.files
  error : x.cm.error = false
  state : x.cm.state = .starting
  rds : x.cm.ptr .rds = .live
  wrs : x.cm.ptr .wrs = .null

theorem Fresh.sane (fresh : Fresh u x) : Sane u x where
  sound := fresh.sound
  state := by simp [fresh.state]
  ptr b := by cases b <;> simp [fresh.rds, fresh.wrs]
  both _ := by simp [fresh.rds]

theorem activate_wp (fresh : Fresh (t n) x) (free : s.Free n) (open_ : Contract.Open k) :
    (activate t n).wp k callers (Does n s fun x' =>
      x.disk.Same (t n).files x'.disk ∧ x' = { x with
        disk := x'.disk
        cm := { x.cm with
          state := .active
          ptr := if x.cm.full (t n).npieces then x.cm.ptr
            else Function.update x.cm.ptr .wrs .live } } ∨
      Failed (t n) x x') (s.setItem n x) := by
  unfold activate
  rw [wp_bind, wp_content, Contents.setItem_self, wp_ite]
  split
  case isTrue full =>
    rw [wp_setContent]
    exact ⟨_, rfl, .inl ⟨.refl fresh.sound, rfl⟩⟩
  case isFalse more =>
    refine on_seq (openStream_wp fresh.sound) ?_
    rintro err x₁ ⟨d, same, opened, closed⟩
    cases err with
    | some e =>
        obtain rfl := closed nofun
        have fresh₁ : Fresh (t n) { x with disk := d } :=
          ⟨same.sound, fresh.error, fresh.state, fresh.rds, fresh.wrs⟩
        refine on_mono (free.fails_wp fresh₁.sane fresh.error open_) ?_
        rintro - x₂ ⟨near₂, ptr, eq⟩
        exact .inr ⟨same.near.trans near₂, ptr, eq⟩
    | none =>
        obtain rfl := opened rfl
        dsimp only
        rw [wp_setContent]
        exact ⟨_, rfl, .inl ⟨same, rfl⟩⟩

/-- Without an entry in the queue. -/
theorem startupTestEnd_wp (sized : Sized (t n)) (fresh : Fresh (t n) x) (free : s.Free n)
    (open_ : Contract.Open k) :
    (startupTestEnd t n false).wp k callers (Does n s (Launched (t n) x)) (s.setItem n x) := by
  have surveyed : Surveyed (t n) (t n).npieces { x.cm with posField := fun _ => false }
      ((List.range (t n).npieces).foldl (fun cm piece => cm.endPiece (t n) piece)
        { x.cm with posField := fun _ => false }) := surveyed_foldl sized (Nat.le_refl _)
  unfold startupTestEnd endPieces
  rw [wp_bind, wp_setContent, wp_bind, wp_forEach_setContent, wp_bind, wp_when,
    if_neg (by simp)]
  dsimp only
  generalize (List.range (t n).npieces).foldl _ _ = cm at surveyed ⊢
  have fresh' : Fresh (t n) { x with cm := cm } := by
    rw [surveyed.eq]
    exact ⟨fresh.sound, fresh.error, fresh.state, fresh.rds, fresh.wrs⟩
  refine on_mono (activate_wp fresh' free open_) ?_
  rintro - x' (⟨same, eq⟩ | failed)
  · exact .active cm cm.resd surveyed same eq
  · exact .failed cm cm.resd surveyed failed

/-- With the torrent at the head of the queue. -/
theorem startupTestEnd_pops {std : StartTestData} {rest : List StartTestData}
    (sized : Sized (t n)) (fresh : Fresh (t n) x) (queue : s.startq = std :: rest)
    (free : ∀ e ∈ rest, e.tp ≠ n) (open_ : Contract.Open k) :
    (startupTestEnd t n true).wp k callers
      (Does n { s with startq := rest } (Launched (t n) x)) (s.setItem n x) := by
  have surveyed : Surveyed (t n) (t n).npieces { x.cm with posField := fun _ => false }
      ((List.range (t n).npieces).foldl (fun cm piece => cm.endPiece (t n) piece)
        { x.cm with posField := fun _ => false }) := surveyed_foldl sized (Nat.le_refl _)
  unfold startupTestEnd endPieces popTested
  rw [wp_bind, wp_setContent, wp_bind, wp_forEach_setContent, wp_bind, wp_when,
    if_pos rfl]
  dsimp only
  generalize (List.range (t n).npieces).foldl _ _ = cm at surveyed ⊢
  rw [wp_bind, wp_get, Contents.setItem_startq, queue]
  dsimp only
  rw [wp_bind, wp_modify]
  change (setContent n _).wp k callers _ ({ s with startq := rest }.setItem n { x with cm := cm })
  rw [wp_setContent]
  generalize (fun i => if i < (t n).files.length then std.fts.getD i (cm.resd i) else cm.resd i) =
    resd
  have fresh' : Fresh (t n) { x with cm := { cm with resd := resd } } := by
    rw [surveyed.eq]
    exact ⟨fresh.sound, fresh.error, fresh.state, fresh.rds, fresh.wrs⟩
  refine on_mono (activate_wp fresh' free open_) ?_
  rintro - x' (⟨same, eq⟩ | failed)
  · exact .active cm resd surveyed same eq
  · exact .failed cm resd surveyed failed

end Btpd.Content
