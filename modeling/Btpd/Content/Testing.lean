import Btpd.Content.Starting

/-!
# The start of a torrent

`cm_start` looks at the files and marks the pieces that have to be tested; the timer
tests one piece after the other, for one torrent after the other.
-/

namespace Btpd.Content

open Prog Segments
open Download (Torrent pieceBlocklen setBit clearBit)

variable {t : Nat → Torrent} {n : Nat} {s : Contents} {x x' x'' : Item} {cm cm' : Cm}
  {callers : List Fn} {k : Contract Contents Fn CmFault} {u : Torrent} {piece i j o : Nat}

/-! ## Missing tails -/

/-- Some byte of a piece is in the missing tail of a file. -/
def Lost (u : Torrent) (fts : List FileTimeSize) (i : Nat) : Prop :=
  ∃ o, InPiece u i o ∧ ∃ f o', locate u.files o = some (f, o') ∧ ∃ e ∈ fts[f]?, e.size ≤ o'

/-- The pieces that `cm_start` clears. -/
def clearedPieces (pieceLength : Nat) : List (Nat × FileTimeSize) → Nat → List Nat
  | [], _ => []
  | (length, fts) :: files, off =>
      (if fts.size ≠ length then missingPieces pieceLength off length fts.size else []) ++
        clearedPieces pieceLength files (off + length)

/-- Two divisions give the pieces that have places in an interval. -/
theorem exists_div_eq_iff {a b p : Nat} (positive : 0 < p) (le : a ≤ b) :
    (∃ o, a ≤ o ∧ o ≤ b ∧ o / p = i) ↔ a / p ≤ i ∧ i ≤ b / p := by
  constructor
  · rintro ⟨o, lower, upper, rfl⟩
    exact ⟨Nat.div_le_div_right lower, Nat.div_le_div_right upper⟩
  · rintro ⟨lower, upper⟩
    have first : i * p ≤ b := (Nat.le_div_iff_mul_le positive).mp upper
    have last : a < (i + 1) * p := (Nat.div_lt_iff_lt_mul positive).mp (Nat.lt_succ_of_le lower)
    rw [Nat.add_mul, Nat.one_mul] at last
    refine ⟨max a (i * p), Nat.le_max_left .., Nat.max_le.mpr ⟨le, first⟩, ?_⟩
    rw [Nat.div_eq_iff positive]
    have positive' := positive
    omega

theorem mem_missingPieces {pieceLength off length size : Nat} (positive : 0 < pieceLength)
    (lt : size < length) : i ∈ missingPieces pieceLength off length size ↔
      ∃ o, off + size ≤ o ∧ o < off + length ∧ o / pieceLength = i := by
  have interval := exists_div_eq_iff (i := i) positive (show off + size ≤ off + length - 1 by omega)
  have upper : ∀ o, o ≤ off + length - 1 ↔ o < off + length := by omega
  simp only [upper] at interval
  rw [interval]
  unfold missingPieces
  dsimp only
  rw [List.mem_range'_1]
  omega

theorem mem_clearedPieces {pieceLength off : Nat} {files : List Nat} {fts : List FileTimeSize}
    (positive : 0 < pieceLength) (same : fts.length = files.length)
    (le : ∀ f e, fts[f]? = some e → e.size ≤ files.getD f 0) :
    i ∈ clearedPieces pieceLength (files.zip fts) off ↔
      ∃ o f o', locate files o = some (f, o') ∧ (∃ e ∈ fts[f]?, e.size ≤ o') ∧
        (off + o) / pieceLength = i := by
  induction files generalizing fts off with
  | nil => simp [clearedPieces, locate]
  | cons length files ih =>
      cases fts with
      | nil => cases same
      | cons e fts =>
          have le₀ : e.size ≤ length := le 0 e rfl
          have here : i ∈ (if e.size ≠ length then
              missingPieces pieceLength off length e.size else []) ↔
              ∃ o < length, e.size ≤ o ∧ (off + o) / pieceLength = i := by
            split
            case isTrue ne =>
              rw [mem_missingPieces positive (Nat.lt_of_le_of_ne le₀ ne)]
              constructor
              · rintro ⟨o, lower, upper, eq⟩
                refine ⟨o - off, by omega, by omega, ?_⟩
                rw [Nat.add_sub_cancel' (by omega)]
                exact eq
              · rintro ⟨o, upper, lower, eq⟩
                exact ⟨off + o, by omega, by omega, eq⟩
            case isFalse eq =>
              refine iff_of_false List.not_mem_nil ?_
              rintro ⟨o, upper, lower, -⟩
              omega
          rw [List.zip_cons_cons, clearedPieces, List.mem_append, here,
            ih (Nat.succ.inj same) fun f e at_ => le (f + 1) e at_]
          constructor
          · rintro (⟨o, upper, lower, eq⟩ | ⟨o, f, o', found, missing, eq⟩)
            · refine ⟨o, 0, o, ?_, ⟨e, rfl, lower⟩, eq⟩
              rw [locate, if_pos upper]
            · refine ⟨length + o, f + 1, o', ?_, missing, ?_⟩
              · rw [locate, if_neg (by omega), Nat.add_sub_cancel_left, found]
                rfl
              · rw [← Nat.add_assoc]
                exact eq
          · rintro ⟨o, f, o', found, missing, eq⟩
            rw [locate] at found
            split at found
            case isTrue lt =>
              obtain ⟨rfl, rfl⟩ := Prod.mk.inj (Option.some.inj found)
              obtain ⟨e', mem, lower⟩ := missing
              obtain rfl := Option.some.inj mem
              exact .inl ⟨o, lt, lower, eq⟩
            case isFalse ge =>
              rw [Option.map_eq_some_iff] at found
              obtain ⟨⟨f', o''⟩, found, eq'⟩ := found
              obtain ⟨rfl, rfl⟩ := Prod.mk.inj eq'
              refine .inr ⟨o - length, f', o'', found, missing, ?_⟩
              rw [Nat.add_assoc, Nat.add_sub_cancel' (Nat.not_lt.mp ge)]
              exact eq

/-- The pieces that are cleared are those with bytes in a missing tail. -/
theorem Sized.mem_clearedPieces (sized : Sized u) {fts : List FileTimeSize}
    (same : fts.length = u.files.length)
    (le : ∀ f e, fts[f]? = some e → e.size ≤ u.files.getD f 0) (lt : i < u.npieces) :
    i ∈ clearedPieces u.pieceLength (u.files.zip fts) 0 ↔ Lost u fts i := by
  rw [Content.mem_clearedPieces sized.pieceLength_pos same le]
  constructor
  · rintro ⟨o, f, o', found, missing, eq⟩
    obtain ⟨inside, place⟩ := locate_eq_some.mp found
    have next : start u.files (f + 1) ≤ u.files.sum := start_le_sum
    rw [start_succ] at next
    have within : o < u.files.sum := by omega
    rw [Nat.zero_add] at eq
    exact ⟨o, (sized.inPiece_iff lt within).mpr eq, f, o', found, missing⟩
  · rintro ⟨o, inside, f, o', found, missing⟩
    have within : o < u.files.sum := Nat.lt_of_lt_of_le inside.2 (sized.piece_le lt)
    rw [sized.inPiece_iff lt within] at inside
    exact ⟨o, f, o', found, missing, (Nat.zero_add o).symm ▸ inside⟩

/-- Some pieces have been cleared. -/
structure Cleared (L : List Nat) (cm cm' : Cm) : Prop where
  pos : ∀ i, cm'.posField i = if i ∈ L then false else cm.posField i
  piece : ∀ i, cm'.pieceField i = if i ∈ L then false else cm.pieceField i
  block : ∀ i, cm'.blockField i = if i ∈ L then fun _ => false else cm.blockField i
  eq : cm' = { cm with
    posField := cm'.posField
    pieceField := cm'.pieceField
    blockField := cm'.blockField }

theorem cleared_foldl (cm : Cm) (L : List Nat) : Cleared L cm (L.foldl Cm.clearPiece cm) := by
  induction L generalizing cm with
  | nil => exact ⟨fun i => by simp, fun i => by simp, fun i => by simp, rfl⟩
  | cons piece L ih =>
      have rest := ih (cm.clearPiece piece)
      rw [List.foldl_cons]
      refine ⟨fun i => ?_, fun i => ?_, fun i => ?_, ?_⟩
      · rw [rest.pos]
        by_cases same : i = piece <;> simp [same, Cm.clearPiece, clearBit]
      · rw [rest.piece]
        by_cases same : i = piece <;> simp [same, Cm.clearPiece, clearBit]
      · rw [rest.block]
        by_cases same : i = piece <;> simp [same, Cm.clearPiece]
      · rw [rest.eq]
        rfl

theorem wp_clearTails {files : List (Nat × FileTimeSize)} {off : Nat}
    {post : Unit → Contents → Prop} :
    (clearTails t n files off).wp k callers post (s.setItem n x) ↔
      post () (s.setItem n { x with
        cm := (clearedPieces (t n).pieceLength files off).foldl Cm.clearPiece x.cm }) := by
  induction files generalizing off x with
  | nil => exact wp_pure
  | cons file files ih =>
      obtain ⟨length, fts⟩ := file
      unfold clearTails clearedPieces
      rw [wp_bind, wp_when]
      split
      · rw [wp_forEach_setContent (f := fun piece cm => cm.clearPiece piece), ih, List.foldl_append]
      · rw [ih, List.nil_append]

/-! ## The next piece to be tested -/

theorem nextSet_spec (bits : Nat → Bool) (left i : Nat) :
    i ≤ nextSet bits left i ∧ nextSet bits left i ≤ i + left ∧
      (∀ j, i ≤ j → j < nextSet bits left i → bits j = false) ∧
      (nextSet bits left i < i + left → bits (nextSet bits left i) = true) := by
  induction left generalizing i with
  | zero =>
      refine ⟨Nat.le_refl _, Nat.le_refl _, fun j le lt => ?_, fun lt => ?_⟩
      · exact absurd lt (Nat.not_lt.mpr le)
      · exact absurd lt (Nat.lt_irrefl _)
  | succ left ih =>
      unfold nextSet
      cases set : bits i with
      | true =>
          rw [if_pos rfl]
          exact ⟨Nat.le_refl _, Nat.le_add_right .., fun j le lt => absurd lt (Nat.not_lt.mpr le),
            fun _ => set⟩
      | false =>
          rw [if_neg (by simp)]
          obtain ⟨lower, upper, clear, last⟩ := ih (i + 1)
          refine ⟨by omega, by omega, fun j le lt => ?_, fun lt => last (by omega)⟩
          rcases Nat.eq_or_lt_of_le le with rfl | more
          · exact set
          · exact clear j more lt

/-! ## The tests -/

/-- The pieces before a place have been tested, and those after it not yet. -/
structure Tested (u : Torrent) (upto : Nat) (x : Item) : Prop where
  lost : ∀ i < u.npieces, Lost u x.cm.found i → x.cm.posField i = false ∧
    x.cm.pieceField i = false ∧ ∀ b, x.cm.blockField i b = false
  rest : ∀ i < u.npieces, ¬ Lost u x.cm.found i → x.cm.posField i = true
  done : ∀ i < upto, x.cm.posField i = true → x.cm.tested i = 1 ∧
    (x.cm.pieceField i = true ↔ HashOk u x i)
  skipped : ∀ i < upto, x.cm.posField i = false → x.cm.tested i = 0
  todo : ∀ i, upto ≤ i → x.cm.tested i = 0

/-- Nothing has been counted or filled yet. -/
structure Blank (cm : Cm) : Prop where
  got : cm.npiecesGot = 0
  bytes : cm.ncontentBytes = 0
  filled : ∀ i, cm.filled i = 0

/-- A torrent in the queue, with the piece that is to be tested next. -/
structure Waiting (u : Torrent) (start : Nat) (x : Item) : Prop where
  fresh : Fresh u x
  blank : Blank x.cm
  tested : Tested u start x
  lt : start < u.npieces
  set : x.cm.posField start = true

theorem HashOk.congr {u : Torrent} (same : flat u.files x'.disk.file = flat u.files x.disk.file) :
    HashOk u x' i ↔ HashOk u x i := by
  unfold HashOk
  rw [same]

/-- The result of a test is written down. -/
def Item.mark (x : Item) (piece : Nat) (ok : Bool) : Item := { x with
  cm.pieceField := if ok then setBit x.cm.pieceField piece else clearBit x.cm.pieceField piece }

theorem Item.mark_pieceField {ok : Bool} :
    (x.mark piece ok).cm.pieceField i = if i = piece then ok else x.cm.pieceField i := by
  unfold mark setBit clearBit
  cases ok <;> simp [Function.update_apply]

/-- The piece to be tested after `start`. -/
def nextPiece (u : Torrent) (cm : Cm) (start : Nat) : Nat :=
  nextSet cm.posField (u.npieces - (start + 1)) (start + 1)

theorem nextPiece_spec (cm : Cm) (start : Nat) :
    start + 1 ≤ nextPiece u cm start ∧
      nextPiece u cm start ≤ start + 1 + (u.npieces - (start + 1)) ∧
      (∀ j, start + 1 ≤ j → j < nextPiece u cm start → cm.posField j = false) ∧
      (nextPiece u cm start < start + 1 + (u.npieces - (start + 1)) →
        cm.posField (nextPiece u cm start) = true) :=
  nextSet_spec ..

/-- One more piece has been tested. -/
theorem Tested.step {start : Nat} {ok : Bool} (tested : Tested u start x)
    (set : x.cm.posField start = true) (tried : Tried u start x x')
    (hash : ok = true ↔ HashOk u x start) :
    Tested u (nextPiece u x.cm start) (x'.mark start ok) := by
  obtain ⟨lower, -, clear, -⟩ := nextPiece_spec (u := u) x.cm start
  have found : (x'.mark start ok).cm.found = x.cm.found := by rw [Item.mark, tried.eq]
  have pos : (x'.mark start ok).cm.posField = x.cm.posField := by rw [Item.mark, tried.eq]
  have block : (x'.mark start ok).cm.blockField = x.cm.blockField := by
    rw [Item.mark, tried.eq]
  have piece : ∀ i, (x'.mark start ok).cm.pieceField i =
      if i = start then ok else x.cm.pieceField i := by
    intro i
    rw [Item.mark_pieceField, tried.eq]
  have count : ∀ i, (x'.mark start ok).cm.tested i =
      if i = start then x.cm.tested start + 1 else x.cm.tested i := by
    intro i
    rw [Item.mark, tried.eq]
    exact Function.update_apply ..
  have hashes : ∀ i, HashOk u (x'.mark start ok) i ↔ HashOk u x i := fun i =>
    HashOk.congr tried.same.flat
  refine ⟨fun i lt lost => ?_, fun i lt kept => ?_, fun i lt on => ?_, fun i lt off => ?_,
    fun i le => ?_⟩
  · rw [found] at lost
    obtain ⟨none, missing, blocks⟩ := tested.lost i lt lost
    have ne : i ≠ start := by
      rintro rfl
      cases set.symm.trans none
    rw [pos, piece, block, if_neg ne]
    exact ⟨none, missing, blocks⟩
  · rw [found] at kept
    rw [pos]
    exact tested.rest i lt kept
  · rw [pos] at on
    rw [count, piece, hashes]
    by_cases here : i = start
    · rw [here, if_pos rfl, if_pos rfl, tested.todo start (Nat.le_refl _)]
      exact ⟨rfl, hash⟩
    · rw [if_neg here, if_neg here]
      refine tested.done i ?_ on
      by_contra after
      cases on.symm.trans (clear i (by omega) lt)
  · rw [pos] at off
    have ne : i ≠ start := by
      rintro rfl
      cases set.symm.trans off
    rw [count, if_neg ne]
    rcases Nat.lt_or_ge i start with before | after
    · exact tested.skipped i before off
    · exact tested.todo i after
  · have after : start < i := Nat.lt_of_lt_of_le (Nat.lt_of_succ_le lower) le
    rw [count, if_neg (Nat.ne_of_gt after)]
    exact tested.todo i (Nat.le_of_lt after)

theorem Fresh.mark {ok : Bool} (fresh : Fresh u x) : Fresh u (x.mark piece ok) :=
  ⟨fresh.sound, fresh.error, fresh.state, fresh.rds, fresh.wrs⟩

theorem Tried.fresh (tried : Tried u piece x x') (fresh : Fresh u x) : Fresh u x' := by
  rw [tried.eq]
  exact ⟨tried.same.sound, fresh.error, fresh.state, fresh.rds, fresh.wrs⟩

/-- What the timer does to the torrent at the head of the queue. -/
inductive Probed (u : Torrent) (s : Contents) (std : StartTestData)
    (rest : List StartTestData) (x : Item) : Contents → Prop
  | failed (x₁ x' : Item) : Tried u std.start x x₁ → Failed u x₁ x' →
      Probed u s std rest x ({ s with startq := rest }.setItem std.tp x')
  | next (x₁ : Item) (ok w : Bool) : Tried u std.start x x₁ →
      (ok = true ↔ HashOk u x std.start) → nextPiece u x.cm std.start < u.npieces →
      Probed u s std rest x ({ s with
        startq := { std with start := nextPiece u x.cm std.start } :: rest
        workev := w }.setItem std.tp (x₁.mark std.start ok))
  | last (x₁ x' : Item) (ok w : Bool) : Tried u std.start x x₁ →
      (ok = true ↔ HashOk u x std.start) → u.npieces ≤ nextPiece u x.cm std.start →
      Launched u (x₁.mark std.start ok) x' →
      Probed u s std rest x ({ s with startq := rest, workev := w }.setItem std.tp x')

theorem startupTestRun_wp {std : StartTestData} {rest : List StartTestData}
    (sized : Sized (t std.tp)) (queue : s.startq = std :: rest)
    (free : ∀ e ∈ rest, e.tp ≠ std.tp) (waiting : Waiting (t std.tp) std.start x)
    (open_ : Contract.Open k) :
    (startupTestRun t).wp k callers (fun _ s' => Probed (t std.tp) s std rest x s')
      (s.setItem std.tp x) := by
  have fresh := waiting.fresh
  unfold startupTestRun
  rw [wp_bind, wp_get, Contents.setItem_startq, queue]
  dsimp only
  refine on_seq (testPiece_wp sized waiting.lt fresh.sound fresh.rds) ?_
  rintro r x₁ ⟨tried, hash⟩
  have fresh₁ := tried.fresh fresh
  cases r with
  | error e =>
      have leaves : s.leave std.tp x₁.cm.state = { s with startq := rest } := by
        rw [fresh₁.state, Contents.leave, if_pos rfl, queue, List.eraseP_cons_of_pos (by simp)]
      refine wp_mono (cmOnError_wp fresh₁.sane fresh₁.error open_) ?_
      rw [leaves]
      rintro - - ⟨x', rfl, failed⟩
      exact .failed x₁ x' tried failed
  | ok ok =>
      have truth := hash ok rfl
      have next : nextSet x₁.cm.posField ((t std.tp).npieces - (std.start + 1)) (std.start + 1) =
          nextPiece (t std.tp) x.cm std.start := by
        rw [nextPiece, tried.eq]
      dsimp only
      unfold testedPiece
      dsimp only
      rw [wp_bind, wp_setContent, wp_bind, wp_content, Contents.setItem_self]
      change wp k callers _ _ (s.setItem std.tp (x₁.mark std.start ok))
      dsimp only
      rw [next, wp_bind, wp_modify, Contents.setItem_startq, queue, List.tail_cons]
      change wp k callers (when ((t std.tp).npieces ≤ nextPiece (t std.tp) x.cm std.start) _ >>= _) _
        ({ s with startq := { std with start := nextPiece (t std.tp) x.cm std.start } :: rest
          }.setItem std.tp (x₁.mark std.start ok))
      rw [wp_bind, wp_when]
      split
      case isTrue last =>
        refine wp_mono (startupTestEnd_pops sized fresh₁.mark rfl free open_) ?_
        rintro - - ⟨x', rfl, launched⟩
        exact wp_modify.mpr (Probed.last (s := s) x₁ x' ok (s.workev || !rest.isEmpty) tried truth
          last launched)
      case isFalse more =>
        exact wp_modify.mpr (Probed.next (s := s) x₁ ok (s.workev || true) tried truth
          (Nat.lt_of_not_le more))

/-! ## `cm_start` -/

/-- A torrent whose files have been looked at; its pieces are tested or not. -/
structure Begun (u : Torrent) (x x' : Item) : Prop where
  near : x.disk.Near u.files x'.disk
  fresh : Fresh u x'
  blank : Blank x'.cm
  piece : ∀ i, x'.cm.pieceField i = true → x.cm.pieceField i = true
  eq : x' = { x with disk := x'.disk, cm := x'.cm }
  marked : Tested u 0 x' ∨ ∀ i, x'.cm.posField i = false
  differs : Differs x'.cm.recorded x'.cm.found → Tested u 0 x'

/-- No piece before the first one that is marked has to be tested. -/
theorem Tested.first {start : Nat} (tested : Tested u 0 x)
    (clear : ∀ i < start, x.cm.posField i = false) : Tested u start x where
  lost := tested.lost
  rest := tested.rest
  done i lt set := by cases set.symm.trans (clear i lt)
  skipped i _ _ := tested.todo i (Nat.zero_le i)
  todo i _ := tested.todo i (Nat.zero_le i)

/-- What `cm_start` does to a torrent. -/
inductive Started (u : Torrent) (s : Contents) (n : Nat) (x : Item) : Contents → Prop
  | failed (x' : Item) : Failed u x x' → Started u s n x (s.setItem n x')
  | queued (x₁ : Item) (std : StartTestData) (w : Bool) : std.tp = n → Begun u x x₁ →
      Waiting u std.start x₁ →
      Started u s n x ({ s with startq := s.startq ++ [std], workev := w }.setItem n x₁)
  | launched (x₁ x' : Item) : Begun u x x₁ →
      (Differs x₁.cm.recorded x₁.cm.found → Tested u u.npieces x₁) → Launched u x₁ x' →
      Started u s n x (s.setItem n x')

theorem startupTestBegin_wp {fts : List FileTimeSize} (sized : Sized (t n))
    (begun : Begun (t n) x x') (free : s.Free n) (open_ : Contract.Open k) :
    (startupTestBegin t n fts).wp k callers (fun _ s' => Started (t n) s n x s')
      (s.setItem n x') := by
  obtain ⟨-, upper, clear, set⟩ := nextSet_spec x'.cm.posField (t n).npieces 0
  rw [Nat.zero_add] at upper set
  have none : ∀ i < nextSet x'.cm.posField (t n).npieces 0, x'.cm.posField i = false :=
    fun i lt => clear i (Nat.zero_le i) lt
  unfold startupTestBegin
  rw [wp_bind, wp_content, Contents.setItem_self]
  dsimp only
  generalize nextSet x'.cm.posField (t n).npieces 0 = start at upper none set ⊢
  rw [wp_ite]
  split
  case isTrue lt =>
    have here := set lt
    have tested : Tested (t n) 0 x' := by
      rcases begun.marked with tested | clear
      · exact tested
      · cases here.symm.trans (clear start)
    have waiting : Waiting (t n) start x' :=
      ⟨begun.fresh, begun.blank, tested.first none, lt, here⟩
    exact wp_modify.mpr (Started.queued (s := s) x' ⟨n, start, fts⟩
      (s.workev || s.startq.isEmpty) rfl begun waiting)
  case isFalse ge =>
    refine wp_mono (startupTestEnd_wp sized begun.fresh free open_) ?_
    rintro - - ⟨x₂, rfl, launched⟩
    refine .launched x' x₂ begun (fun differs => (begun.differs differs).first ?_) launched
    intro i lt
    exact none i (Nat.lt_of_lt_of_le lt (Nat.not_lt.mp ge))

/-- What `cm_create` leaves of `struct content`. -/
structure Created (cm : Cm) : Prop extends Blank cm where
  error : cm.error = false
  pos : ∀ i, cm.posField i = false
  ptr : ∀ b, cm.ptr b = .null
  tested : ∀ i, cm.tested i = 0

theorem cmTest_wp {fts : List FileTimeSize} {forceTest : Bool} (sized : Sized (t n))
    (created : Created x.cm) (near : x.disk.Near (t n).files x'.disk)
    (is : x' = { x with
      disk := x'.disk
      cm := { x.cm with
        state := .starting
        ptr := Function.update x.cm.ptr .rds .live } })
    (length : fts.length = (t n).files.length)
    (sizes : ∀ f e, fts[f]? = some e → e.size ≤ (t n).files.getD f 0)
    (free : s.Free n) (open_ : Contract.Open k) :
    (cmTest t n forceTest fts).wp k callers (fun _ s' => Started (t n) s n x s')
      (s.setItem n x') := by
  have sound := near.sound
  have fresh {cm : Cm} (error : cm.error = x'.cm.error) (state : cm.state = x'.cm.state)
      (ptr : cm.ptr = x'.cm.ptr) : Fresh (t n) { x' with cm := cm } := by
    rw [is] at error state ptr
    refine ⟨sound, error.trans created.error, state, ?_, ?_⟩
    · exact congrFun ptr .rds
    · exact (congrFun ptr .wrs).trans (created.ptr .wrs)
  have blank : Blank x'.cm := by
    rw [is]
    exact ⟨created.got, created.bytes, created.filled⟩
  have tested : ∀ i, x'.cm.tested i = 0 := by
    rw [is]
    exact created.tested
  have pos : ∀ i, x'.cm.posField i = false := by
    rw [is]
    exact created.pos
  have piece : x'.cm.pieceField = x.cm.pieceField := by rw [is]
  unfold cmTest
  rw [wp_bind, wp_setContent, wp_bind, wp_content, Contents.setItem_self, wp_bind, wp_when]
  split
  case isTrue run =>
    rw [wp_bind, wp_setContent, wp_clearTails]
    dsimp only
    have cleared := cleared_foldl { x'.cm with
        found := fts
        recorded := x'.cm.resd
        posField := fun _ => true } (clearedPieces (t n).pieceLength ((t n).files.zip fts) 0)
    generalize List.foldl _ _ _ = cm at cleared ⊢
    have found : cm.found = fts := by rw [cleared.eq]
    have all : Tested (t n) 0 { x' with cm := cm } := by
      refine ⟨fun i lt lost => ?_, fun i lt kept => ?_, fun i lt => absurd lt (Nat.not_lt_zero i),
        fun i lt => absurd lt (Nat.not_lt_zero i), fun i _ => ?_⟩
      · have mem := (sized.mem_clearedPieces length sizes lt).mpr (found ▸ lost)
        dsimp only
        rw [cleared.pos, cleared.piece, cleared.block, if_pos mem, if_pos mem, if_pos mem]
        exact ⟨rfl, rfl, fun _ => rfl⟩
      · have not_mem := mt (sized.mem_clearedPieces length sizes lt).mp fun lost =>
          kept (found.symm ▸ lost)
        dsimp only
        rw [cleared.pos, if_neg not_mem]
      · dsimp only
        rw [cleared.eq]
        exact tested i
    refine startupTestBegin_wp sized ⟨near, ?_, ?_, fun i set => ?_, ?_, .inl all,
      fun _ => all⟩ free open_
    · exact fresh (by rw [cleared.eq]) (by rw [cleared.eq]) (by rw [cleared.eq])
    · dsimp only
      rw [cleared.eq]
      exact ⟨blank.got, blank.bytes, blank.filled⟩
    · dsimp only at set
      rw [cleared.piece] at set
      split at set
      · cases set
      · rw [← piece]
        exact set
    · rw [is]
  case isFalse idle =>
    refine startupTestBegin_wp sized ⟨near, ?_, ?_, fun i set => ?_, ?_, .inr pos,
      fun differs => absurd (.inr differs) idle⟩ free open_
    · exact fresh rfl rfl rfl
    · exact ⟨blank.got, blank.bytes, blank.filled⟩
    · rw [← piece]
      exact set
    · rw [is]

theorem cmStart_wp {forceTest : Bool} (sized : Sized (t n)) (sound : x.disk.Sound (t n).files)
    (created : Created x.cm) (free : s.Free n) (open_ : Contract.Open k) :
    (cmStart t n forceTest).wp k callers (fun _ s' => Started (t n) s n x s')
      (s.setItem n x) := by
  have null : ∀ b, x.cm.ptr b ≠ .freed := fun b => by simp [created.ptr b]
  unfold cmStart
  rw [wp_bind, wp_setContent]
  refine on_seq (openStream_wp sound) ?_
  rintro err x₁ ⟨d, same, opened, closed⟩
  cases err with
  | some e =>
      obtain rfl := closed nofun
      have sane : Sane (t n) { x with disk := d, cm.state := .starting } :=
        ⟨same.sound, nofun, null, fun some => absurd (created.ptr .wrs) some⟩
      refine wp_mono (free.fails_wp sane created.error open_) ?_
      rintro - - ⟨x₂, rfl, near₂, ptr, eq⟩
      exact .failed x₂ ⟨same.near.trans near₂, ptr, eq⟩
  | none =>
      obtain rfl := opened rfl
      dsimp only
      refine on_seq (onDisk_wp (statAndAdjust_near same.sound rfl)) ?_
      rintro r x₂ ⟨d₂, rfl, near₂, found⟩
      rcases r with ⟨fts, - | e⟩
      · obtain ⟨length, sizes⟩ := found rfl
        exact cmTest_wp sized created (same.near.trans near₂) rfl length sizes free open_
      · have sane : Sane (t n) { x with
            disk := d₂
            cm.state := .starting
            cm.ptr := Function.update x.cm.ptr .rds .live } :=
          ⟨near₂.sound, nofun, fun b => by cases b <;> simp [created.ptr], fun _ => by simp⟩
        refine wp_mono (free.fails_wp sane created.error open_) ?_
        rintro - - ⟨x₃, rfl, near₃, ptr, eq⟩
        exact .failed x₃ ⟨(same.near.trans near₂).trans near₃, ptr, eq⟩

end Btpd.Content
