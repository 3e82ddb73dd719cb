import Btpd.Content.Blocks

/-!
# Runs of the content code

What holds in every run: the counters of an active torrent, the test of the pieces after
the files have changed, the zeros that are written for new pieces, and the streams, which
are closed once unless an error is met at the wrong time.
-/

namespace Btpd.Content

open Prog
open Download (Torrent pieceBlocklen)

variable {t : Nat → Torrent} {s s' : Contents} {e : CmEvent} {n i : Nat} {x : Item}
  {bad : Call Contents Fn → Prop}

/-! ## The invariant -/

/-- The faults in which an event may end: the two assertions about the download code,
and the misuse of a stream where it is not excluded. -/
def Expected (misused : Prop) (f : CmFault) : Prop :=
  f = .putBlock ∨ f = .allocFull ∨ misused ∧ Misused f

theorem cmHandle_meets (sized : ∀ n, Sized (t n)) {misused : Prop}
    (open_ : (∀ c, Misuses c → bad c) ∨ misused) (inv : Inv t s) (e : CmEvent) :
    ((daemon t).handle e).wp ⟨bad, Expected misused⟩ [] (fun _ s' => Move t s s') s := by
  refine cmHandle_moves sized inv ?_ (Or.inl rfl) (Or.inr (Or.inl rfl)) e
  exact open_.imp_right fun may f misuse => .inr (.inr ⟨may, misuse⟩)

theorem inv_of_reachable (sized : ∀ n, Sized (t n)) (reached : (daemon t).Reachable bad s) :
    Inv t s :=
  reached.invariant _ (Expected True) (fun _ => inv_of_init) fun _ e _ inv =>
    wp_mono (cmHandle_meets sized (.inr trivial) inv e) fun _ _ move => move.inv

/-- The files of a torrent stay those that its paths name. -/
theorem inode_of_reachable (sized : ∀ n, Sized (t n)) (reached : (daemon t).Reachable bad s)
    (n : Nat) : (s.item n).disk.inode = (t n).inode := by
  have held : Inv t s ∧ ∀ n, (s.item n).disk.inode = (t n).inode := by
    refine reached.invariant
      (fun s => Inv t s ∧ ∀ n, (s.item n).disk.inode = (t n).inode) (Expected True)
      (fun s (init : s.Init t) => ⟨inv_of_init init, init.inode⟩) ?_
    intro s e reached held
    refine wp_mono (cmHandle_meets sized (.inr trivial) held.1 e) fun _ s' move => ?_
    exact ⟨move.inv, fun n => ((move.step n).inode).trans (held.2 n)⟩
  exact held.2 n

theorem apart_of_reachable (sized : ∀ n, Sized (t n)) (reached : (daemon t).Reachable bad s)
    {n : Nat} (apart : (t n).Apart) : (s.item n).disk.Apart (t n).files := by
  unfold Streams.Apart
  rw [inode_of_reachable sized reached n]
  exact apart

/-- An event of a run moves each torrent by a step. -/
theorem step_of_steps (sized : ∀ n, Sized (t n)) (reached : (daemon t).Reachable bad s)
    (steps : (daemon t).Steps bad s e s') (n : Nat) : Step (t n) (s.item n) (s'.item n) := by
  have move : Move t s s' :=
    steps.of_wp (cmHandle_meets sized (.inr trivial) (inv_of_reachable sized reached) e)
  exact move.step n

/-- The faults in which a run may end. -/
theorem expected_of_faults {misused : Prop} {f : CmFault} (sized : ∀ n, Sized (t n))
    (open_ : (∀ c, Misuses c → bad c) ∨ misused) (reached : (daemon t).Reachable bad s)
    (faults : (daemon t).Faults bad s e f) : Expected misused f := by
  rcases cmHandle_meets sized open_ (inv_of_reachable sized reached) e with ⟨c, mem, isBad⟩ | ended
  · exact absurd isBad (faults.2 c mem)
  · rw [faults.1] at ended
    exact ended

/-! ## The counters -/

theorem Counted.full_iff {u : Torrent} {cm : Cm} (counted : Counted u cm) :
    cm.full u.npieces ↔ ∀ i < u.npieces, cm.pieceField i = true := by
  have all := List.countP_eq_length (p := cm.pieceField) (l := List.range u.npieces)
  rw [List.length_range] at all
  unfold Cm.full
  rw [counted.got, all]
  simp only [List.mem_range]

/-- All bytes are there if and only if all pieces are held, when no piece is empty. -/
theorem Active.bytes_eq_iff {u : Torrent} (active : Active u x) (open_ : Open u x)
    (sized : Sized u) (some : ∀ i < u.npieces, 0 < pieceSize u i) :
    x.cm.ncontentBytes = u.totalLength ↔ x.cm.full u.npieces := by
  rw [active.counted.bytes, sized.bytes_eq_iff, active.counted.full_iff]
  refine forall₂_congr fun i lt => or_iff_left_of_imp fun whole => ?_
  by_contra missing
  have none := open_ i lt ((Bool.not_eq_true _).mp missing) whole
  have first := (sized.lt_blocks_iff (b := 0) lt).mpr (by
    rw [Nat.zero_mul]
    exact some i lt)
  exact absurd first (by simp [none])

/-- In every state of a run the counters of an active torrent are those of its bit
fields, and an event sets the bit of a piece only when the bytes of the piece on the disk
have its hash, or had it before files that are too long were cut. -/
theorem progress_of_reachable (measured : ∀ n, Measured (t n))
    (reached : (daemon t).Reachable (fun _ => False) s) :
    (∀ n, (s.item n).cm.state = .active →
      Counted (t n) (s.item n).cm ∧ 0 ≤ (s.item n).cm.ncontentBytes ∧
        ((∀ i < (t n).npieces, 0 < pieceSize (t n) i) →
          ((s.item n).cm.ncontentBytes = (t n).totalLength ↔
            (s.item n).cm.full (t n).npieces))) ∧
      ∀ e s', (daemon t).Steps (fun _ => False) s e s' → ∀ n i,
        (s'.item n).cm.pieceField i = true → (s.item n).cm.pieceField i = true ∨
          Hashed (t n) (s'.item n) i ∧
            ((t n).Apart → HashOk (t n) (s'.item n) i) := by
  have sized : ∀ n, Sized (t n) := fun n => (measured n).toSized
  constructor
  · intro n on
    obtain ⟨active, open_⟩ := ((inv_of_reachable sized reached).good n).active on
    refine ⟨active.counted, ?_, active.bytes_eq_iff open_ (sized n)⟩
    rw [active.counted.bytes]
    exact Cm.bytes_nonneg
  · intro e s' steps n i set
    exact ((step_of_steps sized reached steps n).hash i set).imp_right fun hashed =>
      ⟨hashed, fun apart => hashed.ok (apart_of_reachable sized (.step reached steps) apart)⟩

/-! ## Runs of one torrent -/

/-- A torrent with pieces of two bytes that hash to themselves. -/
def smallTorrent (length cmAllocSize : Nat) : Torrent where
  npieces := (length + 1) / 2
  pieceLength := 2
  files := [length]
  inode := id
  hash := Vector.replicate 20 0
  peerId := Vector.replicate 20 0
  pieceHash _ := [1, 2]
  sha1 := id
  cmAllocSize := cmAllocSize
  random _ := 0

theorem sized_smallTorrent {length : Nat} (some : 0 < length) (cmAllocSize : Nat) :
    Sized (smallTorrent length cmAllocSize) := by
  refine ⟨?_, Nat.two_pos, ?_, ?_⟩ <;> simp [smallTorrent, Torrent.totalLength] <;> omega

/-- A file with these bytes, of which the resume file says that there were four, what it
says of the pieces, and the number of the first system call that fails. -/
def Item.ofFile (bytes : List UInt8) (held : Bool) (fails : Nat) : Item where
  state := .ghost
  active := false
  piece _ := none
  cm := {
    state := .inactive
    error := false
    npiecesGot := 0
    ncontentBytes := 0
    pieceField := fun _ => held
    blockField := fun _ _ => false
    posField := fun _ => false
    ptr := fun _ => .null
    resd := fun _ => ⟨2, 4⟩
    found := []
    recorded := fun _ => ⟨0, 0⟩
    tested := fun _ => 0
    filled := fun _ => 0 }
  disk := {
    inode := id
    stored := fun _ => ⟨bytes.length, fun i => bytes.getD i 0⟩
    choice := fun i => ⟨decide (fails ≤ i), 5, 2⟩
    calls := 0
    bts := fun _ => .opened }

/-- All torrents are the same. -/
def Contents.ofFile (bytes : List UInt8) (held : Bool) (fails : Nat) : Contents :=
  ⟨fun _ => .ofFile bytes held fails, [], false⟩

theorem init_ofFile {bytes : List UInt8} {held : Bool} {fails : Nat}
    (plain : ∀ n, id = (t n).inode) :
    (Contents.ofFile bytes held fails).Init t :=
  ⟨plain, fun _ => rfl, fun _ => rfl, fun _ _ => rfl, fun _ => rfl, fun _ _ => rfl, fun _ _ => rfl,
    fun _ _ => rfl, rfl⟩

/-- Two pieces of two bytes. -/
abbrev twoPieces : Nat → Torrent := fun _ => smallTorrent 4 2

theorem sized_twoPieces (n : Nat) : Sized (twoPieces n) := sized_smallTorrent (by decide) 2

theorem measured_twoPieces (n : Nat) : Measured (twoPieces n) where
  toSized := sized_twoPieces n
  small := Nat.le_trans (Nat.min_le_left ..) (by decide : 2 ≤ 2 ^ 32)

theorem reachable_ofFile (bad : Call Contents Fn → Prop) (bytes : List UInt8) (held : Bool)
    (fails : Nat) : (daemon twoPieces).Reachable bad (.ofFile bytes held fails) :=
  .start (init_ofFile fun _ => rfl)

/-- The first piece is downloaded. -/
def firstPiece : List CmEvent :=
  [.start 0 false, .tick 0, .newPiece 0 0, .block 0 0 0 [1, 2] true]

theorem progress_of_reachable_firstPiece :
    ∃ s, (daemon twoPieces).Reachable (fun _ => False) s ∧
      ((s.item 0).cm.state = .active ∧ (s.item 0).cm.npiecesGot = 1) ∧
      Counted (twoPieces 0) (s.item 0).cm := by
  obtain ⟨s, reached, active, got⟩ := System.Reachable.of_after
    (P := fun s => (s.item 0).cm.state = .active ∧ (s.item 0).cm.npiecesGot = 1) firstPiece
    (reachable_ofFile (fun _ => False) [] false 100) (by decide +kernel)
  have counted := (progress_of_reachable measured_twoPieces reached).1 0 active
  exact ⟨s, reached, ⟨active, got⟩, counted.1⟩

/-- While its pieces are tested, a torrent that is held by the resume file counts none. -/
theorem not_progress_of_reachable :
    ¬∀ t, (∀ n, Measured (t n)) → ∀ s, (daemon t).Reachable (fun _ => False) s → ∀ n,
      (s.item n).cm.npiecesGot = (List.range (t n).npieces).countP (s.item n).cm.pieceField := by
  intro claim
  obtain ⟨s, reached, none, some⟩ := System.Reachable.of_after
    (P := fun s => (s.item 0).cm.npiecesGot = 0 ∧
      (List.range (twoPieces 0).npieces).countP (s.item 0).cm.pieceField = 2) [.start 0 true]
    (reachable_ofFile (fun _ => False) [1, 2, 1, 2] true 100) (by decide +kernel)
  have counted := claim twoPieces measured_twoPieces s reached 0
  rw [none, some] at counted
  cases counted

/-! ## The tests at the start -/

/-- Where its entries are different files, no event of a run changes a byte that has been
recorded while the torrent is active; a piece that is held or has a block that is recorded
is marked as allocated; nothing is divided by zero; and no piece is filled with zeros twice
after a start. -/
theorem allocated_of_reachable (sized : ∀ n, Sized (t n))
    (reached : (daemon t).Reachable (fun _ => False) s) :
    (∀ e s', (daemon t).Steps (fun _ => False) s e s' →
      ∀ n, (t n).Apart → (s.item n).cm.state = .active →
      ∀ o, Recorded (t n) (s.item n) o →
        flat (t n).files (s'.item n).disk.file o = flat (t n).files (s.item n).disk.file o) ∧
      (∀ n, (s.item n).cm.state = .active → ∀ i < (t n).npieces,
        ((s.item n).cm.pieceField i = true ∨
          ∃ b < (t n).torrentPieceBlocks i, (s.item n).cm.blockField i b = true) →
        (s.item n).cm.posField i = true) ∧
      (∀ e, ¬(daemon t).Faults (fun _ => False) s e .divideByZero) ∧
      ∀ n i, (s.item n).cm.filled i ≤ 1 := by
  have inv := inv_of_reachable sized reached
  refine ⟨fun e s' steps n apart => ?_, fun n on i lt => ?_, fun e faults => ?_,
    fun n => (inv.good n).filled⟩
  · exact (step_of_steps sized reached steps n).data (apart_of_reachable sized reached apart)
  · have active := ((inv.good n).active on).1
    rintro (held | ⟨b, block, set⟩)
    · exact active.held i lt held
    · exact active.block i lt b block set
  · have expected := expected_of_faults sized (.inr trivial) reached faults
    simp [Expected, Misused] at expected

/-- Both pieces have been filled with zeros for the first one, of which no byte changes when
the second one comes. -/
theorem allocated_of_reachable_firstPiece :
    ∃ s s' : Contents, ((s.item 0).cm.filled 0 = 1 ∧ (s.item 0).cm.filled 1 = 1) ∧
      flat [4] (s'.item 0).disk.file 0 = flat [4] (s.item 0).disk.file 0 ∧
      ∀ i, (s'.item 0).cm.filled i ≤ 1 := by
  have start : (daemon fun _ => smallTorrent 4 4).Reachable (fun _ => False)
      (.ofFile [] false 100) := .start (init_ofFile fun _ => rfl)
  obtain ⟨s, s', reached, steps, active, held, filled⟩ := System.Reachable.of_after_step
    (P := fun (s _ : Contents) => (s.item 0).cm.state = .active ∧
      (s.item 0).cm.pieceField 0 = true ∧
      ((s.item 0).cm.filled 0 = 1 ∧ (s.item 0).cm.filled 1 = 1))
    (firstPiece ++ [.newPiece 0 1]) (.block 0 1 0 [1, 2] true) start (by decide +kernel)
  have sized : ∀ n : Nat, Sized (smallTorrent 4 4) := fun _ => sized_smallTorrent (by decide) 4
  have apart : (smallTorrent 4 4).Apart := Function.injective_id.injOn
  refine ⟨s, s', filled, ?_, ?_⟩
  · exact (allocated_of_reachable sized reached).1 _ s' steps 0 apart active 0
      ⟨0, by decide, .inl ⟨held, by decide, by decide⟩⟩
  · exact (allocated_of_reachable sized (.step reached steps)).2.2.2 0

/-- Four pieces of two bytes, each the whole of an entry; the last entry has the path of the
first one. -/
def sharedFile : Torrent := { smallTorrent 8 4 with files := [2, 2, 2, 2], inode := (· % 3) }

def Contents.shared : Contents :=
  ⟨fun _ => { Item.ofFile [] false 100 with disk.inode := (· % 3) }, [], false⟩

/-- The first piece is held.  The zeros of the last one, which come with the first block of the
third one, are written over it. -/
theorem not_allocated_of_reachable :
    ¬∀ t, (∀ n, Sized (t n)) → ∀ s, (daemon t).Reachable (fun _ => False) s →
      ∀ e s', (daemon t).Steps (fun _ => False) s e s' → ∀ n, (s.item n).cm.state = .active →
        ∀ o, Recorded (t n) (s.item n) o →
          flat (t n).files (s'.item n).disk.file o = flat (t n).files (s.item n).disk.file o := by
  intro claim
  have sized : ∀ n : Nat, Sized sharedFile := fun _ =>
    ⟨by decide, by decide, by decide, by decide⟩
  have start : (daemon fun _ => sharedFile).Reachable (fun _ => False) .shared :=
    .start ⟨fun _ => rfl, fun _ => rfl, fun _ => rfl, fun _ _ => rfl, fun _ => rfl,
      fun _ _ => rfl, fun _ _ => rfl, fun _ _ => rfl, rfl⟩
  obtain ⟨s, s', reached, steps, active, held, before, after⟩ :=
    System.Reachable.of_after_step
      (P := fun s s' => (s.item 0).cm.state = .active ∧ (s.item 0).cm.pieceField 0 = true ∧
        flat sharedFile.files (s.item 0).disk.file 0 = 1 ∧
        flat sharedFile.files (s'.item 0).disk.file 0 = 0)
      (firstPiece ++ [.newPiece 0 2]) (.block 0 2 0 [1, 2] true) start (by decide +kernel)
  have same := claim _ sized s reached _ s' steps 0 active 0
    ⟨0, by decide, .inl ⟨held, ⟨by decide, by decide⟩⟩⟩
  rw [before, after] at same
  exact absurd same (by decide)

/-! ## The streams -/

/-- What holds of the streams of a torrent between two events. -/
structure Streamed (x : Item) : Prop where
  closed : x.cm.error = true ∨ x.cm.state = .inactive → ∀ b, x.cm.ptr b ≠ .live
  ghost : x.state = .ghost → x.cm.state = .inactive
  reading : x.cm.state ≠ .inactive → x.cm.ptr .rds = .live
  starting : x.cm.state = .starting → x.cm.ptr .wrs = .null
  writing : x.cm.state = .active → x.cm.ptr .wrs ≠ .freed

theorem Inv.streamed (inv : Inv t s) (n : Nat) : Streamed (s.item n) := by
  have good := inv.good n
  have fresh : (s.item n).cm.state = .starting → Fresh (t n) (s.item n) := by
    intro starting
    obtain ⟨std, mem, rfl⟩ := inv.queued n starting
    exact (inv.waiting std mem).fresh
  refine ⟨fun off => ?_, good.ghost, fun on => ?_, fun starting => (fresh starting).wrs,
    fun on => (good.active on).1.usable.wrs⟩
  · rcases off with error | inactive
    · exact good.off (good.error error)
    · exact good.off inactive
  · cases state : (s.item n).cm.state with
    | inactive => exact absurd state on
    | starting => exact (fresh state).rds
    | active => exact (good.active state).1.usable.rds

/-- In a run in which no piece is tested and no write stream is closed after an error,
and the close of the write stream in `cm_stop` is not the first error, no event uses a
stream after it has been closed or closes it twice; after an error or a stop no stream is
left open, and no stream is opened while it is open. -/
theorem streamed_of_reachable (sized : ∀ n, Sized (t n))
    (reached : (daemon t).Reachable Misuses s) :
    (∀ n, Streamed (s.item n)) ∧
      ∀ e f, (daemon t).Faults Misuses s e f → ¬Misused f ∧ f ≠ .stuck := by
  refine ⟨(inv_of_reachable sized reached).streamed, fun e f faults => ?_⟩
  have expected : Expected False f := expected_of_faults sized (.inl fun _ => id) reached faults
  rcases expected with rfl | rfl | ⟨no, -⟩
  · simp [Misused]
  · simp [Misused]
  · exact no.elim

theorem streamed_of_reachable_firstPiece :
    ∃ s, (daemon twoPieces).Reachable Misuses s ∧
      ((s.item 0).cm.state = .inactive ∧ (s.item 0).cm.npiecesGot = 1) ∧ Streamed (s.item 0) := by
  obtain ⟨s, reached, stopped⟩ := System.Reachable.of_after
    (P := fun s => (s.item 0).cm.state = .inactive ∧ (s.item 0).cm.npiecesGot = 1)
    (firstPiece ++ [.stop 0]) (reachable_ofFile Misuses [] false 100) (by decide +kernel)
  exact ⟨s, reached, stopped, (streamed_of_reachable sized_twoPieces reached).1 0⟩

/-- A torrent is stopped and the close of the write stream fails: the read stream is
closed twice. -/
theorem not_streamed_of_reachable :
    ¬∀ t, (∀ n, Sized (t n)) → ∀ s, (daemon t).Reachable (fun _ => False) s →
      ∀ e f, (daemon t).Faults (fun _ => False) s e f → ¬Misused f := by
  intro claim
  have ended : (daemon twoPieces).outcome (firstPiece ++ [.stop 0]) (.ofFile [] false 9) =
      some .closedTwice := by decide +kernel
  obtain ⟨s, e, reached, faults⟩ := System.Reachable.of_outcome _
    (reachable_ofFile (fun _ => False) [] false 9) ended
  exact claim twoPieces sized_twoPieces s reached e _ faults (.inr (.inr rfl))

end Btpd.Content
