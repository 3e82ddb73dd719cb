import Btpd.Content.Steps
import Mathlib

/-!
# The events keep the invariant

What holds of all torrents and of the queue of those that are tested, and that every
event keeps it and moves each torrent as `Step` says.
-/

namespace Btpd.Content

open Prog
open Download (Torrent pieceBlocklen setBit clearBit)

variable {t : Nat → Torrent} {n m : Nat} {s s' s'' : Contents} {x x' x'' : Item} {cm cm' : Cm}
  {callers : List Fn} {k : Contract Contents Fn CmFault} {piece index i j : Nat}
  {q : List StartTestData} {w : Bool}

/-- What holds between two events. -/
structure Inv (t : Nat → Torrent) (s : Contents) : Prop where
  good : ∀ n, Good (t n) (s.item n)
  waiting : ∀ std ∈ s.startq, Waiting (t std.tp) std.start (s.item std.tp)
  queued : ∀ n, (s.item n).cm.state = .starting → ∃ std ∈ s.startq, std.tp = n
  nodup : (s.startq.map StartTestData.tp).Nodup

/-- An event has kept the invariant, and has moved each torrent by a step. -/
structure Move (t : Nat → Torrent) (s s' : Contents) : Prop where
  inv : Inv t s'
  step : ∀ n, Step (t n) (s.item n) (s'.item n)

@[simp]
theorem Contents.setItem_item : s.setItem n (s.item n) = s := by
  simp [Contents.setItem]

/-- A torrent that is in the queue is being tested. -/
theorem Inv.free (inv : Inv t s) (off : (s.item n).cm.state ≠ .starting) : s.Free n := by
  rintro std mem rfl
  exact off (inv.waiting std mem).fresh.state

theorem Inv.refl (inv : Inv t s) : Move t s s := ⟨inv, fun _ => .refl⟩

/-- One torrent is changed, and the queue as far as it is concerned. -/
theorem Inv.move (inv : Inv t s) (good : Good (t n) x) (step : Step (t n) (s.item n) x)
    (others : ∀ std, std.tp ≠ n → (std ∈ q ↔ std ∈ s.startq))
    (waiting : ∀ std ∈ q, std.tp = n → Waiting (t n) std.start x)
    (queued : x.cm.state = .starting → ∃ std ∈ q, std.tp = n)
    (nodup : (q.map StartTestData.tp).Nodup) :
    Move t s ({ s with startq := q, workev := w }.setItem n x) := by
  have self : ({ s with startq := q, workev := w }.setItem n x).item n = x :=
    Contents.setItem_self
  have other {m : Nat} (ne : m ≠ n) :
      ({ s with startq := q, workev := w }.setItem n x).item m = s.item m :=
    Contents.setItem_of_ne ne
  refine ⟨⟨fun m => ?_, fun std mem => ?_, fun m starting => ?_, nodup⟩, fun m => ?_⟩
  · by_cases same : m = n
    · subst same
      exact self.symm ▸ good
    · rw [other same]
      exact inv.good m
  · by_cases same : std.tp = n
    · subst same
      rw [self]
      exact waiting std mem rfl
    · rw [other same]
      exact inv.waiting std ((others std same).mp mem)
  · by_cases same : m = n
    · subst same
      rw [self] at starting
      exact queued starting
    · rw [other same] at starting
      obtain ⟨std, mem, rfl⟩ := inv.queued m starting
      exact ⟨std, (others std same).mpr mem, rfl⟩
  · by_cases same : m = n
    · subst same
      exact self.symm ▸ step
    · rw [other same]
      exact .refl

/-- One torrent is changed that is not tested before and after. -/
theorem Inv.move_item (inv : Inv t s) (good : Good (t n) x) (step : Step (t n) (s.item n) x)
    (before : (s.item n).cm.state ≠ .starting) (after : x.cm.state ≠ .starting) :
    Move t s (s.setItem n x) :=
  inv.move (q := s.startq) (w := s.workev) good step (fun _ _ => Iff.rfl)
    (fun std mem same => absurd same (inv.free before std mem))
    (fun starting => absurd starting after) inv.nodup

/-- A torrent is in the queue once at most. -/
theorem ne_of_mem_eraseP (nodup : (q.map StartTestData.tp).Nodup) :
    ∀ std ∈ q.eraseP fun std => std.tp = n, std.tp ≠ n := by
  induction q with
  | nil => exact nofun
  | cons first rest ih =>
      obtain ⟨fresh, nodup⟩ := List.nodup_cons.mp nodup
      by_cases here : first.tp = n
      · rw [List.eraseP_cons_of_pos (by simpa using here)]
        rintro std mem rfl
        exact fresh (here ▸ List.mem_map_of_mem mem)
      · rw [List.eraseP_cons_of_neg (by simpa using here)]
        intro std mem
        rcases List.mem_cons.mp mem with rfl | mem
        · exact here
        · exact ih nodup std mem

/-- A torrent leaves the queue. -/
theorem Inv.move_leave (inv : Inv t s) (good : Good (t n) x)
    (step : Step (t n) (s.item n) x) (after : x.cm.state ≠ .starting) :
    Move t s ((s.leave n (s.item n).cm.state).setItem n x) := by
  unfold Contents.leave
  split
  case isFalse before => exact inv.move_item good step before after
  case isTrue starting =>
    have nodup := inv.nodup
    have sublist := (List.eraseP_sublist (p := fun std => decide (std.tp = n))
      (l := s.startq)).map StartTestData.tp
    refine inv.move (w := s.workev) good step (fun std other => ?_) ?_
      (fun starting => absurd starting after) (nodup.sublist sublist)
    · exact List.mem_eraseP_of_neg (by simpa using other)
    · intro std mem same
      exact absurd same (ne_of_mem_eraseP nodup std mem)

/-! ## Start and stop -/

/-- A torrent as `torrent_load` leaves it. -/
def Item.load (x : Item) : Item := { x with
  state := .starting
  active := false
  piece := fun _ => none
  cm := x.cm.create }

theorem Item.load_created : Created x.load.cm where
  got := rfl
  bytes := rfl
  filled _ := rfl
  error := rfl
  pos _ := rfl
  ptr _ := rfl
  tested _ := rfl

/-- A torrent in the queue. -/
theorem Waiting.good {u : Torrent} {start : Nat} (waiting : Waiting u start x)
    (state : x.state ≠ .ghost) (inactive : x.active = false) (pieces : ∀ i, x.piece i = none) :
    Good u x where
  sound := waiting.fresh.sound
  off off := by cases waiting.fresh.state.symm.trans off
  error error := by cases waiting.fresh.error.symm.trans error
  active active := by cases waiting.fresh.state.symm.trans active
  filled i := by
    rw [waiting.blank.filled]
    exact Nat.zero_le 1
  ghost ghost := absurd ghost state
  net active := by cases inactive.symm.trans active
  pieces _ := pieces

/-- A torrent that has been started or has met an error is not starting any more. -/
theorem Launched.calm {u : Torrent} (launched : Launched u x x') : x'.cm.state ≠ .starting := by
  cases launched with
  | active cm resd surveyed same eq =>
      rw [eq]
      exact nofun
  | failed cm resd surveyed failed =>
      rw [failed.eq]
      exact nofun

theorem torrentStart_wp {forceTest : Bool} (sized : Sized (t n)) (inv : Inv t s)
    (ghost : (s.item n).state = .ghost) (open_ : Contract.Open k) :
    (torrentStart t n forceTest).wp k callers (fun _ s' => Move t s s') s := by
  have good := inv.good n
  have inactive := good.ghost ghost
  have calm : (s.item n).cm.state ≠ .active := by simp [inactive]
  have idle : (s.item n).cm.state ≠ .starting := by simp [inactive]
  have free := inv.free idle
  have start : (cmStart t n forceTest).wp k callers
      (fun _ s' => Started (t n) s n (s.item n).load s') (s.setItem n (s.item n).load) :=
    cmStart_wp sized good.sound Item.load_created free open_
  unfold torrentStart
  rw [← Contents.setItem_item (s := s) (n := n), wp_bind, wp_setItem]
  refine wp_mono start fun _ s' started => ?_
  rw [Contents.setItem_item]
  have zero : ∀ i, (s.item n).load.cm.filled i ≤ 1 := fun _ => Nat.zero_le 1
  have none : ∀ i, (s.item n).load.piece i = none := fun _ => rfl
  cases started with
  | failed x' failed =>
      have step : Step (t n) (s.item n) x' := by
        refine .of_same failed.near.inode ?_ failed.near.data ?_
        · rw [failed.eq]
          rfl
        · rw [failed.eq]
          exact nofun
      refine inv.move_item (failed.good zero fun _ => none) step idle ?_
      rw [failed.eq]
      exact nofun
  | queued x₁ std w tp begun waiting =>
      obtain rfl := tp
      have step : Step (t std.tp) (s.item std.tp) x₁ :=
        ⟨begun.near.inode, fun i set => .inl (begun.piece i set),
          fun _ active => absurd active calm, fun _ active => by cases waiting.fresh.state.symm.trans active⟩
      have good₁ : Good (t std.tp) x₁ := by
        refine waiting.good ?_ ?_ ?_
        · rw [begun.eq]
          exact nofun
        · rw [begun.eq]
          rfl
        · rw [begun.eq]
          exact none
      refine inv.move good₁ step (fun e other => ?_) (fun e mem same => ?_) (fun _ => ?_) ?_
      · rw [List.mem_append, List.mem_singleton]
        exact or_iff_left fun eq => other (congrArg StartTestData.tp eq)
      · rcases List.mem_append.mp mem with old | new
        · exact absurd same (free e old)
        · obtain rfl := List.mem_singleton.mp new
          exact waiting
      · exact ⟨std, List.mem_append_right _ (List.mem_singleton_self _), rfl⟩
      · rw [List.map_append, List.map_singleton, ← List.concat_eq_append]
        refine inv.nodup.concat fun mem => ?_
        obtain ⟨e, old, same⟩ := List.mem_map.mp mem
        exact free e old same
  | launched x₁ x' begun tested launched =>
      have step : Step (t n) (s.item n) x' :=
        launched.step begun.near.inode (fun i set => .inl (begun.piece i set)) calm tested
      have good' : Good (t n) x' := by
        refine launched.good begun.fresh begun.blank ?_ ?_
        · rw [begun.eq]
          exact none
        · rw [begun.eq]
          exact nofun
      exact inv.move_item good' step idle launched.calm

/-- A torrent that is stopping, without its download. -/
def Item.halt (x : Item) : Item := { x with
  state := .stopping
  active := false
  piece := fun _ => none }

/-- A torrent that has been stopped is a ghost. -/
theorem Good.bury {u : Torrent} (good : Good u x) (inactive : x.cm.state = .inactive) :
    Good u { x with state := .ghost } where
  sound := good.sound
  off := good.off
  error := good.error
  active active := by cases inactive.symm.trans active
  filled := good.filled
  ghost _ := inactive
  net := good.net
  pieces := good.pieces

theorem Step.withState {u : Torrent} (step : Step u x x') {state : TorrentState} {active : Bool} :
    Step u x { x' with state := state, active := active } :=
  ⟨step.inode, step.hash, step.data, fun off on differs =>
    ⟨(step.verified off on differs).held, (step.verified off on differs).lost,
      (step.verified off on differs).once⟩⟩

/-- The streams of a torrent that has not been stopped. -/
theorem Inv.sane (inv : Inv t s) (on : (s.item n).cm.state ≠ .inactive) :
    Sane (t n) (s.item n) := by
  cases state : (s.item n).cm.state with
  | inactive => exact absurd state on
  | starting =>
      obtain ⟨std, mem, rfl⟩ := inv.queued n state
      exact (inv.waiting std mem).fresh.sane
  | active => exact ((inv.good n).active state).1.usable.sane

theorem torrentStop_wp (inv : Inv t s) (open_ : Contract.Open k) :
    (torrentStop t n).wp k callers (fun _ s' => Move t s s') s := by
  have good := inv.good n
  -- the rest of the routine, when the content is inactive
  have rest {x' : Item} (good' : Good (t n) x') (step : Step (t n) (s.item n) x')
      (inactive : x'.cm.state = .inactive) :
      (content n >>= fun cm => when (cm.state = CmState.inactive)
        (setItem n fun x => { x with state := .ghost })).wp k callers
        (fun _ s' => Move t s s') ((s.leave n (s.item n).cm.state).setItem n x') := by
    rw [wp_bind, wp_content, Contents.setItem_self, wp_when, if_pos inactive, wp_setItem]
    refine inv.move_leave (good'.bury inactive) step.withState ?_
    simp [inactive]
  unfold torrentStop
  rw [wp_bind, wp_item, wp_when]
  split
  case isFalse => exact inv.refl
  case isTrue =>
    rw [← Contents.setItem_item (s := s) (n := n), wp_bind, wp_setItem, wp_bind, wp_content,
      Contents.setItem_self, Contents.setItem_item]
    change wp k callers (when ((s.item n).cm.state ≠ CmState.inactive) _ >>= _) _
      (s.setItem n (s.item n).halt)
    rw [wp_bind, wp_when]
    split
    case isTrue on =>
      have sane := inv.sane on
      have halted : Sane (t n) (s.item n).halt := ⟨sane.sound, sane.state, sane.ptr, sane.both⟩
      refine wp_mono (cmStop_wp halted open_) ?_
      rintro - - ⟨x', rfl, stopped⟩
      refine rest (stopped.good good.filled rfl fun _ => rfl) ?_ ?_
      · refine .of_same stopped.near.inode ?_ stopped.near.data ?_
        · rw [stopped.eq]
          rfl
        · rw [stopped.eq]
          intro active
          cases active
      · rw [stopped.eq]
    case isFalse off =>
      have inactive : (s.item n).cm.state = .inactive := not_not.mp off
      have left : s.leave n (s.item n).cm.state = s := by
        rw [inactive, Contents.leave, if_neg (by simp)]
      rw [left] at rest
      have halted : Good (t n) (s.item n).halt := by
        refine ⟨good.sound, good.off, good.error, ?_, good.filled, ?_, ?_, fun _ _ => rfl⟩
        · intro active
          cases inactive.symm.trans active
        · intro ghost
          cases ghost
        · intro on
          cases on
      exact rest halted (.of_same rfl rfl (fun _ => rfl) id) inactive

theorem Active.withState {u : Torrent} (active : Active u x) {state : TorrentState}
    {download : Bool} : Active u { x with state := state, active := download } := by
  have usable := active.usable
  exact ⟨⟨usable.sound, usable.error, usable.state, usable.rds, usable.wrs⟩, active.live,
    ⟨active.counted.got, active.counted.bytes⟩, active.held, active.block, active.filled,
    fun i pc at_ => ⟨(active.fetched i pc at_).lt, (active.fetched i pc at_).missing,
      (active.fetched i pc at_).alloc, (active.fetched i pc at_).ngot⟩⟩

/-- Only the state of the torrent is changed after an event. -/
theorem Move.withState (move : Move t s s') {state : TorrentState} {active : Bool}
    (good : Good (t n) { s'.item n with state := state, active := active })
    (idle : (s'.item n).cm.state ≠ .starting) :
    Move t s (s'.setItem n { s'.item n with state := state, active := active }) := by
  have after := move.inv.move_item good (.of_same rfl rfl (fun _ => rfl) id) idle idle
  refine ⟨after.inv, fun m => ?_⟩
  by_cases same : m = n
  · subst same
    rw [Contents.setItem_self]
    exact (move.step m).withState
  · rw [Contents.setItem_of_ne same]
    exact move.step m

theorem tickState_wp (move : Move t s s') :
    (tickState n).wp k callers (fun _ s'' => Move t s s'') s' := by
  have good := move.inv.good n
  unfold tickState
  rw [wp_bind, wp_item]
  split
  · rw [wp_when]
    split
    case isFalse => exact move
    case isTrue on =>
      rw [← Contents.setItem_item (s := s') (n := n), wp_setItem]
      refine move.withState ?_ (by simp [on])
      refine ⟨good.sound, good.off, good.error, fun active => ?_, good.filled, nofun,
        fun _ => .inl on, nofun⟩
      exact ⟨(good.active active).1.withState, (good.active active).2⟩
  · rw [wp_when]
    split
    case isFalse => exact move
    case isTrue off =>
      rw [← Contents.setItem_item (s := s') (n := n), wp_setItem]
      exact move.withState (good.bury off) (by simp [off])
  · exact wp_pure.mpr move

theorem torrentOnTick_wp (inv : Inv t s) (open_ : Contract.Open k) :
    (torrentOnTick t n).wp k callers (fun _ s' => Move t s s') s := by
  unfold torrentOnTick
  rw [wp_bind, wp_item]
  refine wp_between (fun _ s' => Move t s s') ?_ fun _ _ => tickState_wp
  rw [wp_when]
  split
  · exact torrentStop_wp inv open_
  · exact inv.refl

/-! ## The timer -/

section Head

variable {std : StartTestData} {rest : List StartTestData}

theorem Inv.head_free (inv : Inv t s) (queue : s.startq = std :: rest) :
    ∀ e ∈ rest, e.tp ≠ std.tp := by
  have nodup := inv.nodup
  rw [queue] at nodup
  intro e mem same
  exact (List.nodup_cons.mp nodup).1 (same ▸ List.mem_map_of_mem mem)

/-- The torrent at the head of the queue is changed, and leaves the queue. -/
theorem Inv.move_head (inv : Inv t s) (queue : s.startq = std :: rest)
    (good : Good (t std.tp) x) (step : Step (t std.tp) (s.item std.tp) x)
    (after : x.cm.state ≠ .starting) :
    Move t s ({ s with startq := rest, workev := w }.setItem std.tp x) := by
  have nodup := inv.nodup
  rw [queue] at nodup
  refine inv.move good step (fun e other => ?_)
    (fun e mem same => absurd same (inv.head_free queue e mem))
    (fun starting => absurd starting after) (List.nodup_cons.mp nodup).2
  rw [queue, List.mem_cons]
  exact (or_iff_right fun eq => other (congrArg StartTestData.tp eq)).symm

/-- The torrent at the head of the queue stays there with the next piece. -/
theorem Inv.move_next {start : Nat} (inv : Inv t s) (queue : s.startq = std :: rest)
    (good : Good (t std.tp) x) (step : Step (t std.tp) (s.item std.tp) x)
    (waiting : Waiting (t std.tp) start x) :
    Move t s ({ s with
      startq := { std with start := start } :: rest
      workev := w }.setItem std.tp x) := by
  have nodup := inv.nodup
  rw [queue] at nodup
  refine inv.move good step (fun e other => ?_) (fun e mem same => ?_)
    (fun _ => ⟨_, List.mem_cons_self, rfl⟩) nodup
  · rw [queue, List.mem_cons, List.mem_cons]
    refine or_congr_left (iff_of_false ?_ ?_)
    · rintro rfl
      exact other rfl
    · rintro rfl
      exact other rfl
  · rcases List.mem_cons.mp mem with rfl | mem
    · exact waiting
    · exact absurd same (inv.head_free queue e mem)

end Head

/-- The torrent is being started, so its download is not active. -/
theorem Good.starting {u : Torrent} {start : Nat} (good : Good u x)
    (waiting : Waiting u start x) :
    x.state ≠ .ghost ∧ x.active = false ∧ ∀ i, x.piece i = none := by
  have fresh := waiting.fresh
  have idle : x.active = false := by
    refine (Bool.not_eq_true _).mp fun active => ?_
    rcases good.net active with on | error
    · cases fresh.state.symm.trans on
    · cases fresh.error.symm.trans error
  refine ⟨fun ghost => ?_, idle, good.pieces idle⟩
  cases fresh.state.symm.trans (good.ghost ghost)

theorem Tried.blank {u : Torrent} {ok : Bool} (tried : Tried u piece x x') (blank : Blank x.cm) :
    Blank (x'.mark piece ok).cm := by
  rw [Item.mark, tried.eq]
  exact ⟨blank.got, blank.bytes, blank.filled⟩

theorem startupTestRun_moves (sized : ∀ n, Sized (t n)) (inv : Inv t s)
    (open_ : Contract.Open k) :
    (startupTestRun t).wp k callers (fun _ s' => Move t s s') s := by
  rcases queue : s.startq with - | ⟨std, rest⟩
  · unfold startupTestRun
    rw [wp_bind, wp_get, queue]
    exact wp_pure.mpr inv.refl
  have waiting := inv.waiting std (queue ▸ List.mem_cons_self)
  have good := inv.good std.tp
  have free := inv.head_free queue
  have run : (startupTestRun t).wp k callers
      (fun _ s' => Probed (t std.tp) s std rest (s.item std.tp) s')
      (s.setItem std.tp (s.item std.tp)) :=
    startupTestRun_wp (sized std.tp) queue free waiting open_
  rw [Contents.setItem_item] at run
  refine wp_mono run fun _ s' probed => ?_
  generalize item : s.item std.tp = x at waiting good probed
  obtain ⟨state, idle, pieces⟩ := good.starting waiting
  have hash {x₁ : Item} {ok : Bool} (tried : Tried (t std.tp) std.start x x₁)
      (truth : ok = true ↔ HashOk (t std.tp) x std.start) (i : Nat)
      (set : (x₁.mark std.start ok).cm.pieceField i = true) :
      x.cm.pieceField i = true ∨ HashOk (t std.tp) (x₁.mark std.start ok) i := by
    rw [Item.mark_pieceField, tried.eq] at set
    split at set
    case isTrue here =>
      exact .inr ((HashOk.congr tried.same.flat).mpr (here ▸ truth.mp set))
    case isFalse => exact .inl set
  cases probed with
  | failed x₁ x' tried failed =>
      have piece : x'.cm.pieceField = x.cm.pieceField := by rw [failed.eq, tried.eq]
      have near := tried.same.near.trans failed.near
      have off : x'.cm.state = .inactive := by rw [failed.eq]
      refine inv.move_head queue (failed.good ?_ ?_) ?_ (by simp [off])
      · rw [tried.eq]
        exact good.filled
      · rw [tried.eq]
        exact fun _ => pieces
      · rw [item]
        exact .of_same near.inode piece near.data fun active => by cases off.symm.trans active
  | next x₁ ok w' tried truth lt =>
      have fresh : Fresh (t std.tp) (x₁.mark std.start ok) := (tried.fresh waiting.fresh).mark
      have blank : Blank (x₁.mark std.start ok).cm := tried.blank waiting.blank
      obtain ⟨-, -, -, set⟩ := nextPiece_spec (u := t std.tp) x.cm std.start
      have waiting' : Waiting (t std.tp) (nextPiece (t std.tp) x.cm std.start)
          (x₁.mark std.start ok) := by
        refine ⟨fresh, blank, waiting.tested.step waiting.set tried truth, lt, ?_⟩
        rw [Item.mark, tried.eq]
        exact set (by omega)
      refine inv.move_next queue (waiting'.good ?_ ?_ ?_) ?_ waiting'
      · rw [Item.mark, tried.eq]
        exact state
      · rw [Item.mark, tried.eq]
        exact idle
      · rw [Item.mark, tried.eq]
        exact pieces
      · rw [item]
        refine ⟨tried.same.inode, fun i set => ?_, fun _ active => ?_, fun _ active => ?_⟩
        · exact (hash tried truth i set).imp_right fun ok =>
            ok.hashed (Streams.Same.refl fresh.sound).near
        · cases waiting.fresh.state.symm.trans active
        · cases fresh.state.symm.trans active
  | last x₁ x' ok w' tried truth le launched =>
      have fresh : Fresh (t std.tp) (x₁.mark std.start ok) := (tried.fresh waiting.fresh).mark
      refine inv.move_head queue (launched.good fresh (tried.blank waiting.blank) ?_ ?_) ?_
        launched.calm
      · rw [Item.mark, tried.eq]
        exact pieces
      · rw [Item.mark, tried.eq]
        exact state
      · rw [item]
        refine launched.step tried.same.inode (hash tried truth) (by simp [waiting.fresh.state])
          fun _ => ?_
        have tested := waiting.tested.step waiting.set tried truth
        obtain ⟨-, upper, -⟩ := nextPiece_spec (u := t std.tp) x.cm std.start
        have last : nextPiece (t std.tp) x.cm std.start = (t std.tp).npieces :=
          Nat.le_antisymm (Nat.le_trans upper (Nat.le_of_eq
            (Nat.add_sub_cancel' waiting.lt))) le
        exact last ▸ tested

/-! ## Pieces and blocks -/

/-- A piece whose download begins. -/
def Item.newPiece (u : Torrent) (x : Item) (index : Nat) : Item := { x with
  piece := Function.update x.piece index (some ⟨(x.cm.stored u index).length, 0⟩)
  cm.posField := if u.cmAllocSize = 0 then setBit x.cm.posField index else x.cm.posField }

theorem dlNewPiece_wp (allocFull : k.allowed .allocFull) :
    (dlNewPiece t n index).wp k callers (Does n s fun x' => x' = x.newPiece (t n) index)
      (s.setItem n x) := by
  unfold dlNewPiece setPiece
  rw [wp_bind, wp_when]
  split
  case isTrue zero =>
    rw [wp_setContent, wp_bind, wp_content, Contents.setItem_self]
    dsimp only
    rw [wp_bind, wp_assert]
    split
    case isFalse => exact allocFull
    case isTrue =>
      rw [wp_setItem, List.countP_eq_length_filter]
      refine ⟨_, rfl, ?_⟩
      rw [Item.newPiece, if_pos zero]
      rfl
  case isFalse some =>
    rw [wp_bind, wp_content, Contents.setItem_self]
    dsimp only
    rw [wp_bind, wp_assert]
    split
    case isFalse => exact allocFull
    case isTrue =>
      rw [wp_setItem, List.countP_eq_length_filter]
      refine ⟨_, rfl, ?_⟩
      rw [Item.newPiece, if_neg some]
      rfl

theorem Item.newPiece_pos {u : Torrent} (set : x.cm.posField i = true) :
    (x.newPiece u index).cm.posField i = true := by
  unfold newPiece
  dsimp only
  split
  · rw [setBit, Function.update_apply, set, ite_self]
  · exact set

theorem Active.newPiece {u : Torrent} (active : Active u x) (lt : index < u.npieces)
    (missing : x.cm.pieceField index = false) : Active u (x.newPiece u index) := by
  have usable := active.usable
  refine ⟨⟨usable.sound, usable.error, usable.state, usable.rds, usable.wrs⟩, active.live,
    ⟨active.counted.got, active.counted.bytes⟩,
    fun i lt set => Item.newPiece_pos (active.held i lt set),
    fun i lt b block set => Item.newPiece_pos (active.block i lt b block set), fun i clear => ?_,
    fun i pc at_ => ?_⟩
  · refine active.filled i ((Bool.not_eq_true _).mp fun set => ?_)
    cases (Item.newPiece_pos set).symm.trans clear
  · unfold Item.newPiece at at_
    dsimp only at at_
    rw [Function.update_apply] at at_
    split at at_
    case isTrue here =>
      obtain rfl := Option.some.inj at_
      refine ⟨here ▸ lt, here ▸ missing, fun zero => ?_, here ▸ rfl⟩
      unfold Item.newPiece
      dsimp only
      rw [if_pos zero, here]
      exact Function.update_self ..
    case isFalse other =>
      have fetched := active.fetched i pc at_
      exact ⟨fetched.lt, fetched.missing, fun zero => Item.newPiece_pos (fetched.alloc zero),
        fetched.ngot⟩

/-- A torrent whose download is active is not being started. -/
theorem Inv.calm (inv : Inv t s) (active : (s.item n).active = true) :
    (s.item n).cm.state ≠ .starting := by
  intro starting
  obtain ⟨std, mem, rfl⟩ := inv.queued n starting
  have idle := ((inv.good std.tp).starting (inv.waiting std mem)).2.1
  cases active.symm.trans idle

/-- A routine that starts from the item as it is. -/
theorem wp_here {α : Type} {m : Action α} {Q : α → Item → Prop}
    (met : m.wp k callers (On n s Q) (s.setItem n (s.item n))) : m.wp k callers (On n s Q) s := by
  rw [Contents.setItem_item] at met
  exact met

theorem newPiece_moves (inv : Inv t s) (active : (s.item n).active = true)
    (lt : index < (t n).npieces) (missing : (s.item n).cm.pieceField index = false)
    (allocFull : k.allowed .allocFull) :
    (dlNewPiece t n index).wp k callers (fun _ s' => Move t s s') s := by
  have good := inv.good n
  have calm := inv.calm active
  refine wp_mono (wp_here (dlNewPiece_wp allocFull)) ?_
  rintro - - ⟨-, rfl, rfl⟩
  refine inv.move_item ⟨good.sound, good.off, good.error, fun on => ?_, good.filled, good.ghost,
    good.net, fun idle => ?_⟩ (.of_same rfl rfl (fun _ => rfl) id) calm calm
  · exact ⟨(good.active on).1.newPiece lt missing, (good.active on).2⟩
  · cases active.symm.trans idle

/-! ## Reading -/

theorem Kept.good {u : Torrent} (kept : Kept u x x') (good : Good u x) : Good u x' := by
  have sound := kept.same.sound
  have fit : x.cm.state = .active → Active u x' ∧ Open u x' := by
    intro on
    refine ⟨kept.active (good.active on).1, ?_⟩
    rw [kept.eq]
    exact (good.active on).2
  rw [kept.eq] at fit ⊢
  exact ⟨sound, good.off, good.error, fit, good.filled, good.ghost, good.net, good.pieces⟩

theorem read_moves {begin len : Nat} (sized : Sized (t n)) (inv : Inv t s)
    (active : (s.item n).active = true) (lt : index < (t n).npieces) (some : 0 < len)
    (inside : ((begin + len : Nat) : Int) ≤ (t n).torrentPieceSize index)
    (open_ : Contract.Open k) :
    (cmGetBytes t n index begin len).wp k callers (fun _ s' => Move t s s') s := by
  have good := inv.good n
  have calm := inv.calm active
  by_cases error : (s.item n).cm.error = true
  · refine wp_mono (wp_here (cmGetBytes_again error)) ?_
    rintro - - ⟨-, rfl, rfl⟩
    rw [Contents.setItem_item]
    exact inv.refl
  · have on := (good.net active).resolve_right error
    have within : index * (t n).pieceLength + begin + len ≤ (t n).files.sum := by
      have le := sized.piece_le lt
      rw [sized.torrentPieceSize_eq lt] at inside
      omega
    refine wp_mono (wp_here (cmGetBytes_wp (good.active on).1.usable within some open_)) ?_
    rintro - - ⟨x', rfl, kept | failed⟩
    · have step : Step (t n) (s.item n) x' := by
        refine .of_same kept.same.inode ?_ (fun _ => kept.same.flat) ?_
        · rw [kept.eq]
        · rw [kept.eq]
          exact id
      refine inv.move_item (kept.good good) step calm ?_
      rw [kept.eq]
      exact calm
    · refine inv.move_item (failed.good good.filled good.pieces) failed.step calm ?_
      rw [failed.eq]
      exact nofun

end Btpd.Content
