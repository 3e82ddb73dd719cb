import Btpd.Content.Layout

/-!
# Errors and the stop of a torrent

What `cm_on_error`, `cm_write_done` and `cm_stop` do to the streams of a torrent, and
the routines that read.  Each of them changes only what belongs to its torrent.
-/

namespace Btpd.Content

open Prog
open Download (Torrent pieceBlocklen)

variable {t : Nat → Torrent} {n m : Nat} {s s' : Contents} {x x' x'' : Item} {b : Name}
  {callers : List Fn} {k : Contract Contents Fn CmFault} {piece begin len depth : Nat}

/-! ## Routines of one torrent -/

/-- Only the item of the torrent is another one. -/
def On {α : Type} (n : Nat) (s : Contents) (Q : α → Item → Prop) (a : α) (s' : Contents) :
    Prop :=
  ∃ x, s' = s.setItem n x ∧ Q a x

/-- A routine that gives back nothing. -/
abbrev Does (n : Nat) (s : Contents) (Q : Item → Prop) (a : Unit) (s' : Contents) : Prop :=
  On n s (fun _ => Q) a s'

theorem on_mono {α : Type} {Q R : α → Item → Prop} {m : Action α}
    (met : m.wp k callers (On n s Q) s') (weaker : ∀ a x, Q a x → R a x) :
    m.wp k callers (On n s R) s' :=
  wp_mono met fun a _ ⟨x, eq, q⟩ => ⟨x, eq, weaker a x q⟩

/-- The rule of composition. -/
theorem on_seq {α β : Type} {Q : α → Item → Prop} {R : β → Contents → Prop} {m : Action α}
    {f : α → Action β} (first : m.wp k callers (On n s Q) s')
    (second : ∀ a x, Q a x → (f a).wp k callers R (s.setItem n x)) :
    (m >>= f).wp k callers R s' := by
  refine wp_seq first ?_
  rintro a - ⟨x, rfl, q⟩
  exact second a x q

@[simp]
theorem wp_item {post : Item → Contents → Prop} :
    (item n).wp k callers post s ↔ post (s.item n) s := by
  simp [item]

@[simp]
theorem wp_content {post : Cm → Contents → Prop} :
    (content n).wp k callers post s ↔ post (s.item n).cm s := by
  simp [content]

theorem wp_setItem {f : Item → Item} {post : Unit → Contents → Prop} :
    (setItem n f).wp k callers post (s.setItem n x) ↔ post () (s.setItem n (f x)) := by
  simp [setItem]

theorem wp_setContent {f : Cm → Cm} {post : Unit → Contents → Prop} :
    (setContent n f).wp k callers post (s.setItem n x) ↔
      post () (s.setItem n { x with cm := f x.cm }) :=
  wp_setItem

theorem wp_setPtr {p : Ptr} {post : Unit → Contents → Prop} :
    (setPtr n b p).wp k callers post (s.setItem n x) ↔
      post () (s.setItem n { x with cm.ptr := Function.update x.cm.ptr b p }) :=
  wp_setItem

/-- A routine on the disk of the torrent. -/
theorem onDisk_wp {α : Type} {m : Routine α} {post : α → Streams → Prop}
    (met : m.wp strict [] post x.disk) :
    (onDisk n m).wp k callers (On n s fun a x' => ∃ d, x' = { x with disk := d } ∧ post a d)
      (s.setItem n x) := by
  refine wp_zoom (wp_of_strict ?_)
  rw [Contents.setItem_self]
  refine wp_mono met fun a d ended => ?_
  exact ⟨_, Contents.setItem_setItem, d, rfl, ended⟩

/-! ## What is allowed -/

/-- The calls that let a stream be used again after it has been closed: the piece of a
torrent that has met an error is tested; the write stream is closed in `cm_stop`, fails,
and no error has been met before; the write stream is closed when the last piece has
passed its test, and an error has been met since then. -/
def Misuses (c : Call Contents Fn) : Prop :=
  match c.fn with
  | .cmStop _ => False
  | .cmTestPiece n _ => (c.entry.item n).cm.error = true
  | .cmWriteDone n =>
      if c.callers.head? = some (.cmStop n) then
        (c.entry.item n).cm.error = false ∧ CloseFails (c.entry.item n).disk .wrs
      else (c.entry.item n).cm.error = true

instance (c : Call Contents Fn) : Decidable (Misuses c) := by
  unfold Misuses
  split <;> infer_instance

/-- The faults of a stream that is closed or `NULL`. -/
def Misused (f : CmFault) : Prop := f = .nullStream ∨ f = .usedClosed ∨ f = .closedTwice

/-- The contract leaves open what becomes of a misused stream. -/
def Contract.Open (k : Contract Contents Fn CmFault) : Prop :=
  (∀ c, Misuses c → k.bad c) ∨ ∀ f, Misused f → k.allowed f

/-! ## Streams of a torrent -/

/-- Nothing has changed but the places of the streams. -/
structure Kept (t : Torrent) (x x' : Item) : Prop where
  same : x.disk.Same t.files x'.disk
  eq : x' = { x with disk := x'.disk }

theorem Kept.refl {t : Torrent} (sound : x.disk.Sound t.files) : Kept t x x :=
  ⟨.refl sound, rfl⟩

theorem useStream_wp {α : Type} {m : Routine α} {post : α → Streams → Prop}
    (live : x.cm.ptr b = .live) (met : m.wp strict [] post x.disk) :
    (useStream n b m).wp k callers
      (On n s fun a x' => ∃ d, x' = { x with disk := d } ∧ post a d) (s.setItem n x) := by
  unfold useStream
  rw [wp_bind, wp_content, Contents.setItem_self, live]
  exact onDisk_wp met

theorem openStream_wp (sound : x.disk.Sound (t n).files) :
    (openStream n b).wp k callers (On n s fun err x' => ∃ d, x.disk.Same (t n).files d ∧
      (err = none → x' = { x with
        disk := d
        cm.ptr := Function.update x.cm.ptr b .live }) ∧
      (err ≠ none → x' = { x with disk := d })) (s.setItem n x) := by
  unfold openStream
  refine on_seq (onDisk_wp (btsOpen_same sound)) ?_
  rintro err x' ⟨d, rfl, same⟩
  cases err with
  | some e => exact wp_pure.mpr ⟨_, rfl, d, same, nofun, fun _ => rfl⟩
  | none =>
      dsimp only
      rw [wp_bind, wp_setPtr, wp_pure]
      exact ⟨_, rfl, d, same, fun _ => rfl, fun some => absurd rfl some⟩

/-- What is left of a torrent after one of its streams has been closed. -/
structure Closed (t : Torrent) (b : Name) (x x' : Item) : Prop where
  same : x.disk.Same t.files x'.disk
  eq : x' = { x with
    disk := x'.disk
    cm.ptr := Function.update x.cm.ptr b .freed }

theorem closeStream_wp (sound : x.disk.Sound (t n).files) (live : x.cm.ptr b = .live) :
    (closeStream n b).wp k callers (On n s fun err x' => Closed (t n) b x x' ∧
      (err ≠ none → CloseFails x.disk b)) (s.setItem n x) := by
  unfold closeStream
  rw [wp_bind, wp_content, Contents.setItem_self, live]
  refine on_seq (onDisk_wp (btsClose_same sound)) ?_
  rintro err x' ⟨d, rfl, same, failed⟩
  rw [wp_bind, wp_setPtr, wp_pure]
  exact ⟨_, rfl, ⟨same, rfl⟩, failed⟩

/-! ## `cm_write_done` -/

/-- What is left after the write stream has been closed; the sizes and times may have
been saved. -/
structure Written (t : Torrent) (x x' : Item) : Prop where
  near : x.disk.Near t.files x'.disk
  eq : x' = { x with
    disk := x'.disk
    cm := { x.cm with
      ptr := Function.update x.cm.ptr .wrs .null
      resd := x'.cm.resd } }

theorem cmSave_wp (sound : x.disk.Sound (t n).files) :
    (cmSave t n).wp k callers (Does n s fun x' => x.disk.Near (t n).files x'.disk ∧
      x' = { x with disk := x'.disk, cm.resd := x'.cm.resd }) (s.setItem n x) := by
  unfold cmSave
  refine on_seq (onDisk_wp (statAndAdjust_near sound rfl)) ?_
  rintro fts x₁ ⟨d₁, rfl, near, -⟩
  have drawn : junk.wp strict [] (fun _ d => d₁.Same (t n).files d) d₁ := by
    unfold junk
    rw [wp_bind, wp_choose, wp_pure]
    exact ⟨near.sound, rfl, rfl⟩
  refine on_seq (onDisk_wp drawn) ?_
  rintro rest x₂ ⟨d₂, rfl, same⟩
  rw [wp_setContent]
  exact ⟨_, rfl, near.trans same.near, rfl⟩

/-- `cm_write_done` closes the stream, and ends by saving the sizes or as `cm_stop`
ends. -/
theorem cmWriteDoneBy_wp {stop : Action Unit} {R : Item → Prop}
    (sound : x.disk.Sound (t n).files) (live : x.cm.ptr .wrs = .live)
    (saved : ∀ x', Written (t n) x x' → R x')
    (failed : x.cm.error = false → CloseFails x.disk .wrs → ∀ x', Written (t n) x x' →
      stop.wp k (.cmWriteDone n :: callers) (Does n s fun x'' => R x'' ∧ x''.cm.error = true)
        (s.setItem n { x' with cm.error := true })) :
    (cmWriteDoneBy t stop n).wp k callers (Does n s R) (s.setItem n x) := by
  refine wp_call.mpr (.inr ?_)
  refine on_seq (closeStream_wp sound live) ?_
  rintro err x₁ ⟨⟨same, eq⟩, closeFails⟩
  rw [wp_bind, wp_setPtr, wp_bind, wp_content, Contents.setItem_self]
  generalize written : { x₁ with cm.ptr := Function.update x₁.cm.ptr .wrs .null } = x₂
  have done : Written (t n) x x₂ := by
    rw [eq] at written
    subst written
    exact ⟨same.near, by simp⟩
  have error : x₂.cm.error = x.cm.error := by rw [done.eq]
  rw [wp_bind, wp_when]
  split
  case isTrue failure =>
    obtain ⟨some, none⟩ := failure
    unfold cmOnErrorBy
    rw [wp_bind, wp_content, Contents.setItem_self, wp_when, if_pos none, wp_bind,
      wp_setContent]
    refine wp_mono (failed (error ▸ none) (closeFails (Option.isSome_iff_ne_none.mp some)) x₂
      done) ?_
    rintro - - ⟨x₃, rfl, holds, met⟩
    rw [wp_bind, wp_content, Contents.setItem_self, wp_when, if_neg (by simp [met])]
    exact ⟨x₃, rfl, holds⟩
  case isFalse =>
    rw [wp_bind, wp_content, Contents.setItem_self, wp_when]
    split
    · refine on_mono (cmSave_wp done.near.sound) ?_
      rintro - x₃ ⟨near₃, eq₃⟩
      refine saved x₃ ⟨done.near.trans near₃, ?_⟩
      rw [eq₃, done.eq]
    · exact ⟨x₂, rfl, saved x₂ done⟩

/-! ## `cm_stop` -/

/-- The state without the entry of a torrent that is being tested. -/
def Contents.leave (s : Contents) (n : Nat) (state : CmState) : Contents :=
  if state = .starting then { s with startq := s.startq.eraseP fun std => std.tp = n } else s

/-- The streams of a torrent that is active or starting: no pointer is left to a stream
that has been closed. -/
structure Sane (t : Torrent) (x : Item) : Prop where
  sound : x.disk.Sound t.files
  state : x.cm.state ≠ .inactive
  ptr : ∀ b, x.cm.ptr b ≠ .freed
  both : x.cm.ptr .wrs ≠ .null → x.cm.ptr .rds ≠ .null

/-- What `cm_stop` leaves behind. -/
structure Stopped (t : Torrent) (x x' : Item) : Prop where
  near : x.disk.Near t.files x'.disk
  ptr : ∀ b, x'.cm.ptr b ≠ .live
  eq : x' = { x with
    disk := x'.disk
    cm := { x.cm with
      state := .inactive
      ptr := x'.cm.ptr
      resd := x'.cm.resd } }

theorem wp_leave {post : Unit → Contents → Prop} {state : CmState} :
    (when (state = .starting) (dequeue n)).wp k callers post (s.setItem n x) ↔
      post () ((s.leave n state).setItem n x) := by
  unfold dequeue Contents.leave
  rw [wp_when, wp_modify]
  split <;> rfl

/-- A second `cm_stop` finds the pointer to the stream that the first one has closed. -/
theorem cmStopBy_twice {post : Unit → Contents → Prop} (state : x.cm.state ≠ .inactive)
    (freed : x.cm.ptr .rds = .freed) (allowed : k.allowed .closedTwice) :
    (cmStopBy t (depth + 1) n).wp k callers post (s.setItem n x) := by
  refine wp_call.mpr (.inr ?_)
  rw [wp_bind, wp_content, Contents.setItem_self, wp_when, if_pos state, wp_bind, wp_leave,
    wp_bind, wp_when, if_pos (by simp [freed]), wp_bind]
  unfold closeStream
  rw [wp_bind, wp_content, Contents.setItem_self, freed]
  exact wp_fault.mpr allowed

/-- The pointer to a stream after it has been closed. -/
def Ptr.closed (p : Ptr) : Ptr := if p = .null then .null else .freed

theorem Ptr.closed_ne_live {p : Ptr} : p.closed ≠ .live := by
  cases p <;> decide

/-- The close of the read stream in `cm_stop`. -/
theorem closeRead_wp (sane : Sane (t n) x) :
    (when (x.cm.ptr .rds ≠ .null) do
      let _ ← closeStream n .rds).wp k callers (Does n s fun x' =>
        x.disk.Same (t n).files x'.disk ∧ x' = { x with
          disk := x'.disk
          cm.ptr := Function.update x.cm.ptr .rds (x.cm.ptr .rds).closed }) (s.setItem n x) := by
  rw [wp_when]
  cases ptr : x.cm.ptr .rds with
  | null =>
      rw [if_neg (by simp)]
      refine ⟨x, rfl, .refl sane.sound, ?_⟩
      rw [show Ptr.null.closed = x.cm.ptr .rds from ptr.symm, Function.update_eq_self]
  | freed => exact absurd ptr (sane.ptr .rds)
  | live =>
      rw [if_pos (by simp)]
      refine on_seq (closeStream_wp sane.sound ptr) ?_
      rintro err x₁ ⟨⟨same, eq⟩, -⟩
      exact wp_pure.mpr ⟨x₁, rfl, same, eq⟩

/-- The close of the write stream in `cm_stop`. -/
theorem closeWrite_wp (sound : x.disk.Sound (t n).files) (state : x.cm.state ≠ .inactive)
    (ptr : x.cm.ptr .wrs ≠ .freed)
    (both : x.cm.ptr .wrs ≠ .null → x.cm.ptr .rds = .freed)
    (deep : x.cm.error = false → depth ≠ 0) (open_ : Contract.Open k) :
    (when (x.cm.ptr .wrs ≠ .null) (cmWriteDoneBy t (cmStopBy t depth n) n)).wp k
      (.cmStop n :: callers) (Does n s (Written (t n) x)) (s.setItem n x) := by
  rw [wp_when]
  cases wrs : x.cm.ptr .wrs with
  | null =>
      rw [if_neg (by simp)]
      refine ⟨x, rfl, (Streams.Same.refl sound).near, ?_⟩
      rw [← wrs, Function.update_eq_self]
  | freed => exact absurd wrs ptr
  | live =>
      rw [if_pos (by simp)]
      by_cases misuse : x.cm.error = false ∧ CloseFails x.disk .wrs
      · rcases open_ with bad | allowed
        · refine wp_call.mpr (.inl (bad _ ?_))
          unfold Misuses
          dsimp only
          rw [if_pos List.head?_cons, Contents.setItem_self]
          exact misuse
        · obtain ⟨d, rfl⟩ := Nat.exists_eq_succ_of_ne_zero (deep misuse.1)
          refine cmWriteDoneBy_wp sound wrs (fun _ written => written) ?_
          intro _ _ x' written
          have freed : x'.cm.ptr .rds = .freed := by
            rw [written.eq]
            exact both (by simp [wrs])
          refine cmStopBy_twice ?_ freed (allowed _ (.inr (.inr rfl)))
          rw [written.eq]
          exact state
      · exact cmWriteDoneBy_wp sound wrs (fun _ written => written)
          fun none fails => absurd ⟨none, fails⟩ misuse

/-- `cm_stop` closes both streams; that goes wrong when the close of the write stream
is the first error. -/
theorem cmStopBy_wp (sane : Sane (t n) x) (deep : x.cm.error = false → depth ≠ 0)
    (open_ : Contract.Open k) :
    (cmStopBy t (depth + 1) n).wp k callers (Does n (s.leave n x.cm.state) (Stopped (t n) x))
      (s.setItem n x) := by
  refine wp_call.mpr (.inr ?_)
  rw [wp_bind, wp_content, Contents.setItem_self, wp_when, if_pos sane.state, wp_bind, wp_leave]
  generalize s.leave n x.cm.state = s₀
  refine on_seq (closeRead_wp sane) ?_
  rintro - x₁ ⟨same₁, eq₁⟩
  have wrs : x₁.cm.ptr .wrs = x.cm.ptr .wrs := by rw [eq₁]; rfl
  rw [← wrs]
  have error : x₁.cm.error = x.cm.error := by rw [eq₁]
  have state : x₁.cm.state = x.cm.state := by rw [eq₁]
  have both : x₁.cm.ptr .wrs ≠ .null → x₁.cm.ptr .rds = .freed := by
    intro some
    rw [eq₁]
    exact if_neg (sane.both (wrs ▸ some))
  refine on_seq (closeWrite_wp same₁.sound (state ▸ sane.state) (wrs ▸ sane.ptr .wrs) both
    (error ▸ deep) open_) ?_
  rintro - x₂ ⟨near₂, eq₂⟩
  rw [wp_setContent]
  refine ⟨_, rfl, same₁.near.trans near₂, fun b => ?_, ?_⟩
  · rw [eq₂, eq₁]
    cases b with
    | rds => exact Ptr.closed_ne_live
    | wrs => exact nofun
  · rw [eq₂, eq₁]

/-! ## `cm_on_error` -/

/-- What an error leaves behind. -/
structure Failed (t : Torrent) (x x' : Item) : Prop where
  near : x.disk.Near t.files x'.disk
  ptr : ∀ b, x'.cm.ptr b ≠ .live
  eq : x' = { x with
    disk := x'.disk
    cm := { x.cm with
      error := true
      state := .inactive
      ptr := x'.cm.ptr
      resd := x'.cm.resd } }

theorem cmStop_wp (sane : Sane (t n) x) (open_ : Contract.Open k) :
    (cmStop t n).wp k callers (Does n (s.leave n x.cm.state) (Stopped (t n) x))
      (s.setItem n x) :=
  cmStopBy_wp sane (fun _ => Nat.one_ne_zero) open_

/-- A torrent that is active is not in the queue. -/
theorem cmStop_active_wp (sane : Sane (t n) x) (on : x.cm.state = .active)
    (open_ : Contract.Open k) :
    (cmStop t n).wp k callers (Does n s (Stopped (t n) x)) (s.setItem n x) := by
  have met : (cmStop t n).wp k callers (Does n (s.leave n x.cm.state) (Stopped (t n) x))
      (s.setItem n x) := cmStop_wp sane open_
  rw [on] at met
  exact met

/-- The first error stops the torrent. -/
theorem cmOnError_wp (sane : Sane (t n) x) (first : x.cm.error = false)
    (open_ : Contract.Open k) :
    (cmOnError t n).wp k callers (Does n (s.leave n x.cm.state) (Failed (t n) x))
      (s.setItem n x) := by
  unfold cmOnError cmOnErrorBy
  rw [wp_bind, wp_content, Contents.setItem_self, wp_when, if_pos first, wp_bind, wp_setContent]
  have sane' : Sane (t n) { x with cm.error := true } := ⟨sane.sound, sane.state, sane.ptr, sane.both⟩
  refine on_mono (cmStop_wp sane' open_) ?_
  rintro - x' ⟨near, ptr, eq⟩
  exact ⟨near, ptr, eq⟩

/-! ## Reading -/

/-- A torrent that is active. -/
structure Usable (t : Torrent) (x : Item) : Prop where
  sound : x.disk.Sound t.files
  error : x.cm.error = false
  state : x.cm.state = .active
  rds : x.cm.ptr .rds = .live
  wrs : x.cm.ptr .wrs ≠ .freed

/-- Nothing has changed but the places of the streams, or an error has been met. -/
def Ended (t : Torrent) (x x' : Item) : Prop := Kept t x x' ∨ Failed t x x'

theorem Usable.sane {t : Torrent} (usable : Usable t x) : Sane t x where
  sound := usable.sound
  state := by simp [usable.state]
  ptr b := by
    cases b with
    | rds => simp [usable.rds]
    | wrs => exact usable.wrs
  both _ := by simp [usable.rds]

theorem Kept.usable {t : Torrent} (kept : Kept t x x') (usable : Usable t x) : Usable t x' := by
  rw [kept.eq]
  exact ⟨kept.same.sound, usable.error, usable.state, usable.rds, usable.wrs⟩

theorem Kept.trans {t : Torrent} (first : Kept t x x') (second : Kept t x' x'') :
    Kept t x x'' :=
  ⟨first.same.trans second.same, by rw [second.eq, first.eq]⟩

theorem Kept.failed {t : Torrent} (first : Kept t x x') (second : Failed t x' x'') :
    Failed t x x'' :=
  ⟨first.same.near.trans second.near, second.ptr, by rw [second.eq, first.eq]⟩

theorem Failed.error {t : Torrent} (failed : Failed t x x') : x'.cm.error = true := by
  rw [failed.eq]

/-- An error in a torrent that is active. -/
theorem fails_wp (usable : Usable (t n) x) (open_ : Contract.Open k) :
    (cmOnError t n).wp k callers (Does n s (Failed (t n) x)) (s.setItem n x) := by
  have met : (cmOnError t n).wp k callers (Does n (s.leave n x.cm.state) (Failed (t n) x))
      (s.setItem n x) := cmOnError_wp usable.sane usable.error open_
  rw [usable.state] at met
  exact met

theorem cmGetBytes_wp (usable : Usable (t n) x)
    (inside : piece * (t n).pieceLength + begin + len ≤ (t n).files.sum) (some : 0 < len)
    (open_ : Contract.Open k) :
    (cmGetBytes t n piece begin len).wp k callers (On n s fun _ => Ended (t n) x)
      (s.setItem n x) := by
  unfold cmGetBytes
  rw [wp_bind, wp_content, Contents.setItem_self, usable.error, if_neg (by simp)]
  refine on_seq (useStream_wp usable.rds (btsGet_same usable.sound inside some)) ?_
  rintro r x₁ ⟨d, rfl, same, -⟩
  have kept : Kept (t n) x { x with disk := d } := ⟨same, rfl⟩
  cases r with
  | ok buf => exact wp_pure.mpr ⟨_, rfl, .inl kept⟩
  | error e =>
      dsimp only
      refine on_seq (fails_wp (kept.usable usable) open_) ?_
      rintro - x₂ failed
      exact wp_pure.mpr ⟨x₂, rfl, .inr (kept.failed failed)⟩

theorem cmGetBytes_again (error : x.cm.error = true) :
    (cmGetBytes t n piece begin len).wp k callers (On n s fun _ x' => x' = x)
      (s.setItem n x) := by
  unfold cmGetBytes
  rw [wp_bind, wp_content, Contents.setItem_self, error, if_pos rfl]
  exact wp_pure.mpr ⟨x, rfl, rfl⟩

theorem pieceLogHashes_wp (sized : Sized (t n)) (lt : piece < (t n).npieces)
    (usable : Usable (t n) x) (open_ : Contract.Open k) :
    (pieceLogHashes t n piece).wp k callers (Does n s (Ended (t n) x)) (s.setItem n x) := by
  unfold pieceLogHashes
  dsimp only
  refine wp_forEach_keeps (Does n s (Ended (t n) x) ()) ?_ ⟨x, rfl, .inl (.refl usable.sound)⟩
  rintro i mem - ⟨x', rfl, kept | failed⟩
  · have block : i < (t n).torrentPieceBlocks piece := List.mem_range.mp mem
    have usable' := kept.usable usable
    have le := sized.block_le lt block
    have inside := sized.piece_le lt
    refine on_seq (cmGetBytes_wp usable' (by unfold blockSize at le; omega)
      (sized.blockSize_pos lt block) open_) ?_
    rintro r x₂ (kept₂ | failed₂)
    · exact wp_pure.mpr ⟨x₂, rfl, .inl (kept.trans kept₂)⟩
    · exact wp_pure.mpr ⟨x₂, rfl, .inr (kept.failed failed₂)⟩
  · refine on_seq (cmGetBytes_again failed.error) ?_
    rintro r x₂ rfl
    exact wp_pure.mpr ⟨x₂, rfl, .inr failed⟩

end Btpd.Content
