import Btpd.Content.Events

/-!
# A block has arrived

What `dl_on_block` does to a torrent that is active: the block is stored, and the piece
is tested when it was the last one; or an error is met.  After an error the blocks that
still arrive are only counted.
-/

namespace Btpd.Content

open Prog
open Download (Torrent pieceBlocklen setBit)

variable {t : Nat → Torrent} {n : Nat} {s : Contents} {x x' x'' y : Item} {buf : List UInt8}
  {callers : List Fn} {k : Contract Contents Fn CmFault} {u : Torrent} {index i b o : Nat}
  {sole : Bool}

/-! ## Where bytes are written -/

/-- The places that a block may change are in no piece that is held and in no block that
is recorded. -/
theorem Active.spares (sized : Sized u) (active : Active u x) (lt : index < u.npieces)
    (block : b < u.torrentPieceBlocks index) (missing : x.cm.pieceField index = false)
    (clear : x.cm.blockField index b = false) (recorded : Recorded u x o) :
    ¬ Spoiled u index b x o := by
  obtain ⟨i, lt', ⟨held, inside⟩ | ⟨c, block', set, inside⟩⟩ := recorded
  · rintro (⟨j, lt₂, vacant, inside'⟩ | inside')
    · obtain rfl := sized.inPiece_unique lt' lt₂ inside inside'
      cases (active.held i lt' held).symm.trans vacant
    · obtain rfl := sized.inPiece_unique lt' lt inside (sized.inPiece_of_inBlock lt block inside')
      cases held.symm.trans missing
  · have within := sized.inPiece_of_inBlock lt' block' inside
    rintro (⟨j, lt₂, vacant, inside'⟩ | inside')
    · obtain rfl := sized.inPiece_unique lt' lt₂ within inside'
      cases (active.block i lt' c block' set).symm.trans vacant
    · obtain rfl := sized.inPiece_unique lt' lt within (sized.inPiece_of_inBlock lt block inside')
      obtain rfl := sized.inBlock_unique lt' block' block inside inside'
      cases set.symm.trans clear

theorem Stored.outside (stored : Stored u index b x x') :
    x.disk.Outside u.files (Spoiled u index b x) x'.disk := by
  obtain ⟨x₁, filled, -, placed⟩ := stored
  exact filled.outside.trans placed.outside

/-- A piece that is filled with zeros has not been filled before. -/
theorem Wrote.once {P : Nat → Prop} (wrote : Wrote u P x x') (active : Active u x)
    (before : ∀ i, x.cm.filled i ≤ 1) (i : Nat) : x'.cm.filled i ≤ 1 := by
  rcases wrote.filled i with same | ⟨clear, more⟩
  · rw [same]
    exact before i
  · rw [more, active.filled i clear]

/-- What a block that is stored leaves alone and what it changes. -/
theorem Stored.eq (stored : Stored u index b x x') : x' = { x with
    disk := x'.disk
    cm := { x.cm.record u index b with
      posField := x'.cm.posField
      filled := x'.cm.filled } } := by
  obtain ⟨x₁, filled, -, placed⟩ := stored
  rw [placed.eq, filled.eq]
  rfl

theorem Stored.once (stored : Stored u index b x x') (active : Active u x)
    (before : ∀ i, x.cm.filled i ≤ 1) (i : Nat) : x'.cm.filled i ≤ 1 := by
  obtain ⟨x₁, filled, -, placed⟩ := stored
  have once := filled.once active before i
  rw [placed.eq]
  exact once

theorem Stored.active (stored : Stored u index b x x') (active : Active u x)
    (lt : index < u.npieces) (block : b < u.torrentPieceBlocks index)
    (missing : x.cm.pieceField index = false) (clear : x.cm.blockField index b = false) :
    Active u (x'.countBlock index) := by
  obtain ⟨x₁, filled, set, placed⟩ := stored
  refine placed.active (filled.active active) lt block ?_ ?_ set
  · rw [filled.eq]
    exact missing
  · rw [filled.eq]
    exact clear

/-! ## The end of a test -/

theorem Concluded.near (concluded : Concluded u x x') : x.disk.Near u.files x'.disk := by
  rcases concluded with ⟨kept, -⟩ | failed | ⟨written, -⟩
  · exact kept.same.near
  · exact failed.near
  · exact written.near

theorem Ended.near (ended : Ended u x x') : x.disk.Near u.files x'.disk := by
  rcases ended with kept | failed
  · exact kept.same.near
  · exact failed.near

theorem Concluded.pieceField (concluded : Concluded u x x') :
    x'.cm.pieceField = x.cm.pieceField := by
  rcases concluded with ⟨kept, -⟩ | failed | ⟨written, -⟩
  · rw [kept.eq]
  · rw [failed.eq]
  · rw [written.eq]

theorem Ended.pieceField (ended : Ended u x x') : x'.cm.pieceField = x.cm.pieceField := by
  rcases ended with kept | failed
  · rw [kept.eq]
  · rw [failed.eq]

theorem Checked.near (checked : Checked u index x x') : x.disk.Near u.files x'.disk := by
  cases checked with
  | error x₁ tried failed => exact tried.same.near.trans failed.near
  | ok x₁ x₂ tried hash passed concluded =>
      have near := concluded.near
      rw [passed.eq] at near
      exact tried.same.near.trans near
  | bad x₁ x₂ tried hash missed ended =>
      obtain ⟨hashed, eq⟩ := missed.eq
      have near := ended.near
      rw [eq] at near
      exact tried.same.near.trans near

/-- A piece that was not held before the test has passed it. -/
theorem Checked.hash (checked : Checked u index x x') (set : x'.cm.pieceField i = true) :
    x.cm.pieceField i = true ∨ Hashed u x' i := by
  have near := checked.near
  cases checked with
  | error x₁ tried failed =>
      rw [failed.eq, tried.eq] at set
      exact .inl set
  | ok x₁ x₂ tried hash passed concluded =>
      rw [concluded.pieceField, passed.eq, tried.eq] at set
      by_cases here : i = index
      · exact .inr (HashOk.hashed (here ▸ hash) near)
      · exact .inl ((Function.update_of_ne here ..).symm.trans set)
  | bad x₁ x₂ tried hash missed ended =>
      obtain ⟨hashed, eq⟩ := missed.eq
      rw [ended.pieceField, eq, tried.eq] at set
      exact .inl set

theorem Written.good (written : Written u x x') (good : Good u x) (on : x.cm.state = .active)
    (full : x.cm.full u.npieces) : Good u x' := by
  obtain ⟨active, open_⟩ := good.active on
  have active' := written.active active full
  have sound := written.near.sound
  rw [written.eq] at active' ⊢
  exact ⟨sound, fun off => (by cases on.symm.trans off), good.error, fun _ => ⟨active', open_⟩,
    good.filled, good.ghost, good.net, good.pieces⟩

theorem Concluded.good (concluded : Concluded u x x') (good : Good u x)
    (on : x.cm.state = .active) : Good u x' := by
  rcases concluded with ⟨kept, -⟩ | failed | ⟨written, full⟩
  · exact kept.good good
  · exact failed.good good.filled good.pieces
  · exact written.good good on full

theorem Ended.good (ended : Ended u x x') (good : Good u x) : Good u x' := by
  rcases ended with kept | failed
  · exact kept.good good
  · exact failed.good good.filled good.pieces

theorem Concluded.calm (concluded : Concluded u x x') (on : x.cm.state = .active) :
    x'.cm.state ≠ .starting := by
  rcases concluded with ⟨kept, -⟩ | failed | ⟨written, -⟩
  · rw [kept.eq, on]
    exact nofun
  · rw [failed.eq]
    exact nofun
  · rw [written.eq, on]
    exact nofun

theorem Ended.calm (ended : Ended u x x') (on : x.cm.state = .active) :
    x'.cm.state ≠ .starting := by
  rcases ended with kept | failed
  · rw [kept.eq, on]
    exact nofun
  · rw [failed.eq]
    exact nofun

/-- A piece has all its blocks and is to be tested. -/
structure Complete (u : Torrent) (index : Nat) (x : Item) : Prop where
  active : Active u x
  lt : index < u.npieces
  missing : x.cm.pieceField index = false
  set : x.cm.posField index = true
  whole : x.cm.Whole u index
  others : ∀ i < u.npieces, i ≠ index → x.cm.pieceField i = false → x.cm.Whole u i →
    u.torrentPieceBlocks i = 0
  once : ∀ i, x.cm.filled i ≤ 1
  state : x.state ≠ .ghost
  download : x.active = true

theorem Tried.complete (tried : Tried u index x x') (complete : Complete u index x) :
    Complete u index x' := by
  have active := tried.active complete.active
  rw [tried.eq] at active ⊢
  exact ⟨active, complete.lt, complete.missing, complete.set, complete.whole, complete.others,
    complete.once, complete.state, complete.download⟩

theorem Passed.good (passed : Passed index x x') (sized : Sized u)
    (complete : Complete u index x) : Good u x' := by
  have active := passed.active sized complete.active complete.lt complete.missing complete.whole
    complete.set
  have held : x'.cm.pieceField = Function.update x.cm.pieceField index true := by
    rw [passed.eq]
    rfl
  have blocks : x'.cm.blockField = x.cm.blockField := by
    rw [passed.eq]
    rfl
  have open_ : Open u x' := by
    intro i lt missing whole
    unfold Cm.Whole at whole
    rw [held, Function.update_apply] at missing
    rw [blocks] at whole
    split at missing
    case isTrue => cases missing
    case isFalse other => exact complete.others i lt other missing whole
  have once := complete.once
  rw [passed.eq] at active open_ ⊢
  refine active.good open_ once complete.state fun idle => ?_
  cases complete.download.symm.trans idle

theorem Missed.good (missed : Missed u index x x') (sized : Sized u)
    (complete : Complete u index x) : Good u x' := by
  have active := missed.active sized complete.active complete.lt complete.missing complete.whole
  obtain ⟨hashed, eq⟩ := missed.eq
  have held : x'.cm.pieceField = x.cm.pieceField := by
    rw [eq]
    rfl
  have blocks : x'.cm.blockField = Function.update x.cm.blockField index fun _ => false := by
    rw [eq]
    rfl
  have open_ : Open u x' := by
    intro i lt missing whole
    unfold Cm.Whole at whole
    rw [held] at missing
    rw [blocks, Function.update_apply] at whole
    split at whole
    case isTrue =>
      by_contra some
      cases whole 0 (Nat.pos_of_ne_zero some)
    case isFalse other => exact complete.others i lt other missing whole
  have once := complete.once
  rw [eq] at active open_ ⊢
  refine active.good open_ once complete.state fun idle => ?_
  cases complete.download.symm.trans idle

theorem Checked.good (checked : Checked u index x x') (sized : Sized u)
    (complete : Complete u index x) : Good u x' := by
  cases checked with
  | error x₁ tried failed =>
      have complete₁ := tried.complete complete
      refine failed.good complete₁.once fun idle => ?_
      cases complete₁.download.symm.trans idle
  | ok x₁ x₂ tried hash passed concluded =>
      have complete₁ := tried.complete complete
      refine concluded.good (passed.good sized complete₁) ?_
      rw [passed.eq]
      exact complete₁.active.usable.state
  | bad x₁ x₂ tried hash missed ended =>
      exact ended.good (missed.good sized (tried.complete complete))

theorem Checked.calm (checked : Checked u index x x') (on : x.cm.state = .active) :
    x'.cm.state ≠ .starting := by
  cases checked with
  | error x₁ tried failed =>
      rw [failed.eq]
      exact nofun
  | ok x₁ x₂ tried hash passed concluded =>
      refine concluded.calm ?_
      rw [passed.eq, tried.eq]
      exact on
  | bad x₁ x₂ tried hash missed ended =>
      obtain ⟨hashed, eq⟩ := missed.eq
      refine ended.calm ?_
      rw [eq, tried.eq]
      exact on

/-! ## A block that is stored -/

/-- A block of an active download that has not been stored. -/
structure Awaited (u : Torrent) (index b : Nat) (x : Item) : Prop where
  good : Good u x
  on : x.cm.state = .active
  download : x.active = true
  lt : index < u.npieces
  block : b < u.torrentPieceBlocks index
  missing : x.cm.pieceField index = false
  clear : x.cm.blockField index b = false

section Stored

variable (stored : Stored u index b x x') (awaited : Awaited u index b x)

include stored awaited

theorem Stored.others (i : Nat) (lt : i < u.npieces) (other : i ≠ index)
    (missing : (x'.countBlock index).cm.pieceField i = false)
    (whole : (x'.countBlock index).cm.Whole u i) : u.torrentPieceBlocks i = 0 := by
  have open_ := (awaited.good.active awaited.on).2
  have same : (x.cm.record u index b).blockField i = x.cm.blockField i := Cm.record_of_ne other
  rw [stored.eq] at missing whole
  exact open_ i lt missing fun c block => (congrFun same c).symm.trans (whole c block)

theorem Stored.active_count : Active u (x'.countBlock index) :=
  stored.active (awaited.good.active awaited.on).1 awaited.lt awaited.block awaited.missing
    awaited.clear

theorem Stored.once_count (i : Nat) : (x'.countBlock index).cm.filled i ≤ 1 :=
  stored.once (awaited.good.active awaited.on).1 awaited.good.filled i

theorem Stored.complete (whole : (x'.countBlock index).cm.Whole u index) :
    Complete u index (x'.countBlock index) where
  active := stored.active_count awaited
  lt := awaited.lt
  missing := by
    rw [stored.eq]
    exact awaited.missing
  set := (stored.active_count awaited).block index awaited.lt b awaited.block
    (whole b awaited.block)
  whole := whole
  others := stored.others awaited
  once := stored.once_count awaited
  state := by
    rw [stored.eq]
    intro ghost
    cases awaited.on.symm.trans (awaited.good.ghost ghost)
  download := by
    rw [stored.eq]
    exact awaited.download

theorem Stored.good (part : ¬ (x'.countBlock index).cm.Whole u index) :
    Good u (x'.countBlock index) := by
  refine (stored.active_count awaited).good ?_ (stored.once_count awaited) ?_ ?_
  · intro i lt missing whole
    by_cases here : i = index
    · exact absurd (here ▸ whole) part
    · exact stored.others awaited i lt here missing whole
  · rw [stored.eq]
    intro ghost
    cases awaited.on.symm.trans (awaited.good.ghost ghost)
  · rw [stored.eq]
    intro idle
    cases awaited.download.symm.trans idle

/-- What has been recorded is still there. -/
theorem Stored.data (sized : Sized u) (apart : x.disk.Apart u.files) (recorded : Recorded u x o) :
    flat u.files x'.disk.file o = flat u.files x.disk.file o :=
  stored.outside.flat apart o ((awaited.good.active awaited.on).1.spares sized awaited.lt
    awaited.block awaited.missing awaited.clear recorded)

end Stored

/-! ## `dl_on_block` -/

theorem countBlock_again (error : x.cm.error = true) (ptr : x.cm.ptr .rds ≠ .live)
    (open_ : Contract.Open k) :
    (countBlock t n index sole).wp k callers (Does n s fun x' => x' = x.countBlock index)
      (s.setItem n x) := by
  unfold countBlock changePiece
  rw [wp_bind, wp_setItem, wp_bind, wp_item, Contents.setItem_self, wp_when]
  split
  · exact cmTestPiece_again error ptr open_
  · exact ⟨_, rfl, rfl⟩

theorem countBlock_wp (sized : Sized (t n)) (writable : Writable (t n) (x.countBlock index))
    (lt : index < (t n).npieces) (active : x.active = true)
    (some : x.cm.npiecesGot < (t n).npieces) (open_ : Contract.Open k) :
    (countBlock t n index sole).wp k callers (Does n s fun x' =>
      if ∃ pc ∈ (x.countBlock index).piece index, pc.ngot = (t n).torrentPieceBlocks index
      then Checked (t n) index (x.countBlock index) x' else x' = x.countBlock index)
      (s.setItem n x) := by
  unfold countBlock changePiece
  rw [wp_bind, wp_setItem, wp_bind, wp_item, Contents.setItem_self, wp_when]
  change if ∃ pc ∈ (x.countBlock index).piece index, pc.ngot = (t n).torrentPieceBlocks index
    then _ else _
  split
  case isTrue all => exact cmTestPiece_wp sized lt writable active some open_
  case isFalse part => exact ⟨_, rfl, rfl⟩

/-- After an error the blocks are only counted. -/
theorem Good.count (good : Good u x) (error : x.cm.error = true) :
    Good u (x.countBlock index) where
  sound := good.sound
  off := good.off
  error := good.error
  active on := by cases (good.error error).symm.trans on
  filled := good.filled
  ghost := good.ghost
  net := good.net
  pieces idle i := by
    have none := good.pieces idle
    unfold Item.countBlock
    dsimp only
    rw [Function.update_apply, none, Option.map_none, none, ite_self]

theorem Broken.count_step (broken : Broken u (Spoiled u index b x) x x') (sized : Sized u)
    (awaited : Awaited u index b x) : Step u x (x'.countBlock index) := by
  obtain ⟨x₁, wrote, failed⟩ := broken
  refine ⟨failed.near.inode.trans wrote.outside.inode, fun i set => .inl ?_,
    fun apart _ o recorded => ?_, fun off => absurd awaited.on off⟩
  · rw [failed.eq, wrote.eq] at set
    exact set
  · have spared := (awaited.good.active awaited.on).1.spares sized awaited.lt awaited.block
      awaited.missing awaited.clear recorded
    have flat := failed.near.data (apart.of_inode wrote.outside.inode)
    exact (congrFun flat o).trans (wrote.outside.flat apart o spared)

theorem Broken.good (broken : Broken u (Spoiled u index b x) x x')
    (awaited : Awaited u index b x) : Good u x' := by
  obtain ⟨x₁, wrote, failed⟩ := broken
  refine failed.good (wrote.once (awaited.good.active awaited.on).1 awaited.good.filled) ?_
  rw [wrote.eq]
  exact awaited.good.pieces

section Moves

variable (sized : Sized (t n)) (inv : Inv t s) (open_ : Contract.Open k)

include sized inv open_

/-- The block has not been written to the end. -/
theorem broken_moves (broken : Broken (t n) (Spoiled (t n) index b (s.item n)) (s.item n) x)
    (awaited : Awaited (t n) index b (s.item n)) :
    (countBlock t n index sole).wp k callers (fun _ s' => Move t s s') (s.setItem n x) := by
  have good := broken.good awaited
  have step := broken.count_step sized awaited
  obtain ⟨x₁, wrote, failed⟩ := broken
  refine wp_mono (countBlock_again failed.error (failed.ptr .rds) open_) ?_
  rintro - - ⟨x', rfl, rfl⟩
  refine inv.move_item (good.count failed.error) step (by simp [awaited.on]) ?_
  rw [failed.eq]
  exact nofun

/-- The block has been written. -/
theorem stored_moves (stored : Stored (t n) index b (s.item n) x)
    (awaited : Awaited (t n) index b (s.item n)) (some : (s.item n).piece index ≠ none) :
    (countBlock t n index sole).wp k callers (fun _ s' => Move t s s') (s.setItem n x) := by
  have active := stored.active_count awaited
  have calm : (s.item n).cm.state ≠ .starting := by simp [awaited.on]
  have lt := awaited.lt
  have missing : (x.countBlock index).cm.pieceField index = false := by
    rw [stored.eq]
    exact awaited.missing
  have download : x.active = true := by
    rw [stored.eq]
    exact awaited.download
  refine wp_mono (countBlock_wp sized (active.writable lt missing) lt download
    (active.got_lt lt missing) open_) ?_
  rintro - - ⟨x', rfl, ended⟩
  obtain ⟨pc, at_⟩ : ∃ pc, (x.countBlock index).piece index = .some pc := by
    obtain ⟨pc, at_⟩ := Option.ne_none_iff_exists'.mp some
    refine ⟨{ pc with ngot := pc.ngot + 1 }, ?_⟩
    rw [stored.eq]
    unfold Item.countBlock
    dsimp only
    rw [Function.update_self, at_]
    rfl
  have whole : (x.countBlock index).cm.Whole (t n) index ↔
      ∃ pc ∈ (x.countBlock index).piece index, pc.ngot = (t n).torrentPieceBlocks index := by
    rw [Cm.whole_iff, ← (active.fetched index pc at_).ngot, at_]
    simp
  have piece : (x.countBlock index).cm.pieceField = (s.item n).cm.pieceField := by
    rw [stored.eq]
    rfl
  by_cases all : (x.countBlock index).cm.Whole (t n) index
  · rw [if_pos (whole.mp all)] at ended
    have good := ended.good sized (stored.complete awaited all)
    refine inv.move_item good ⟨ended.near.inode.trans stored.outside.inode,
      fun i set => ?_, fun apart _ o recorded => ?_, fun off => absurd awaited.on off⟩ calm ?_
    · rw [← piece]
      exact ended.hash set
    · have flat := ended.near.data (apart.of_inode stored.outside.inode)
      exact (congrFun flat o).trans (stored.data awaited sized apart recorded)
    · exact ended.calm active.usable.state
  · rw [if_neg (mt whole.mpr all)] at ended
    subst ended
    refine inv.move_item (stored.good awaited all) ⟨stored.outside.inode,
      fun i set => .inl (piece ▸ set),
      fun apart _ o recorded => stored.data awaited sized apart recorded,
      fun off => absurd awaited.on off⟩ calm ?_
    rw [active.usable.state]
    exact nofun

theorem block_moves (active : (s.item n).active = true) (lt : index < (t n).npieces)
    (some : (s.item n).piece index ≠ none) (block : b < (t n).torrentPieceBlocks index)
    (size : buf.length = blockSize (t n) index b) (putBlock : k.allowed .putBlock) :
    (dlOnBlock t n index b buf sole).wp k callers (fun _ s' => Move t s s') s := by
  have good := inv.good n
  have calm := inv.calm active
  unfold dlOnBlock cmPutBytes
  rw [wp_bind, wp_bind, wp_content, wp_ite]
  split
  case isTrue error =>
    have inactive := good.error error
    rw [wp_pure, ← Contents.setItem_item (s := s) (n := n)]
    refine wp_mono (countBlock_again error (good.off inactive .rds) open_) ?_
    rintro - - ⟨x', rfl, rfl⟩
    rw [Contents.setItem_item]
    exact inv.move_item (good.count error) (.of_same rfl rfl (fun _ => rfl) id) calm calm
  case isFalse error =>
    have on := (good.net active).resolve_right error
    obtain ⟨pc, at_⟩ := Option.ne_none_iff_exists'.mp some
    have fit := (good.active on).1
    have fetched := fit.fetched index pc at_
    refine wp_mono (wp_here (putBytes_wp sized (fit.writable lt fetched.missing) lt block size
      fetched.missing fetched.alloc fit.held open_ putBlock)) ?_
    rintro err - ⟨x, rfl, clear, stored, broken⟩
    have awaited : Awaited (t n) index b (s.item n) :=
      ⟨good, on, active, lt, block, fetched.missing, clear⟩
    cases err with
    | none => exact stored_moves sized inv open_ (stored rfl) awaited some
    | some e => exact broken_moves sized inv open_ (broken nofun) awaited

end Moves

/-! ## Runs -/

theorem inv_of_init (init : s.Init t) : Inv t s where
  good n := by
    have inactive := init.inactive n
    have null : ∀ b, (s.item n).cm.ptr b ≠ .live := fun b => by simp [init.ptr]
    refine ⟨fun b => ?_, fun _ => null, fun _ => inactive, fun on => ?_, fun i => ?_,
      fun _ => inactive, fun active => ?_, fun _ => init.piece n⟩
    · rw [init.bts]
      exact coherent_opened
    · cases inactive.symm.trans on
    · rw [init.filled]
      exact Nat.zero_le 1
    · cases (init.active n).symm.trans active
  waiting std mem := by
    rw [init.startq] at mem
    cases mem
  queued n starting := by cases (init.inactive n).symm.trans starting
  nodup := by
    rw [init.startq]
    exact List.nodup_nil

/-- Every event moves each torrent by a step, or makes a call that lets a stream be used
after it has been closed. -/
theorem cmHandle_moves (sized : ∀ n, Sized (t n)) (inv : Inv t s) (open_ : Contract.Open k)
    (putBlock : k.allowed .putBlock) (allocFull : k.allowed .allocFull) (e : CmEvent) :
    (cmHandle t e).wp k callers (fun _ s' => Move t s s') s := by
  unfold cmHandle
  rw [wp_bind, wp_get, wp_when]
  split
  case isFalse => exact inv.refl
  case isTrue allowed =>
    cases e with
    | start n forceTest => exact torrentStart_wp (sized n) inv allowed open_
    | stop n => exact torrentStop_wp inv open_
    | tick n => exact torrentOnTick_wp inv open_
    | work =>
        have calm : Inv t { s with workev := false } :=
          ⟨inv.good, inv.waiting, inv.queued, inv.nodup⟩
        refine wp_bind.mpr (wp_modify.mpr ?_)
        refine wp_mono (startupTestRun_moves sized calm open_) fun _ s' move => ?_
        exact ⟨move.inv, move.step⟩
    | newPiece n index =>
        obtain ⟨active, lt, -, missing⟩ := allowed
        exact newPiece_moves inv active lt missing allocFull
    | block n index i buf sole =>
        obtain ⟨active, lt, some, block, size⟩ := allowed
        exact block_moves (sized n) inv open_ active lt some block size putBlock
    | read n index begin len =>
        obtain ⟨active, lt, some, inside⟩ := allowed
        refine wp_seq (read_moves (sized n) inv active lt some inside open_) fun _ s' move => ?_
        exact wp_pure.mpr move

end Btpd.Content
