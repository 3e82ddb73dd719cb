import Btpd.Torrents.Changes

/-!
# The routines make these changes

What each routine of `tlib.c` and `torrent.c` does to a state with the invariant, and
in which faults it can end.
-/

namespace Btpd.Torrents

open Prog

variable {p : Promise} {d : Daemon} {tl tp : Nat} {t : Torrent} {hash : Hash} {α : Type}
  {k : Contract Daemon Fn Fault} {callers : List Fn} {post : Unit → Daemon → Prop}

/-! ## Pointers -/

@[simp]
theorem wp_torrent {post : Torrent → Daemon → Prop} :
    (torrent tp).wp k callers post d ↔
      if tp ∈ d.tps then post (d.torrent tp) d else k.allowed .torrentFreed := by
  simp [torrent]

@[simp]
theorem wp_entry {post : Tlib → Daemon → Prop} :
    (entry tl).wp k callers post d ↔
      if tl ∈ d.tls then post (d.tlib tl) d else k.allowed .entryFreed := by
  simp [entry]

@[simp]
theorem wp_setTorrent {f : Torrent → Torrent} :
    (setTorrent tp f).wp k callers post d ↔
      if tp ∈ d.tps then post () (d.changed tp (f (d.torrent tp))) else k.allowed .torrentFreed := by
  simp [setTorrent, Daemon.changed]

@[simp]
theorem wp_tlibKill :
    (tlibKill tl).wp k callers post d ↔
      if tl ∈ d.tls then post () (d.removed tl) else k.allowed .entryFreed := by
  simp [tlibKill, Daemon.removed]

/-- The entry lets go of its torrent. -/
theorem wp_setTlib_none :
    (setTlib tl fun e => { e with tp := none }).wp k callers post d ↔
      if tl ∈ d.tls then post () (d.unlinked tl) else k.allowed .entryFreed := by
  simp [setTlib, Daemon.unlinked]

theorem wp_setTlib_some :
    (setTlib tl fun e => { e with tp := some tp }).wp k callers post d ↔
      if tl ∈ d.tls then post () (d.relinked tl tp) else k.allowed .entryFreed := by
  simp [setTlib, Daemon.relinked]

@[simp]
theorem Daemon.changed_changed {t' : Torrent} :
    (d.changed tp t).changed tp t' = d.changed tp t' := by
  unfold changed
  rw [Function.update_idem]

theorem Daemon.changed_eq_self : d.changed tp (d.torrent tp) = d := by
  unfold changed
  rw [Function.update_eq_self]

/-! ## The end of a torrent -/

theorem torrentKill_wp (roster : Roster d) (mem : tp ∈ d.tps)
    (quiet : (d.torrent tp).netActive = false ∧ (d.torrent tp).cm = .inactive)
    (freed : (d.torrent tp).tl ∉ d.tls → k.allowed .entryFreed)
    (met : (d.torrent tp).tl ∈ d.tls → post () (d.killed tp)) :
    (torrentKill tp).wp k callers post d := by
  have linked := (roster.mem_mTorrents tp).mpr mem
  have counted : 0 < d.mNtorrents := by
    rw [roster.ntorrents]
    exact List.length_pos_of_mem linked
  have stopped : ¬((d.torrent tp).netActive = true ∨ (d.torrent tp).cm ≠ .inactive) := by
    rw [quiet.1, quiet.2]
    simp
  unfold torrentKill
  rw [wp_bind, wp_torrent, if_pos mem, wp_bind, wp_get, wp_bind, wp_assert, if_pos counted, wp_bind,
    wp_assert, if_pos stopped]
  by_cases alive : (d.torrent tp).tl ∈ d.tls
  · have done := met alive
    unfold Daemon.killed Daemon.left at done
    by_cases ghost : (d.torrent tp).state = .ghost <;>
      by_cases delete : (d.torrent tp).delete = true <;>
        by_cases saved : d.mSavetp = some tp <;>
          simpa [killEntry, ghost, delete, saved, alive, linked, wp_setTlib_none, Daemon.removed,
            Daemon.unlinked] using done
  · by_cases ghost : (d.torrent tp).state = .ghost <;>
      by_cases delete : (d.torrent tp).delete = true <;>
        simpa [killEntry, ghost, delete, alive, linked, wp_setTlib_none] using freed alive

theorem Inv.entry_of_linked (inv : Inv p d) (mem : tp ∈ d.tps) (linked : p.linked) :
    (d.torrent tp).tl ∈ d.tls := inv.links.alive tp mem (.inl linked)

theorem allowed_entryFreed (unpromised : ¬(p.linked ∧ p.numbered)) :
    (contract p).allowed .entryFreed := .inl ⟨rfl, unpromised⟩

theorem allowed_torrentFreed (unpromised : ¬p.ticked) : (contract p).allowed .torrentFreed :=
  .inr (.inl ⟨rfl, unpromised⟩)

theorem allowed_dirMissing (unpromised : ¬p.kept) : (contract p).allowed .dirMissing :=
  .inr (.inr (.inl ⟨.inl rfl, unpromised⟩))

theorem allowed_dirExists (unpromised : ¬p.kept) : (contract p).allowed .dirExists :=
  .inr (.inr (.inl ⟨.inr rfl, unpromised⟩))

/-- A ghost is killed. -/
theorem torrentKill_ghost (inv : Inv p d) (mem : tp ∈ d.tps)
    (ghost : (d.torrent tp).state = .ghost)
    (met : (d.torrent tp).tl ∈ d.tls → Inv p (d.killed tp) → post () (d.killed tp)) :
    (torrentKill tp).wp (contract p) callers post d := by
  refine torrentKill_wp inv.roster mem (inv.roster.ghost_quiet tp mem ghost) (fun freed => ?_)
    fun entry => met entry (inv.killed mem entry)
  exact allowed_entryFreed fun promised => freed (inv.entry_of_linked mem promised.1)

/-- The directory of a torrent that is not a ghost is there. -/
theorem Inv.dir_of_active (inv : Inv p d) (mem : tp ∈ d.tps)
    (active : (d.torrent tp).state ≠ .ghost) (kept : p.kept) :
    (d.tlib (d.torrent tp).tl).hash ∈ d.dirs := by
  obtain ⟨entry, points⟩ := inv.entry_of_active mem active
  refine (inv.dirs.mem_iff kept _).mpr ⟨_, ⟨entry, ?_⟩, rfl⟩
  rintro ⟨tp', points', -, ghost⟩
  rw [points] at points'
  cases points'
  exact active ghost

theorem tlibDel_free (entry : tl ∈ d.tls) (free : (d.tlib tl).tp = none)
    (met : post () (d.deleted tl)) : (tlibDel tl).wp k callers post d := by
  unfold tlibDel
  rw [wp_bind, wp_entry, if_pos entry, free]
  change wp _ _ (_ >>= _) _ _
  rw [wp_bind, wp_modify, wp_tlibKill, if_pos (show tl ∈ Daemon.tls _ from entry)]
  exact met

theorem tlibDel_ghost (entry : tl ∈ d.tls) (points : (d.tlib tl).tp = some tp)
    (mem : tp ∈ d.tps) (ghost : (d.torrent tp).state = .ghost)
    (met : post () { d with dirs := d.dirs.erase (d.tlib tl).hash }) :
    (tlibDel tl).wp k callers post d := by
  unfold tlibDel
  rw [wp_bind, wp_entry, if_pos entry, points]
  change wp _ _ (_ >>= _) _ _
  rw [wp_bind, wp_torrent, if_pos mem, wp_bind, wp_assert, if_pos ghost, wp_modify]
  exact met

theorem saveInfo_wp (entry : tl ∈ d.tls)
    (missing : (d.tlib tl).hash ∉ d.dirs → k.allowed .dirMissing) (met : post () d) :
    (saveInfo tl).wp k callers post d := by
  unfold saveInfo
  rw [wp_bind, wp_entry, if_pos entry, wp_bind, wp_get, wp_assert]
  split
  case isTrue => exact met
  case isFalse absent => exact missing absent

theorem tlibUpdateInfo_wp (entry : tl ∈ d.tls) (points : (d.tlib tl).tp = some tp)
    (mem : tp ∈ d.tps) (missing : (d.tlib tl).hash ∉ d.dirs → k.allowed .dirMissing)
    (met : post () d) : (tlibUpdateInfo tl).wp k callers post d := by
  unfold tlibUpdateInfo
  rw [wp_bind, wp_entry, if_pos entry, points]
  change wp _ _ (_ >>= _) _ _
  rw [wp_bind, wp_torrent, if_pos mem]
  exact saveInfo_wp entry missing met

theorem becomeGhost_wp (inv : Inv p d) (mem : tp ∈ d.tps)
    (active : (d.torrent tp).state ≠ .ghost) (tl : t.tl = (d.torrent tp).tl)
    (met : post () (d.ghosted tp { t with state := .ghost })) :
    (becomeGhost tp).wp (contract p) callers post (d.changed tp t) := by
  obtain ⟨entry, points⟩ := inv.entry_of_active mem active
  have dir := inv.dir_of_active mem active
  rw [← tl] at entry points dir
  unfold Daemon.ghosted at met
  unfold becomeGhost ghostEntry
  rw [wp_bind, wp_setTorrent, if_pos (show tp ∈ (d.changed tp t).tps from mem),
    Daemon.changed_self, Daemon.changed_changed, wp_bind, wp_torrent,
    if_pos (show tp ∈ (d.changed tp _).tps from mem), Daemon.changed_self, wp_bind, wp_ite]
  split
  case isTrue delete =>
    rw [if_pos delete] at met
    refine tlibDel_ghost entry points mem (congrArg Torrent.state Daemon.changed_self) ?_
    exact wp_modify.mpr met
  case isFalse delete =>
    rw [if_neg delete] at met
    refine tlibUpdateInfo_wp entry points mem (fun absent => ?_) (wp_modify.mpr met)
    exact allowed_dirMissing fun kept => absent (dir kept)

/-! ## A torrent stops -/

/-- What `torrent_stop` leaves of a torrent. -/
structure Stopped (p : Promise) (d : Daemon) (tp : Nat) (trStays : Bool) (d' : Daemon) : Prop where
  inv : Inv p d'
  others : ∀ tp' ∈ d.tps, tp' ≠ tp → tp' ∈ d'.tps
  ghost : tp ∈ d'.tps → (d'.torrent tp).state = .ghost
  gone : tp ∉ d'.tps → (d.torrent tp).state ≠ .ghost ∧
    ((d.torrent tp).trActive && trStays) = false

theorem Torrent.stopped_cm {trStays closes : Bool} : (t.stopped trStays closes).cm = .inactive := rfl

/-- The torrent that `torrent_stop` leaves behind when a tracker must be told. -/
def Torrent.haunt (t : Torrent) (delete trStays closes : Bool) : Torrent :=
  { { t with delete := delete, state := .stopping }.stopped trStays closes with state := .ghost }

theorem Torrent.haunt_right {delete trStays closes : Bool} :
    (t.haunt delete trStays closes).Right :=
  ⟨fun _ => ⟨rfl, rfl⟩, nofun, fun _ => rfl⟩

theorem Daemon.killed_tps : (d.killed tp).tps = d.tps.erase tp := by
  unfold killed
  split <;> rfl

/-- The trackers decide whether a ghost goes at once. -/
theorem ghostOnTick_wp (inv : Inv p d) (mem : tp ∈ d.tps)
    (ghost : (d.torrent tp).state = .ghost)
    (stays : (d.torrent tp).trActive = true → post () d)
    (goes : (d.torrent tp).trActive = false → Inv p (d.killed tp) → post () (d.killed tp)) :
    (ghostOnTick tp).wp (contract p) callers post d := by
  unfold ghostOnTick
  rw [wp_bind, wp_torrent, if_pos mem, wp_when]
  split
  case isTrue quiet => exact torrentKill_ghost inv mem ghost fun _ => goes quiet
  case isFalse active => exact stays (Bool.not_eq_false _ ▸ active)

/-- A torrent that is not a ghost becomes one, and goes if no tracker need be told. -/
theorem torrentStop_active {delete trStays closes : Bool} (inv : Inv p d) (mem : tp ∈ d.tps)
    (active : (d.torrent tp).state ≠ .ghost) :
    (torrentStop tp delete trStays closes).wp (contract p) callers
      (fun _ d' => Stopped p d tp trStays d') d := by
  have right := inv.roster.right mem
  have undeleted : (d.torrent tp).delete = false := by
    rw [← Bool.not_eq_true]
    exact fun deleted => active (right.deleted deleted)
  have running : (d.torrent tp).state = .leech ∨ (d.torrent tp).state = .seed ∨
      (d.torrent tp).state = .starting := by
    have notStopping := right.running
    cases state : (d.torrent tp).state <;> simp_all
  have inv' : Inv p (d.ghosted tp ((d.torrent tp).haunt delete trStays closes)) :=
    inv.ghosted mem active rfl rfl Torrent.haunt_right
  have marked : (when (delete = true) (setTorrent tp fun t => { t with delete := true })).wp
      (contract p) (.torrentStop tp delete :: callers)
      (fun _ d' => d' = d.changed tp { d.torrent tp with delete := delete }) d := by
    rw [wp_when]
    split
    case isTrue set => rw [wp_setTorrent, if_pos mem, set]
    case isFalse unset =>
      rw [Bool.not_eq_true] at unset
      rw [unset, ← undeleted]
      exact Daemon.changed_eq_self.symm
  unfold torrentStop
  rw [wp_call]
  right
  refine wp_seq marked fun _ d' same => ?_
  rw [same]
  have there : ∀ t, tp ∈ (d.changed tp t).tps := fun _ => mem
  rw [wp_bind, wp_torrent, if_pos (there _), Daemon.changed_self, wp_when, if_pos running, wp_bind,
    wp_setTorrent, if_pos (there _), Daemon.changed_changed, Daemon.changed_self, wp_bind,
    wp_setTorrent, if_pos (there _), Daemon.changed_changed, Daemon.changed_self, wp_bind,
    wp_torrent, if_pos (there _), Daemon.changed_self, wp_when, if_pos Torrent.stopped_cm, wp_bind]
  refine becomeGhost_wp inv mem active rfl ?_
  have self : (d.ghosted tp ((d.torrent tp).haunt delete trStays closes)).torrent tp =
    (d.torrent tp).haunt delete trStays closes := Daemon.changed_self
  refine ghostOnTick_wp inv' mem (congrArg Torrent.state self) (fun _ => ?_) fun quiet killed => ?_
  · exact ⟨inv', fun tp' mem' _ => mem', fun _ => congrArg Torrent.state self,
      fun gone => absurd mem gone⟩
  · refine ⟨killed, fun tp' mem' other => ?_, fun there => ?_, fun _ => ⟨active, ?_⟩⟩
    · rw [Daemon.killed_tps]
      exact (List.mem_erase_of_ne other).mpr mem'
    · rw [Daemon.killed_tps] at there
      exact absurd there inv'.roster.tps_nodup.not_mem_erase
    · exact (congrArg Torrent.trActive self).symm.trans quiet

theorem torrentStop_wp {delete trStays closes : Bool} (inv : Inv p d) (mem : tp ∈ d.tps) :
    (torrentStop tp delete trStays closes).wp (contract p) callers
      (fun _ d' => Stopped p d tp trStays d') d := by
  by_cases ghost : (d.torrent tp).state = .ghost
  · have stays : ∀ d' : Daemon, d'.tps = d.tps → Inv p d' → (d'.torrent tp).state = .ghost →
        Stopped p d tp trStays d' := fun d' tps inv' ghost' =>
      ⟨inv', fun tp' mem' _ => tps ▸ mem', fun _ => ghost', fun gone => absurd (tps ▸ mem) gone⟩
    have idle : ¬((d.torrent tp).state = .leech ∨ (d.torrent tp).state = .seed ∨
        (d.torrent tp).state = .starting) := by
      rw [ghost]
      simp
    unfold torrentStop
    rw [wp_call]
    by_cases delete = true
    case pos delete =>
      subst delete
      by_cases kept : p.kept
      · exact .inl (.inr (.inr (.inr ⟨kept, ghost⟩)))
      · right
        have right := inv.roster.right mem
        rw [wp_bind, wp_when, if_pos rfl, wp_setTorrent, if_pos mem, wp_bind, wp_torrent,
          if_pos (show tp ∈ (d.changed tp _).tps from mem), Daemon.changed_self, wp_when,
          if_neg idle]
        refine stays _ rfl ?_ ((congrArg Torrent.state Daemon.changed_self).trans ghost)
        exact inv.changed rfl Iff.rfl ⟨right.quiet, right.running, fun _ => ghost⟩
          fun promised => absurd promised kept
    case neg delete =>
      right
      rw [wp_bind, wp_when, if_neg delete, wp_bind, wp_torrent, if_pos mem, wp_when, if_neg idle]
      exact stays d rfl inv ghost
  · exact torrentStop_active inv mem ghost

/-! ## A tick -/

/-- What a routine leaves that frees no torrent but one. -/
structure Turned (p : Promise) (d : Daemon) (tp : Nat) (d' : Daemon) : Prop where
  inv : Inv p d'
  others : ∀ tp' ∈ d.tps, tp' ≠ tp → tp' ∈ d'.tps

theorem Stopped.turned {trStays : Bool} {d' : Daemon} (stopped : Stopped p d tp trStays d') :
    Turned p d tp d' := ⟨stopped.inv, stopped.others⟩

theorem Turned.trans {d' d'' : Daemon} (first : Turned p d tp d') (second : Turned p d' tp d'') :
    Turned p d tp d'' :=
  ⟨second.inv, fun tp' mem other => second.others tp' (first.others tp' mem other) other⟩

theorem Inv.turned (inv : Inv p d) : Turned p d tp d := ⟨inv, fun _ mem _ => mem⟩

theorem Inv.turned_changed (inv : Inv p d) (tl : t.tl = (d.torrent tp).tl)
    (ghost : t.state = .ghost ↔ (d.torrent tp).state = .ghost) (right : t.Right)
    (delete : p.kept → t.delete = (d.torrent tp).delete) : Turned p d tp (d.changed tp t) :=
  ⟨inv.changed tl ghost right delete, fun _ mem _ => mem⟩

theorem Inv.turned_killed (inv : Inv p (d.killed tp)) : Turned p d tp (d.killed tp) := by
  refine ⟨inv, fun tp' mem other => ?_⟩
  rw [Daemon.killed_tps]
  exact (List.mem_erase_of_ne other).mpr mem

theorem stateOnTick_wp {tick : Tick} (inv : Inv p d) (mem : tp ∈ d.tps) :
    (stateOnTick tick tp).wp (contract p) callers (fun _ d' => Turned p d tp d') d := by
  have right := inv.roster.right mem
  -- a torrent that runs has not been deleted
  have running : ∀ t : Torrent, (d.torrent tp).state ≠ .ghost → t.tl = (d.torrent tp).tl →
      t.delete = (d.torrent tp).delete → t.state = .seed ∨ t.state = .leech →
      Turned p d tp (d.changed tp t) := by
    intro t active tl delete state
    have notGhost : t.state ≠ .ghost := by rcases state with state | state <;> simp [state]
    refine inv.turned_changed tl (iff_of_false notGhost active) ?_ fun _ => delete
    refine ⟨fun ghost => absurd ghost notGhost, ?_, fun deleted => ?_⟩
    · rcases state with state | state <;> simp [state]
    · exact absurd (right.deleted (delete ▸ deleted)) active
  unfold stateOnTick
  rw [wp_bind, wp_torrent, if_pos mem]
  cases state : (d.torrent tp).state with
  | starting =>
      change wp _ _ (when _ _) _ _
      rw [wp_when]
      split
      case isTrue =>
        rw [wp_setTorrent, if_pos mem]
        refine running _ (by simp [state]) rfl rfl ?_
        by_cases full : tick.full tp = true
        · exact .inl (if_pos full)
        · exact .inr (if_neg full)
      case isFalse => exact inv.turned
  | leech =>
      change wp _ _ (when _ _) _ _
      rw [wp_when]
      split
      case isTrue =>
        rw [wp_setTorrent, if_pos mem]
        exact running _ (by simp [state]) rfl rfl (.inl rfl)
      case isFalse => exact inv.turned
  | seed => exact wp_pure.mpr inv.turned
  | stopping => exact absurd state right.running
  | ghost => exact ghostOnTick_wp inv mem state (fun _ => inv.turned) fun _ => Inv.turned_killed

theorem torrentOnTick_wp {tick : Tick} (inv : Inv p d) (mem : tp ∈ d.tps) :
    (torrentOnTick tick tp).wp (contract p) callers (fun _ d' => Turned p d tp d') d := by
  unfold torrentOnTick
  rw [wp_call]
  by_cases kills : p.ticked ∧ KillsInTick ⟨.torrentOnTick tp (tick.trStays tp), callers, d⟩
  · exact .inl (.inr (.inr (.inl kills)))
  right
  rw [wp_bind, wp_torrent, if_pos mem, wp_bind, wp_when]
  split
  case isFalse => exact stateOnTick_wp inv mem
  case isTrue failed =>
    refine wp_mono (torrentStop_wp inv mem) fun _ d' stopped => ?_
    by_cases there : tp ∈ d'.tps
    · exact wp_mono (stateOnTick_wp stopped.inv there) fun _ _ turned => stopped.turned.trans turned
    · unfold stateOnTick
      rw [wp_bind, wp_torrent, if_neg there]
      refine allowed_torrentFreed fun ticked => kills ⟨ticked, failed.2, ?_, (stopped.gone there).2⟩
      have active := (stopped.gone there).1
      have notStopping := failed.1
      cases state : (d.torrent tp).state <;> simp_all

/-- A loop over the torrents that frees no torrent but the one at hand. -/
theorem forEach_turned {f : Nat → Routine Unit} (inv : Inv p d)
    (turn : ∀ tp d, Inv p d → tp ∈ d.tps →
      (f tp).wp (contract p) callers (fun _ d' => Turned p d tp d') d) :
    (forEach d.mTorrents f).wp (contract p) callers (fun _ d' => Inv p d') d := by
  refine wp_mono (wp_forEach
    (fun rest d' => rest.Nodup ∧ (∀ tp ∈ rest, tp ∈ d'.tps) ∧ Inv p d') ?_ ?_)
    fun _ _ done => done.2.2
  · rintro tp rest d' - ⟨nodup, alive, inv'⟩
    obtain ⟨notMem, nodup⟩ := List.nodup_cons.mp nodup
    refine wp_mono (turn tp d' inv' (alive tp List.mem_cons_self)) fun _ d'' turned => ?_
    refine ⟨nodup, fun tp' mem => ?_, turned.inv⟩
    exact turned.others tp' (alive tp' (List.mem_cons_of_mem tp mem)) fun same =>
      notMem (same ▸ mem)
  · exact ⟨inv.roster.mTorrents_nodup, fun tp mem => (inv.roster.mem_mTorrents tp).mp mem, inv⟩

end Btpd.Torrents
