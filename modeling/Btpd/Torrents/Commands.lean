import Btpd.Torrents.Routines
import Mathlib

/-!
# Every event keeps the invariant

The commands, the heartbeat and what the content layer and the trackers report.
-/

namespace Btpd.Torrents

open Prog

variable {p : Promise} {d : Daemon} {tl tp : Nat} {t : Torrent} {hash : Hash}
  {k : Contract Daemon Fn Fault} {callers : List Fn} {post : Unit → Daemon → Prop}

/-! ## What the commands ask of an entry -/

theorem torrentHaunting_wp {post : Bool → Daemon → Prop} (inv : Inv p d) (entry : tl ∈ d.tls)
    (met : ∀ b, (b = true ↔ d.Haunting tl) → post b d) :
    (torrentHaunting tl).wp k callers post d := by
  unfold torrentHaunting
  rw [wp_bind, wp_entry, if_pos entry]
  cases points : (d.tlib tl).tp with
  | none =>
      refine wp_pure.mpr (met false (iff_of_false Bool.false_ne_true ?_))
      rintro ⟨tp, points', -⟩
      exact absurd (points'.symm.trans points) (Option.some_ne_none tp)
  | some tp =>
      change wp _ _ (_ >>= _) _ _
      rw [wp_bind, wp_torrent, if_pos (inv.links.tl_tp tl entry tp points).1, wp_pure]
      refine met _ ?_
      rw [decide_eq_true_iff]
      constructor
      · exact fun haunts => ⟨tp, points, haunts⟩
      · rintro ⟨tp', points', haunts⟩
        rw [points] at points'
        cases points'
        exact haunts

/-- `torrent_startable` -/
def Daemon.Startable (d : Daemon) (tl : Nat) : Prop :=
  ∀ tp, (d.tlib tl).tp = some tp → (d.torrent tp).state = .ghost ∧ (d.torrent tp).delete = false

theorem torrentStartable_wp {post : Bool → Daemon → Prop} (inv : Inv p d) (entry : tl ∈ d.tls)
    (met : ∀ b, (b = true ↔ d.Startable tl) → post b d) :
    (torrentStartable tl).wp k callers post d := by
  unfold torrentStartable
  rw [wp_bind, wp_entry, if_pos entry]
  cases points : (d.tlib tl).tp with
  | none =>
      refine wp_pure.mpr (met true (iff_of_true rfl ?_))
      intro tp points'
      exact absurd (points'.symm.trans points) (Option.some_ne_none tp)
  | some tp =>
      change wp _ _ (_ >>= _) _ _
      rw [wp_bind, wp_torrent, if_pos (inv.links.tl_tp tl entry tp points).1, wp_pure]
      refine met _ ?_
      rw [decide_eq_true_iff]
      constructor
      · intro startable tp' points'
        rw [points] at points'
        cases points'
        exact startable
      · exact fun startable => startable tp points

theorem torrentActive_wp {post : Bool → Daemon → Prop} (inv : Inv p d) (entry : tl ∈ d.tls)
    (met : ∀ b, (b = true → ∃ tp ∈ d.tps, (d.tlib tl).tp = some tp) → post b d) :
    (torrentActive tl).wp k callers post d := by
  unfold torrentActive
  rw [wp_bind, wp_entry, if_pos entry]
  cases points : (d.tlib tl).tp with
  | none => exact wp_pure.mpr (met false nofun)
  | some tp =>
      have mem := (inv.links.tl_tp tl entry tp points).1
      change wp _ _ (_ >>= _) _ _
      rw [wp_bind, wp_torrent, if_pos mem, wp_pure]
      exact met _ fun _ => ⟨tp, mem, points⟩

/-- A command finds an entry of the library. -/
theorem Library.mem_of_find (lib : Library p d) {key : Key} (numbered : p.numbered)
    (found : d.find key = some tl) : tl ∈ d.tls := by
  cases key with
  | num num => exact (lib.mem_numtbl numbered tl).mp (List.mem_of_find?_eq_some found)
  | hash hash => exact (lib.mem_hashtbl tl).mp (List.mem_of_find?_eq_some found)

/-- A command starts by reading the entry that it has found. -/
theorem wp_of_entry {α : Type} {post : α → Daemon → Prop} {f : Tlib → Routine α}
    (found : p.numbered → tl ∈ d.tls)
    (met : tl ∈ d.tls → (entry tl >>= f).wp (contract p) callers post d) :
    (entry tl >>= f).wp (contract p) callers post d := by
  by_cases here : tl ∈ d.tls
  · exact met here
  · rw [wp_bind, wp_entry, if_neg here]
    exact allowed_entryFreed fun promised => here (found promised.2)

/-! ## Add -/

theorem tlibAdd_wp {post : Nat → Daemon → Prop} (inv : Inv p d)
    (fresh : ∀ tl ∈ d.tls, (d.tlib tl).hash ≠ hash)
    (met : Inv p (d.added hash) → post d.nextTl (d.added hash)) :
    (tlibAdd hash).wp (contract p) callers post d := by
  unfold tlibAdd tlibCreate
  rw [wp_bind, wp_call]
  by_cases renumbers : p.numbered ∧ Renumbers ⟨.tlibCreate, callers, d⟩
  · exact .inl (.inr (.inl renumbers))
  right
  have num : p.numbered → ∀ tl ∈ d.tls, (d.tlib tl).num ≠ d.mNextnum := fun numbered tl mem same =>
    renumbers ⟨numbered, rfl, tl, (inv.library.mem_numtbl numbered tl).mpr mem, same⟩
  rw [wp_bind, wp_get, wp_bind, wp_modify, wp_pure, wp_bind, wp_get, wp_bind, wp_assert]
  by_cases dir : hash ∈ d.dirs
  · rw [if_neg (not_not_intro dir)]
    refine allowed_dirExists fun kept => ?_
    obtain ⟨tl, house, same⟩ := (inv.dirs.mem_iff kept hash).mp dir
    exact fresh tl house.1 same
  · rw [if_pos dir, wp_bind, wp_modify, wp_bind]
    refine saveInfo_wp (d := d.added hash) List.mem_cons_self (fun absent => absurd ?_ absent) ?_
    · rw [show (d.added hash).tlib d.nextTl = _ from Daemon.entered_self]
      exact List.mem_cons_self
    · exact wp_pure.mpr (met (inv.added fresh num dir))

theorem tlibReadd_wp (inv : Inv p d) (entry : tl ∈ d.tls) (haunting : d.Haunting tl) :
    (tlibReadd tl (d.tlib tl).hash).wp (contract p) callers (fun _ d' => Inv p d') d := by
  unfold tlibReadd
  rw [wp_call]
  by_cases linked : p.linked
  · exact .inl (.inl ⟨linked, rfl⟩)
  right
  obtain ⟨tp, points, deleted, ghost⟩ := haunting
  have mem := (inv.links.tl_tp tl entry tp points).1
  rw [wp_bind, wp_entry, if_pos entry, points]
  change wp _ _ (_ >>= _) _ _
  rw [wp_bind, wp_setTorrent, if_pos mem, wp_bind, wp_tlibKill,
    if_pos (show tl ∈ (d.changed tp _).tls from entry), wp_bind]
  have old : ∀ tl', tl' ∈ (d.released tl tp).tls → tl' ≠ tl ∧ tl' ∈ d.tls := fun tl' =>
    inv.library.tls_nodup.mem_erase_iff.mp
  have torrent : (d.released tl tp).torrent tp = { d.torrent tp with delete := false } :=
    Daemon.changed_self
  have released : Inv p (d.released tl tp) := inv.released linked entry points deleted ghost
  refine tlibAdd_wp (d := d.released tl tp) released (fun tl' mem' same => ?_) fun added => ?_
  · exact (old tl' mem').1 (inv.library.hash_inj tl' (old tl' mem').2 tl entry same)
  · rw [wp_setTlib_some, if_pos (show (d.released tl tp).nextTl ∈ Daemon.tls _ from
      List.mem_cons_self)]
    have before : ∀ tl' ∈ (d.released tl tp).tls,
        ((d.released tl tp).added (d.tlib tl).hash).tlib tl' = d.tlib tl' := fun tl' mem' =>
      released.library.entered_old mem'
    refine added.relinked linked mem (congrArg Torrent.delete torrent)
      ((congrArg Torrent.state torrent).trans ghost) List.mem_cons_self
      (congrArg Tlib.tp Daemon.entered_self) ?_ ?_
    · refine fun there => (List.mem_cons.mp there).elim (fun here => ?_) fun there => ?_
      · exact absurd here (Nat.ne_of_lt (released.links.tl_lt tp mem))
      · refine inv.released_tl entry points ?_
        exact (congrArg Torrent.tl torrent) ▸ there
    · intro tl' mem' points'
      rcases List.mem_cons.mp mem' with rfl | mem'
      · exact absurd (points'.symm.trans (congrArg Tlib.tp Daemon.entered_self))
          (Option.some_ne_none tp)
      · rw [before tl' mem'] at points'
        exact (old tl' mem').1
          (inv.links.tp_inj tl' (old tl' mem').2 tl entry tp points' points)

theorem cmdAdd_wp (inv : Inv p d) :
    (cmdAdd hash).wp (contract p) callers (fun _ d' => Inv p d') d := by
  unfold cmdAdd
  rw [wp_bind, wp_get]
  cases found : d.tlibByHash hash with
  | none =>
      change wp _ _ (_ >>= _) _ _
      rw [wp_bind]
      refine tlibAdd_wp inv (fun tl mem same => ?_) fun added => wp_pure.mpr added
      have other := List.find?_eq_none.mp found tl ((inv.library.mem_hashtbl tl).mpr mem)
      exact other (decide_eq_true same)
  | some tl =>
      have entry := (inv.library.mem_hashtbl tl).mp (List.mem_of_find?_eq_some found)
      have named := List.find?_some found
      have same : (d.tlib tl).hash = hash := of_decide_eq_true named
      change wp _ _ (_ >>= _) _ _
      rw [wp_bind]
      refine torrentHaunting_wp inv entry fun haunts haunting => ?_
      rw [wp_when]
      split
      case isTrue set =>
        rw [← same]
        exact tlibReadd_wp inv entry (haunting.mp set)
      case isFalse => exact inv

/-! ## Del and stop -/

theorem tlDel_wp {trStays closes : Bool} (inv : Inv p d) (known : p.numbered → tl ∈ d.tls) :
    (tlDel tl trStays closes).wp (contract p) callers (fun _ d' => Inv p d') d := by
  unfold tlDel torrentHaunting
  rw [wp_bind]
  refine wp_of_entry known fun entry => ?_
  refine torrentHaunting_wp inv entry fun haunts _ => ?_
  rw [wp_when]
  split
  case isFalse => exact inv
  case isTrue =>
    rw [wp_bind, wp_entry, if_pos entry]
    cases points : (d.tlib tl).tp with
    | none => exact tlibDel_free entry points (inv.deleted entry points)
    | some tp =>
        have mem := (inv.links.tl_tp tl entry tp points).1
        exact wp_mono (torrentStop_wp inv mem) fun _ _ stopped => stopped.inv

theorem tlStop_wp {trStays closes : Bool} (inv : Inv p d) (known : p.numbered → tl ∈ d.tls) :
    (tlStop tl trStays closes).wp (contract p) callers (fun _ d' => Inv p d') d := by
  unfold tlStop torrentHaunting
  rw [wp_bind]
  refine wp_of_entry known fun entry => ?_
  refine torrentHaunting_wp inv entry fun haunts _ => ?_
  rw [wp_bind]
  refine torrentActive_wp inv entry fun active pointed => ?_
  rw [wp_when]
  split
  case isFalse => exact inv
  case isTrue both =>
    obtain ⟨tp, mem, points⟩ := pointed both.2
    rw [wp_bind, wp_entry, if_pos entry, points]
    exact wp_mono (torrentStop_wp inv mem) fun _ _ stopped => stopped.inv

/-- A command does something with the entry that it finds. -/
theorem wp_found {key : Key} {f : Nat → Routine Unit} (inv : Inv p d)
    (each : ∀ tl, (p.numbered → tl ∈ d.tls) →
      (f tl).wp (contract p) callers (fun _ d' => Inv p d') d) :
    (forEach (d.find key).toList f).wp (contract p) callers (fun _ d' => Inv p d') d := by
  cases found : d.find key with
  | none => exact wp_pure.mpr inv
  | some tl =>
      refine wp_seq (each tl fun numbered => inv.library.mem_of_find numbered found)
        fun _ _ inv' => wp_pure.mpr inv'

/-! ## Start -/

theorem ghostKill_wp (inv : Inv p d) (entry : tl ∈ d.tls) (startable : d.Startable tl)
    (met : ∀ d', Inv p d' → d'.tls = d.tls → (d'.tlib tl).tp = none → post () d') :
    (ghostKill tl).wp (contract p) callers post d := by
  unfold ghostKill
  rw [wp_bind, wp_entry, if_pos entry]
  cases points : (d.tlib tl).tp with
  | none => exact wp_pure.mpr (met d inv rfl points)
  | some tp =>
      obtain ⟨ghost, kept⟩ := startable tp points
      obtain ⟨mem, back⟩ := inv.links.tl_tp tl entry tp points
      change wp _ _ (_ >>= _) _ _
      rw [wp_bind]
      refine torrentStartable_wp inv entry fun b asked => ?_
      rw [wp_bind, wp_assert, if_pos (asked.mpr startable), wp_bind]
      refine torrentKill_ghost inv mem ghost fun alive killed => ?_
      rcases back with here | ⟨-, dangling, -⟩
      case inr => exact absurd alive dangling
      have state : d.killed tp = (d.left tp).unlinked tl := by
        unfold Daemon.killed
        rw [kept, if_neg Bool.false_ne_true, here]
      rw [state] at killed ⊢
      have again : ((d.left tp).unlinked tl).unlinked tl = (d.left tp).unlinked tl := by
        simp [Daemon.unlinked]
      rw [wp_setTlib_none, if_pos (show tl ∈ ((d.left tp).unlinked tl).tls from entry), again]
      exact met _ killed rfl Daemon.unlinked_tp

/-- The torrent that `torrent_start` makes. -/
def Start.torrent (s : Start) (tl : Nat) : Torrent :=
  ⟨tl, .starting, false, s.cm.getD .inactive, s.cm.isNone, false, false⟩

theorem torrentCreate_wp {s : Start} (inv : Inv p d) (entry : tl ∈ d.tls)
    (free : (d.tlib tl).tp = none) :
    (torrentCreate tl s).wp (contract p) callers (fun _ d' => Inv p d' ∧ d'.tls = d.tls) d := by
  have created : Inv p (d.created (s.torrent tl)) := by
    refine inv.created entry free ?_ ⟨?_, ?_, ?_⟩ <;> simp [Start.torrent]
  unfold torrentCreate
  unfold Daemon.created at created
  rw [wp_bind, wp_get, wp_bind, wp_modify, wp_bind, wp_setTlib_some,
    if_pos (show tl ∈ Daemon.tls _ from entry), wp_bind, wp_modify, wp_bind, wp_get, wp_when]
  split
  case isTrue one =>
    have first : d.mNtorrents = 0 := Nat.succ.inj one
    rw [if_pos first] at created
    exact wp_modify.mpr ⟨created.idle _ _ _ _ _ _ _, rfl⟩
  case isFalse more =>
    have later : d.mNtorrents ≠ 0 := fun first => more (congrArg (· + 1) first)
    rw [if_neg later] at created
    exact ⟨created, rfl⟩

theorem torrentStart_wp {s : Start} (inv : Inv p d) (entry : tl ∈ d.tls)
    (startable : d.Startable tl) :
    (torrentStart tl s).wp (contract p) callers (fun _ d' => Inv p d' ∧ d'.tls = d.tls) d := by
  unfold torrentStart
  rw [wp_bind]
  refine ghostKill_wp inv entry startable fun d' inv' tls free => ?_
  rw [wp_bind, wp_entry, if_pos (tls ▸ entry), wp_ite]
  split
  case isTrue =>
    refine wp_seq (torrentCreate_wp inv' (tls ▸ entry) free) fun _ d'' created => ?_
    exact wp_pure.mpr ⟨created.1, created.2.trans tls⟩
  case isFalse => exact wp_pure.mpr ⟨inv', tls⟩

theorem tlStart_wp {s : Start} (inv : Inv p d) (known : p.numbered → tl ∈ d.tls) :
    (tlStart tl s).wp (contract p) callers (fun _ d' => Inv p d') d := by
  unfold tlStart torrentStartable
  rw [wp_bind]
  refine wp_of_entry known fun entry => ?_
  refine torrentStartable_wp inv entry fun startable asked => ?_
  rw [wp_when]
  split
  case isTrue set =>
    refine wp_seq (torrentStart_wp inv entry (asked.mp set)) fun _ d' started => ?_
    exact wp_pure.mpr started.1
  case isFalse => exact inv

theorem cmdStartAll_wp {s : Nat → Start} (inv : Inv p d) :
    (cmdStartAll s).wp (contract p) callers (fun _ d' => Inv p d') d := by
  unfold cmdStartAll
  rw [wp_bind, wp_get, wp_when]
  split
  case isFalse => exact inv
  refine wp_mono (wp_forEach_keeps (fun d' => Inv p d' ∧ d'.tls = d.tls) ?_ ⟨inv, rfl⟩)
    fun _ _ done => done.1
  rintro tl listed d' ⟨inv', tls⟩
  have known : p.numbered → tl ∈ d'.tls := fun numbered =>
    tls ▸ (inv.library.mem_numtbl numbered tl).mp listed
  rw [torrentStartable, wp_bind]
  refine wp_of_entry known fun entry => ?_
  refine torrentStartable_wp inv' entry fun startable asked => ?_
  rw [wp_when]
  split
  case isTrue set =>
    refine wp_seq (torrentStart_wp inv' entry (asked.mp set)) fun started d'' done => ?_
    rw [wp_assert]
    split
    case isTrue => exact ⟨done.1, done.2.trans tls⟩
    case isFalse => exact .inr (.inr (.inr rfl))
  case isFalse => exact ⟨inv', tls⟩

/-! ## The heartbeat and the end -/

theorem stopAll_wp {tick : Tick} (inv : Inv p d) :
    (stopAll tick).wp (contract p) callers (fun _ d' => Inv p d') d := by
  unfold stopAll
  rw [wp_bind, wp_get]
  exact forEach_turned inv fun tp d' inv' mem =>
    wp_mono (torrentStop_wp inv' mem) fun _ _ stopped => stopped.turned

theorem deathProcedure_wp (inv : Inv p d) :
    deathProcedure.wp (contract p) callers (fun _ d' => Inv p d') d := by
  unfold deathProcedure
  rw [wp_bind, wp_get, wp_bind, wp_when]
  split
  case isTrue =>
    rw [wp_modify, wp_when]
    split
    case isTrue => exact wp_modify.mpr (inv.idle _ _ _ _ _ _ _)
    case isFalse => exact inv.idle _ _ _ _ _ _ _
  case isFalse =>
    rw [wp_when]
    split
    case isTrue => exact wp_modify.mpr (inv.idle _ _ _ _ _ _ _)
    case isFalse => exact inv

theorem btpdShutdown_wp {tick : Tick} (inv : Inv p d) :
    (btpdShutdown tick).wp (contract p) callers (fun _ d' => Inv p d') d := by
  unfold btpdShutdown
  rw [wp_bind, wp_modify]
  have shut : Inv p { d with mShutdown := true } := inv.idle _ _ _ _ _ _ _
  refine wp_seq (stopAll_wp shut) fun _ d' inv' => ?_
  exact deathProcedure_wp inv'

/-- `m_savetp` moves on along the list. -/
theorem Inv.saved (inv : Inv p d) (tp mTsave : Nat) :
    Inv p { d with
      mSavetp := savetpAfter d.mTorrents (next tp d.mTorrents)
      mTsave := mTsave } where
  library := inv.library.congr rfl rfl rfl rfl (fun _ => rfl) fun _ => rfl
  roster := by
    rcases inv.roster with ⟨h1, h2, h3, h4, h5, h6, h7, h8, h9, h10, h11⟩
    refine ⟨h1, h2, h3, h4, h5, h6, ?_, ?_, h9, h10, h11⟩
    · exact fun _ there => savetpAfter_mem (fun _ => mem_of_next) there
    · exact savetpAfter_none
  links := inv.links.congr rfl rfl rfl (fun _ => rfl) (fun _ => rfl) fun _ ghost => ghost
  dirs := inv.dirs.congr rfl (fun _ => rfl) fun _ _ =>
    and_congr_right fun _ => not_congr <| Daemon.haunting_congr rfl fun _ _ => Iff.rfl

theorem saveOnTick_wp (inv : Inv p d) :
    saveOnTick.wp (contract p) callers (fun _ d' => Inv p d') d := by
  unfold saveOnTick
  rw [wp_bind, wp_get]
  cases saved : d.mSavetp with
  | none => exact wp_pure.mpr inv
  | some tp =>
      have listed := inv.roster.savetp_mem tp saved
      have mem := (inv.roster.mem_mTorrents tp).mp listed
      refine wp_between (fun _ d' => Inv p d') ?_ fun _ _ inv' => wp_pure.mpr inv'
      rw [wp_when]
      split
      case isFalse => exact inv
      rw [wp_bind, wp_torrent, if_pos mem, wp_when]
      split
      case isFalse => exact inv
      case isTrue running =>
        have active : (d.torrent tp).state ≠ .ghost := by
          rcases running with state | state <;> simp [state]
        obtain ⟨entry, points⟩ := inv.entry_of_active mem active
        rw [wp_bind]
        refine tlibUpdateInfo_wp entry points mem (fun absent => ?_) ?_
        · exact allowed_dirMissing fun kept => absent (inv.dir_of_active mem active kept)
        · rw [wp_bind, wp_modify, wp_bind, wp_get, wp_when]
          split
          case isTrue => exact wp_modify.mpr (inv.saved tp _)
          case isFalse => exact inv.saved tp d.mTsave

theorem torrentOnTickAll_wp {tick : Tick} (inv : Inv p d) :
    (torrentOnTickAll tick).wp (contract p) callers (fun _ d' => Inv p d') d := by
  unfold torrentOnTickAll
  rw [wp_bind, wp_get]
  refine wp_seq (forEach_turned inv fun tp d' inv' mem => torrentOnTick_wp inv' mem)
    fun _ d' inv' => ?_
  exact saveOnTick_wp inv'

theorem heartbeat_wp {tick : Tick} (inv : Inv p d) :
    (heartbeat tick).wp (contract p) callers (fun _ d' => Inv p d') d := by
  unfold heartbeat
  rw [wp_bind, wp_modify]
  have later : Inv p { d with btpdSeconds := d.btpdSeconds + 1 } := inv.idle _ _ _ _ _ _ _
  refine wp_seq (torrentOnTickAll_wp later) fun _ d₁ inv₁ => ?_
  rw [wp_bind, wp_get]
  refine wp_between (fun _ d' => Inv p d') ?_ fun _ d₂ inv₂ => ?_
  · rw [wp_when]
    split
    case isFalse => exact inv₁
    case isTrue =>
      rw [wp_bind, wp_modify, wp_when]
      split
      case isTrue => exact btpdShutdown_wp (inv₁.idle _ _ _ _ _ _ _)
      case isFalse => exact inv₁.idle _ _ _ _ _ _ _
  · rw [wp_bind, wp_get, wp_when]
    split
    case isTrue => exact deathProcedure_wp inv₂
    case isFalse => exact inv₂

/-! ## Events -/

/-- What is reported of a torrent that has not been freed changes that torrent. -/
theorem reported_wp {tp : Nat} {c : Daemon → Prop} [DecidablePred c] {f : Torrent → Torrent}
    (inv : Inv p d) (alive : c d → tp ∈ d.tps)
    (changed : c d → Inv p (d.changed tp (f (d.torrent tp)))) :
    (do
      let d ← get
      when (c d) (setTorrent tp f)).wp (contract p) callers (fun _ d' => Inv p d') d := by
  rw [wp_bind, wp_get, wp_when]
  split
  case isTrue holds =>
    rw [wp_setTorrent, if_pos (alive holds)]
    exact changed holds
  case isFalse => exact inv

theorem handleEvent_wp (inv : Inv p d) (e : Event) :
    (handleEvent e).wp (contract p) callers (fun _ d' => Inv p d') d := by
  cases e with
  | add hash => exact cmdAdd_wp inv
  | del key trStays closes =>
      unfold handleEvent cmdDel
      rw [wp_bind, wp_get]
      exact wp_found inv fun tl known => tlDel_wp inv known
  | start key s =>
      unfold handleEvent cmdStart
      rw [wp_bind, wp_get, wp_when]
      split
      case isTrue => exact wp_found inv fun tl known => tlStart_wp inv known
      case isFalse => exact inv
  | startAll s => exact cmdStartAll_wp inv
  | stop key trStays closes =>
      unfold handleEvent cmdStop
      rw [wp_bind, wp_get]
      exact wp_found inv fun tl known => tlStop_wp inv known
  | stopAll k => exact stopAll_wp inv
  | die k =>
      unfold handleEvent
      rw [wp_bind, wp_get, wp_when]
      split
      case isTrue => exact btpdShutdown_wp inv
      case isFalse => exact inv
  | signal => exact wp_modify.mpr (inv.idle _ _ _ _ _ _ _)
  | heartbeat k => exact heartbeat_wp inv
  | cmStarted tp =>
      refine reported_wp inv And.left fun ⟨mem, starting⟩ => ?_
      have right := inv.roster.right mem
      have active : (d.torrent tp).state ≠ .ghost := fun ghost => by
        rw [(right.quiet ghost).2] at starting
        cases starting
      exact inv.changed rfl Iff.rfl
        ⟨fun ghost => absurd ghost active, right.running, right.deleted⟩ fun _ => rfl
  | cmError tp =>
      refine reported_wp inv And.left fun ⟨mem, running⟩ => ?_
      have right := inv.roster.right mem
      exact inv.changed rfl Iff.rfl
        ⟨fun ghost => ⟨(right.quiet ghost).1, rfl⟩, right.running, right.deleted⟩ fun _ => rfl
  | trDone tp =>
      refine reported_wp inv id fun mem => ?_
      have right := inv.roster.right mem
      exact inv.changed rfl Iff.rfl ⟨right.quiet, right.running, right.deleted⟩ fun _ => rfl

theorem handle_wp (inv : Inv p d) (e : Event) :
    (handle e).wp (contract p) callers (fun _ d' => Inv p d') d := by
  unfold handle
  rw [wp_bind, wp_get, wp_when]
  split
  case isTrue => exact handleEvent_wp inv e
  case isFalse => exact inv

/-! ## The start -/

theorem Inv.init {dirs : List Hash} {loads : Nat → Bool} (nodup : dirs.Nodup) :
    Inv p (tlibInit dirs loads) := by
  have mem : ∀ tl, tl ∈ List.range dirs.length ↔ tl < dirs.length := fun _ => List.mem_range
  constructor
  case library =>
    refine ⟨fun tl => (mem tl).mp, List.nodup_range, fun _ => Iff.rfl, List.nodup_range, ?_,
      fun _ _ => Iff.rfl, fun _ => List.nodup_range, fun _ _ _ _ _ same => same⟩
    intro tl tlMem tl' tlMem' same
    have lt := (mem tl).mp tlMem
    have lt' := (mem tl').mp tlMem'
    change dirs.getD tl [] = dirs.getD tl' [] at same
    rw [List.getD_eq_getElem _ _ lt, List.getD_eq_getElem _ _ lt'] at same
    exact (nodup.getElem_inj_iff).mp same
  case roster =>
    exact ⟨nofun, List.nodup_nil, fun _ => Iff.rfl, List.nodup_nil, rfl, rfl, nofun, fun _ => rfl,
      nofun, nofun, nofun⟩
  case links => exact ⟨nofun, nofun, nofun, nofun, nofun, nofun⟩
  case dirs =>
    refine ⟨nodup, fun _ hash => ?_⟩
    change hash ∈ dirs ↔ _
    rw [List.mem_iff_getElem]
    constructor
    · rintro ⟨tl, lt, rfl⟩
      refine ⟨tl, (mem tl).mpr lt, List.getD_eq_getElem _ _ lt, fun haunts => ?_⟩
      obtain ⟨_, points, -⟩ := haunts
      cases points
    · rintro ⟨tl, tlMem, rfl, -⟩
      have lt := (mem tl).mp tlMem
      exact ⟨tl, lt, (List.getD_eq_getElem _ _ lt).symm⟩

end Btpd.Torrents
