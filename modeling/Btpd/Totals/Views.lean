import Btpd.Library.Simulation
import Btpd.Torrents.Runs
import Btpd.Totals.Runs
import Mathlib

/-!
# One entry of the daemon

The account of an info hash has its own `torrent_kill`, `become_ghost`, `torrent_stop`
and `torrent_on_tick`, which also move the totals.  On the entry and the torrent of the
account they do what the routines of the daemon do, as long as the torrent points to the
entry.
-/

namespace Btpd.Totals

open Prog
open Torrents (Daemon contract system)

variable {tl tp : Nat} {d d' : Daemon} {s : Account} {t : Torrents.Torrent} {t' : Torrent}

/-- A torrent of the daemon, and the one of the account. -/
structure Seen (tl : Nat) (t : Torrents.Torrent) (t' : Torrent) : Prop where
  tl : t.tl = tl
  linked : t'.linked = true
  state : t'.state = t.state
  delete : t'.delete = t.delete
  cm : t'.cm = t.cm
  error : t'.error = t.error
  netActive : t'.netActive = t.netActive
  trActive : t'.trActive = t.trActive

/-- The account of an entry of the daemon with its torrent. -/
structure View (tl tp : Nat) (d : Daemon) (s : Account) : Prop where
  tls : d.tls.Nodup
  tps : d.tps.Nodup
  dirs : d.dirs.Nodup
  entry : tl ∈ d.tls → ∃ e, s.tl = some e ∧ (d.tlib tl).tp = if e.tp then some tp else none
  freed : tl ∉ d.tls → s.tl = none
  torrent : tp ∈ d.tps → ∃ t, s.tp = some t ∧ Seen tl (d.torrent tp) t
  killed : tp ∉ d.tps → s.tp = none
  info : s.info.isSome = true ↔ (d.tlib tl).hash ∈ d.dirs

/-- The rest of the daemon does not matter. -/
theorem View.congr (view : View tl tp d s) (tls : d'.tls = d.tls) (tps : d'.tps = d.tps)
    (dirs : d'.dirs = d.dirs) (tlib : d'.tlib = d.tlib) (torrent : d'.torrent = d.torrent) :
    View tl tp d' s := by
  constructor
  · rw [tls]
    exact view.tls
  · rw [tps]
    exact view.tps
  · rw [dirs]
    exact view.dirs
  · rw [tls, tlib]
    exact view.entry
  · rw [tls]
    exact view.freed
  · rw [tps, torrent]
    exact view.torrent
  · rw [tps]
    exact view.killed
  · rw [tlib, dirs]
    exact view.info

/-! ## Pointers -/

theorem torrent_simulates :
    Simulates (View tl tp) (Seen tl) (Torrents.torrent tp) torrent := by
  intro callers callers' d s view
  rw [Torrents.wp_torrent]
  split
  case isTrue alive =>
    obtain ⟨t', found, seen⟩ := view.torrent alive
    exact (wp_torrent found).mpr ⟨seen, view⟩
  case isFalse => trivial

theorem setTorrent_simulates {f : Torrents.Torrent → Torrents.Torrent} {f' : Torrent → Torrent}
    (kept : ∀ t t', Seen tl t t' → Seen tl (f t) (f' t')) :
    Simulates (View tl tp) Eq (Torrents.setTorrent tp f) (setTorrent f') := by
  intro callers callers' d s view
  rw [Torrents.wp_setTorrent]
  split
  case isTrue alive =>
    obtain ⟨t', found, seen⟩ := view.torrent alive
    refine (wp_setTorrent found).mpr ⟨rfl, view.tls, view.tps, view.dirs, view.entry, view.freed,
      fun _ => ⟨f' t', rfl, ?_⟩, fun gone => absurd alive gone, view.info⟩
    rw [Torrents.Daemon.changed_self]
    exact kept _ _ seen
  case isFalse => trivial

theorem setTlib_simulates :
    Simulates (View tl tp) Eq (Torrents.setTlib tl fun e => { e with tp := none })
      (setTlib fun e => { e with tp := false }) := by
  intro callers callers' d s view
  rw [Torrents.wp_setTlib_none]
  split
  case isTrue alive =>
    obtain ⟨e, found, -⟩ := view.entry alive
    refine (wp_setTlib found).mpr ⟨rfl, view.tls, view.tps, view.dirs, fun _ => ⟨_, rfl, ?_⟩,
      fun gone => absurd alive gone, view.torrent, view.killed, ?_⟩
    · simp [Torrents.Daemon.unlinked]
    · simpa [Torrents.Daemon.unlinked] using view.info
  case isFalse => trivial

/-! ## The library -/

theorem tlibKill_simulates :
    Simulates (View tl tp) Eq (Torrents.tlibKill tl) tlibKill := by
  intro callers callers' d s view
  rw [Torrents.wp_tlibKill]
  split
  case isTrue alive =>
    obtain ⟨e, found, -⟩ := view.entry alive
    unfold tlibKill
    rw [wp_bind, wp_entry found, wp_modify]
    exact ⟨rfl, view.tls.erase tl, view.tps, view.dirs,
      fun mem => absurd mem view.tls.not_mem_erase, fun _ => rfl, view.torrent, view.killed,
      view.info⟩
  case isFalse => trivial

theorem View.erased (view : View tl tp d s) :
    View tl tp { d with dirs := d.dirs.erase (d.tlib tl).hash } { s with info := none } :=
  ⟨view.tls, view.tps, view.dirs.erase _, view.entry, view.freed, view.torrent, view.killed,
    fun some => absurd some Bool.false_ne_true, fun mem => absurd mem view.dirs.not_mem_erase⟩

/-- The directory is removed, and with it the info file. -/
theorem tlibDel_simulates :
    Simulates (View tl tp) Eq (Torrents.tlibDel tl) tlibDel := by
  intro callers callers' d s view
  unfold Torrents.tlibDel
  rw [wp_bind, Torrents.wp_entry]
  split
  case isFalse => trivial
  case isTrue alive =>
    obtain ⟨e, found, points⟩ := view.entry alive
    rw [points]
    unfold tlibDel
    cases held : e.tp with
    | false =>
        have killed := tlibKill_simulates callers callers' _ _ view.erased
        rw [if_neg Bool.false_ne_true]
        refine wp_bind.mpr (wp_modify.mpr (wp_mono killed fun a s' ran => ?_))
        rw [wp_bind, wp_entry found, wp_ite, if_neg (by simp [held]), wp_bind, wp_modify]
        exact ran
    | true =>
        rw [if_pos rfl]
        change wp _ _ (_ >>= _) _ _
        rw [wp_bind, Torrents.wp_torrent]
        split
        case isFalse => trivial
        case isTrue here =>
          obtain ⟨t', at_t, seen⟩ := view.torrent here
          rw [wp_bind, wp_assert]
          split
          case isFalse => trivial
          case isTrue ghost =>
            rw [wp_modify, wp_bind, wp_entry found, wp_ite, if_pos held, wp_bind, wp_torrent at_t,
              wp_bind, wp_assert, if_pos (seen.state.trans ghost), wp_modify]
            exact ⟨rfl, view.erased⟩

/-- The totals do not matter. -/
theorem View.saved (view : View tl tp d s) {e : Tlib} (found : s.tl = some e)
    (alive : tl ∈ d.tls) (dir : (d.tlib tl).hash ∈ d.dirs) (tot info : Bytes) :
    View tl tp d { s with tl := some { e with tot := tot }, info := some info } := by
  obtain ⟨_, found', points⟩ := view.entry alive
  cases found.symm.trans found'
  exact ⟨view.tls, view.tps, view.dirs, fun _ => ⟨_, rfl, points⟩,
    fun gone => absurd alive gone, view.torrent, view.killed, ⟨fun _ => dir, fun _ => rfl⟩⟩

/-- The info file is written where the directory is. -/
theorem tlibUpdateInfo_simulates {onlyFile : Bool} :
    Simulates (View tl tp) Eq (Torrents.tlibUpdateInfo tl) (tlibUpdateInfo onlyFile) := by
  intro callers callers' d s view
  unfold Torrents.tlibUpdateInfo
  rw [wp_bind, Torrents.wp_entry]
  split
  case isFalse => trivial
  case isTrue alive =>
    obtain ⟨e, found, points⟩ := view.entry alive
    rw [points]
    cases held : e.tp with
    | false => exact wp_fault.mpr trivial
    | true =>
        rw [if_pos rfl]
        change wp _ _ (_ >>= _) _ _
        rw [wp_bind, Torrents.wp_torrent]
        split
        case isFalse => trivial
        case isTrue here =>
          obtain ⟨t', at_t, -⟩ := view.torrent here
          unfold Torrents.saveInfo
          rw [wp_bind, Torrents.wp_entry, if_pos alive, wp_bind, wp_get, wp_assert]
          split
          case isFalse => trivial
          case isTrue dir =>
            unfold tlibUpdateInfo saveInfo
            rw [wp_bind, wp_entry found, wp_bind, wp_assert, if_pos held, wp_bind,
              wp_torrent at_t, wp_bind, wp_when]
            split
            case isTrue =>
              rw [wp_setTlib found, wp_modify]
              exact ⟨rfl, view.saved found alive dir _ _⟩
            case isFalse =>
              have kept := view.saved found alive dir e.tot (e.tot + t'.net)
              rw [← found] at kept
              exact wp_modify.mpr ⟨rfl, kept⟩

/-! ## The end of a torrent -/

theorem killEntry_simulates (seen : Seen tl t t') :
    Simulates (View tl tp) Eq (Torrents.killEntry t) (killEntry t') := by
  unfold Torrents.killEntry killEntry
  rw [seen.tl]
  refine simulates_assert_right seen.linked ?_
  exact simulates_ite (by rw [seen.delete]) (fun _ => tlibKill_simulates) fun _ => setTlib_simulates

/-- The torrent is freed. -/
theorem free_simulates :
    Simulates (View tl tp) Eq
      (modify fun d => { d with tps := d.tps.erase tp } : Torrents.Routine Unit)
      (modify fun s => { s with tp := none } : Routine Unit) := by
  intro callers callers' d s view
  refine wp_modify.mpr (wp_modify.mpr ?_)
  exact ⟨rfl, view.tls, view.tps.erase tp, view.dirs, view.entry, view.freed,
    fun mem => absurd mem view.tps.not_mem_erase, fun _ => rfl, view.info⟩

theorem torrentKill_simulates :
    Simulates (View tl tp) Eq (Torrents.torrentKill tp) torrentKill := by
  refine simulates_seq torrent_simulates fun t t' seen => ?_
  refine simulates_left (fun _ _ _ view => wp_get.mpr view) fun d => ?_
  refine simulates_assert fun _ => simulates_assert fun stopped => ?_
  refine simulates_assert_right (by rw [seen.netActive, seen.cm]; exact stopped) ?_
  refine simulates_left (fun _ _ _ view => wp_when.mpr ?_) fun _ => ?_
  · split
    · exact wp_modify.mpr (view.congr rfl rfl rfl rfl rfl)
    · exact view
  refine simulates_left (fun _ _ _ view => wp_modify.mpr (view.congr rfl rfl rfl rfl rfl))
    fun _ => simulates_assert fun _ => ?_
  refine simulates_left (fun _ _ _ view => wp_modify.mpr (view.congr rfl rfl rfl rfl rfl))
    fun _ => ?_
  refine simulates_seq (killEntry_simulates seen) fun _ _ _ => ?_
  refine simulates_left (fun _ _ _ view => wp_when.mpr ?_) fun _ => free_simulates
  split
  · exact wp_modify.mpr (view.congr rfl rfl rfl rfl rfl)
  · exact view

/-! ## The state of a torrent -/

theorem ghostEntry_simulates (seen : Seen tl t t') :
    Simulates (View tl tp) Eq (Torrents.ghostEntry t) (ghostEntry t') := by
  unfold Torrents.ghostEntry ghostEntry
  rw [seen.tl]
  exact simulates_ite (by rw [seen.delete]) (fun _ => tlibDel_simulates)
    fun _ => tlibUpdateInfo_simulates

theorem becomeGhost_simulates :
    Simulates (View tl tp) Eq (Torrents.becomeGhost tp) becomeGhost := by
  refine simulates_call_right (simulates_seq (setTorrent_simulates ?_) fun _ _ _ => ?_)
  · exact fun t t' seen => { seen with state := rfl }
  refine simulates_seq torrent_simulates fun t t' seen => ?_
  refine simulates_last (ghostEntry_simulates seen) fun _ _ _ callers d s view => ?_
  exact wp_modify.mpr ⟨rfl, view.congr rfl rfl rfl rfl rfl⟩

theorem ghostOnTick_simulates :
    Simulates (View tl tp) Eq (Torrents.ghostOnTick tp) ghostOnTick := by
  refine simulates_seq torrent_simulates fun t t' seen => ?_
  exact simulates_when (by rw [seen.trActive]) (fun _ => torrentKill_simulates) rfl

/-- The streams, the connections and the trackers are stopped. -/
theorem Seen.stopped (seen : Seen tl t t') (trStays closes : Bool) :
    Seen tl (t.stopped trStays closes) (t'.stopped trStays closes) where
  tl := seen.tl
  linked := seen.linked
  state := seen.state
  delete := seen.delete
  cm := rfl
  error := by rw [Torrent.stopped, Torrents.Torrent.stopped, seen.error, seen.cm]
  netActive := rfl
  trActive := by rw [Torrent.stopped, Torrents.Torrent.stopped, seen.trActive]

theorem torrentStop_simulates (delete trStays closes : Bool) :
    Simulates (View tl tp) Eq (Torrents.torrentStop tp delete trStays closes)
      (torrentStop delete trStays closes) := by
  refine simulates_call (simulates_seq (simulates_when Iff.rfl (fun _ => ?_) rfl) fun _ _ _ => ?_)
  · exact setTorrent_simulates fun t t' seen => { seen with delete := rfl }
  refine simulates_seq torrent_simulates fun t t' seen => ?_
  refine simulates_when (by rw [seen.state]) (fun _ => ?_) rfl
  refine simulates_seq (setTorrent_simulates fun t t' seen => { seen with state := rfl })
    fun _ _ _ => ?_
  refine simulates_seq (setTorrent_simulates fun t t' seen => seen.stopped trStays closes)
    fun _ _ _ => ?_
  refine simulates_seq torrent_simulates fun t t' seen => ?_
  refine simulates_when (by rw [seen.cm]) (fun _ => ?_) rfl
  exact simulates_seq becomeGhost_simulates fun _ _ _ => ghostOnTick_simulates

/-- What a tick of the daemon brings for one torrent. -/
def tickOf (k : Torrents.Tick) (tp : Nat) : Tick :=
  ⟨k.full tp, k.trStarts tp, k.trStays tp, k.closes tp⟩

theorem stateOnTick_simulates (k : Torrents.Tick) :
    Simulates (View tl tp) Eq (Torrents.stateOnTick k tp) (stateOnTick (tickOf k tp)) := by
  refine simulates_seq torrent_simulates fun t t' seen => ?_
  rw [seen.state]
  cases t.state with
  | starting =>
      refine simulates_when (by rw [seen.cm]) (fun _ => setTorrent_simulates ?_) rfl
      exact fun t t' seen => { seen with state := rfl, netActive := rfl, trActive := rfl }
  | leech =>
      refine simulates_when Iff.rfl (fun _ => setTorrent_simulates ?_) rfl
      exact fun t t' seen => { seen with state := rfl }
  | stopping =>
      refine simulates_when (by rw [seen.cm]) (fun _ => ?_) rfl
      exact simulates_seq becomeGhost_simulates fun _ _ _ => ghostOnTick_simulates
  | ghost => exact ghostOnTick_simulates
  | seed => exact simulates_pure rfl

theorem torrentOnTick_simulates (k : Torrents.Tick) :
    Simulates (View tl tp) Eq (Torrents.torrentOnTick k tp) (torrentOnTick (tickOf k tp)) := by
  refine simulates_call (simulates_seq torrent_simulates fun t t' seen => ?_)
  refine simulates_seq (simulates_when (by rw [seen.state, seen.error]) (fun _ => ?_) rfl)
    fun _ _ _ => stateOnTick_simulates k
  exact torrentStop_simulates _ _ _

/-! ## Runs of the daemon -/

/-- The account of a torrent of the daemon, with totals that the daemon does not have. -/
def accountOf (d : Daemon) (tp : Nat) (tot net moved : Bytes) : Account :=
  let t := d.torrent tp
  let e := d.tlib t.tl
  { tl := some ⟨tot, true, e.dir⟩
    tp := some ⟨t.state, t.delete, t.cm, t.error, t.netActive, t.trActive, net, true⟩
    info := if d.dirs.contains e.hash then some tot else none
    moved := moved }

theorem view_of_reachable {p : Torrents.Promise} (reached : system.Reachable (contract p).bad d)
    (mem : tp ∈ d.tps) (entry : (d.torrent tp).tl ∈ d.tls) (tot net moved : Bytes) :
    View (d.torrent tp).tl tp d (accountOf d tp tot net moved) := by
  have inv := Torrents.inv_of_reachable reached
  refine ⟨inv.library.tls_nodup, inv.roster.tps_nodup, inv.dirs.nodup,
    fun _ => ⟨_, rfl, inv.links.tp_tl tp mem entry⟩, fun gone => absurd entry gone,
    fun _ => ⟨_, rfl, rfl, rfl, rfl, rfl, rfl, rfl, rfl, rfl⟩, fun gone => absurd mem gone, ?_⟩
  rw [← List.contains_iff_mem]
  unfold accountOf
  dsimp only
  split
  case isTrue there => exact ⟨fun _ => there, fun _ => rfl⟩
  case isFalse away =>
    exact ⟨fun some => absurd some Bool.false_ne_true, fun here => absurd here away⟩

/-- A tick of a torrent that the daemon survives is a tick of its account. -/
theorem torrentOnTick_of_reachable {p : Torrents.Promise}
    (reached : system.Reachable (contract p).bad d) (mem : tp ∈ d.tps)
    (entry : (d.torrent tp).tl ∈ d.tls) {k : Torrents.Tick} {callers : List Torrents.Fn}
    (returned : (Torrents.torrentOnTick k tp callers d).2 = .ok ((), d'))
    (tot net moved : Bytes) :
    ∃ s', (torrentOnTick (tickOf k tp) [] (accountOf d tp tot net moved)).2 = .ok ((), s') ∧
      View (d.torrent tp).tl tp d' s' := by
  have view := view_of_reachable reached mem entry tot net moved
  obtain ⟨_, s', ended, -, view'⟩ := (torrentOnTick_simulates k).returns view returned
  exact ⟨s', ended, view'⟩

end Btpd.Totals
