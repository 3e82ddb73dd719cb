import Btpd.Active.Commands
import Mathlib

/-!
# The file names what was started last

A torrent of the file lives until a command takes it out of the file, so it is not added to
the file twice.  A deleted torrent stays in the file.
-/

namespace Btpd.Active

open Prog
open Benc
open Totals (Account Bytes ifTorrent)
open Torrents (Start)

variable {α β : Type} [DecidableEq α] {o o' : Office α} {hash hash' : α} {s : Account}

/-! ## Deleting a record -/

/-- The first record of the hash goes. -/
theorem activeDelLoop_eq (before rest : List α) (hash : α) :
    ∃ file, activeDelLoop (before ++ rest) hash before.length rest = .ok file ∧
      file.Perm (before ++ rest.erase hash) := by
  induction rest generalizing before with
  | nil => exact ⟨before ++ [], rfl, .refl _⟩
  | cons r rest ih =>
      unfold activeDelLoop
      by_cases here : r = hash
      · rw [if_pos here, activeDelPos_eq before r rest rfl, Exec.bind_ok]
        refine ⟨_, rfl, ?_⟩
        rw [here, List.erase_cons_head]
        exact (lastFirst_perm rest).append_left before
      · rw [if_neg here]
        obtain ⟨file, done, perm⟩ := ih (before ++ [r])
        rw [List.append_assoc, List.length_append] at done
        rw [List.erase_cons_tail (by simpa using here)]
        rw [List.append_assoc] at perm
        exact ⟨file, done, perm⟩

theorem activeDel_eq (file : List α) (hash : α) :
    ∃ file', activeDel file hash = .ok file' ∧ file'.Perm (file.erase hash) :=
  activeDelLoop_eq [] file hash

/-! ## The last command -/

theorem lastAbout_append (c : Command α) :
    Office.lastAbout { o with told := o.told ++ [c] } hash =
      if c.affects hash then some c else o.lastAbout hash := by
  unfold Office.lastAbout
  rw [List.reverse_append, List.reverse_singleton, List.singleton_append, List.find?_cons]
  split <;> simp_all

theorem faithful_iff : o.Faithful ↔
    o.active.Nodup ∧ ∀ hash, hash ∈ o.active ↔ o.lastAbout hash = some (.start hash) := by
  unfold Office.Faithful
  rw [List.nodup_iff_count_le_one]
  exact ⟨fun faithful => ⟨fun hash => (faithful hash).2, fun hash => (faithful hash).1⟩,
    fun both hash => ⟨both.2 hash, both.1 hash⟩⟩

/-- A command that is answered, and the file that is right then. -/
theorem Office.Faithful.next {c : Command α} {file : List α} (faithful : o.Faithful)
    (nodup : file.Nodup)
    (mem : ∀ hash, hash ∈ file ↔ if c.affects hash then c = .start hash else hash ∈ o.active) :
    Office.Faithful { o with active := file, told := o.told ++ [c] } := by
  refine faithful_iff.mpr ⟨nodup, fun hash => (mem hash).trans ?_⟩
  have last : Office.lastAbout { o with active := file, told := o.told ++ [c] } hash = _ :=
    lastAbout_append (o := { o with active := file }) c
  rw [last]
  split
  · exact Option.some_inj.symm
  · exact ((faithful_iff.mp faithful).2 hash)

/-- A torrent is started that is not in the file. -/
theorem Office.Faithful.started (faithful : o.Faithful) (new : hash ∉ o.active) :
    Office.Faithful
      { o with active := activeAdd o.active hash, told := o.told ++ [.start hash] } := by
  refine faithful.next ?_ fun hash' => ?_
  · have added := (faithful_iff.mp faithful).1.concat new
    rw [List.concat_eq_append] at added
    exact added
  · unfold activeAdd
    by_cases here : hash = hash' <;> simp [Command.affects, here, eq_comm]

/-- A torrent is stopped, and its record is deleted. -/
theorem Office.Faithful.stopped {file : List α} (faithful : o.Faithful)
    (deleted : file.Perm (o.active.erase hash)) :
    Office.Faithful { o with active := file, told := o.told ++ [.stop hash] } := by
  have nodup := (faithful_iff.mp faithful).1
  refine faithful.next (deleted.nodup_iff.mpr (nodup.erase hash)) fun hash' => ?_
  rw [deleted.mem_iff, nodup.mem_erase_iff]
  by_cases here : hash = hash' <;> simp [Command.affects, here, eq_comm]

/-- All torrents are stopped. -/
theorem Office.Faithful.cleared (faithful : o.Faithful) :
    Office.Faithful { o with active := [], told := o.told ++ [.stopAll] } :=
  faithful.next List.nodup_nil fun hash => by simp [Command.affects]

/-- A torrent is deleted that is not in the file. -/
theorem Office.Faithful.deleted (faithful : o.Faithful) (new : hash ∉ o.active) :
    Office.Faithful { o with told := o.told ++ [.del hash] } := by
  refine faithful.next (faithful_iff.mp faithful).1 fun hash' => ?_
  by_cases here : hash = hash'
  · cases here
    simpa [Command.affects] using new
  · simp [Command.affects, here]

/-- A torrent is deleted that is in the file. -/
theorem not_faithful_deleted (recorded : hash ∈ o.active) :
    ¬Office.Faithful { o with told := o.told ++ [.del hash] } := by
  intro faithful
  have last := ((faithful hash).1).mp recorded
  rw [lastAbout_append] at last
  simp [Command.affects] at last

/-! ## Torrents that live -/

/-- An entry is found, or there is a fault. -/
theorem wp_entry {post : Totals.Tlib → Account → Prop} {callers : List Totals.Fn}
    (found : ∀ e, s.tl = some e → post e s) : Totals.entry.wp whenReturns callers post s := by
  unfold Totals.entry
  rw [wp_bind, wp_get]
  cases entry : s.tl with
  | none => exact wp_fault.mpr trivial
  | some e => exact wp_pure.mpr (found e entry)

theorem wp_torrent {post : Totals.Torrent → Account → Prop} {callers : List Totals.Fn}
    (found : ∀ t, s.tp = some t → post t s) : Totals.torrent.wp whenReturns callers post s := by
  unfold Totals.torrent
  rw [wp_bind, wp_get]
  cases torrent : s.tp with
  | none => exact wp_fault.mpr trivial
  | some t => exact wp_pure.mpr (found t torrent)

/-- What is asked of the torrent of an entry changes nothing. -/
theorem asks {idle : Bool} {c : Totals.Torrent → Prop} [DecidablePred c]
    {post : Bool → Account → Prop} {m : Totals.Routine Bool}
    (asked : m = do
      let e ← Totals.entry
      if e.tp = true then do
        let t ← Totals.torrent
        pure (decide (c t))
      else pure idle)
    (absent : ∀ e, s.tl = some e → e.tp = false → post idle s)
    (found : ∀ e t, s.tl = some e → e.tp = true → s.tp = some t → post (decide (c t)) s) :
    m.wp whenReturns [] post s := by
  rw [asked, wp_bind]
  refine wp_entry fun e entry => ?_
  split
  case isTrue points =>
    rw [wp_bind]
    exact wp_torrent fun t torrent => wp_pure.mpr (found e t entry points torrent)
  case isFalse free => exact wp_pure.mpr (absent e entry (Bool.not_eq_true _ ▸ free))

theorem torrentHaunting_wp : Totals.torrentHaunting.wp whenReturns []
    (fun haunting s' => s' = s ∧ ∀ e, s.tl = some e → haunting = s.haunting e) s := by
  refine asks rfl (fun e entry free => ⟨rfl, fun e' entry' => ?_⟩)
    fun e t entry points torrent => ⟨rfl, fun e' entry' => ?_⟩
  all_goals
    rw [entry] at entry'
    cases entry'
    unfold Account.haunting
  · rw [free]
    rfl
  · simp [points, torrent]

theorem torrentActive_wp :
    Totals.torrentActive.wp whenReturns [] (fun _ s' => s' = s ∧ True) s :=
  asks rfl (fun _ _ _ => ⟨rfl, trivial⟩) fun _ _ _ _ _ => ⟨rfl, trivial⟩

/-- A torrent that lives cannot be started. -/
theorem torrentStartable_wp : Totals.torrentStartable.wp whenReturns []
    (fun startable s' => s' = s ∧ (startable = true → ¬Live s)) s := by
  refine asks rfl (fun e entry free => ⟨rfl, fun _ live => ?_⟩)
    fun e t entry points torrent => ⟨rfl, fun startable live => ?_⟩
  · obtain ⟨tot, dir, t, tl, -⟩ := live
    rw [entry] at tl
    cases tl
    cases free
  · obtain ⟨tot, dir, t', -, tp, works, -⟩ := live
    rw [torrent] at tp
    cases tp
    exact works.ne_ghost (of_decide_eq_true startable).1

/-- A torrent that has been started lives. -/
theorem torrentStart_wp {st : Start} (works : st.cm.isSome = true) :
    (Totals.torrentStart st).wp whenReturns [] (fun started s' => started = true → Live s') s := by
  unfold Totals.torrentStart Totals.torrentCreate
  refine whenReturns_seq fun _ s' => ?_
  rw [wp_bind]
  refine wp_entry fun e entry => ?_
  split
  case isTrue loads =>
    unfold Totals.setTlib
    rw [wp_bind, wp_modify, wp_bind, wp_bind]
    refine wp_entry fun e entry => ?_
    rw [wp_modify, wp_pure]
    exact fun _ =>
      ⟨e.tot, e.dir, _, rfl, rfl, .inr (.inr rfl), Option.isNone_eq_false_iff.mpr works⟩
  case isFalse fails => exact wp_pure.mpr fun started => absurd started Bool.false_ne_true

/-- What a torrent that lives goes through as long as its content does not fail. -/
theorem live_changed {f : Totals.Torrent → Totals.Torrent} {tot : Bytes} {dir : Bool}
    {t : Totals.Torrent} {callers : List Totals.Fn} (tl : s.tl = some ⟨tot, true, dir⟩)
    (tp : s.tp = some t) (works : (f t).Works) (error : (f t).error = false) :
    (Totals.setTorrent f).wp whenReturns callers (fun _ s' => Live s') s := by
  rw [Totals.wp_setTorrent tp]
  exact ⟨tot, dir, f t, tl, rfl, works, error⟩

theorem ifTorrent_wp {m : Totals.Torrent → Totals.Routine Unit} {t : Totals.Torrent}
    {post : Account → Prop} (tp : s.tp = some t)
    (met : (m t).wp whenReturns [] (fun _ s' => post s') s) :
    (ifTorrent m).wp whenReturns [] (fun _ s' => post s') s := by
  unfold ifTorrent
  rw [wp_bind, wp_get, tp]
  exact wp_bind.mpr (wp_mono met fun _ _ held => wp_pure.mpr held)

theorem torrentOnTick_wp {k : Totals.Tick} (live : Live s) :
    (Totals.handle (.tick k)).wp whenReturns [] (fun _ s' => Live s') s := by
  obtain ⟨tot, dir, t, tl, tp, works, error⟩ := live
  refine ifTorrent_wp tp ?_
  unfold Totals.torrentOnTick
  rw [wp_bind, Totals.wp_torrent tp, wp_bind, wp_when,
    if_neg fun both => absurd both.2 (by rw [error]; decide)]
  unfold Totals.stateOnTick
  rw [wp_bind, Totals.wp_torrent tp]
  rcases works with leech | seed | starting
  · rw [leech]
    dsimp only
    rw [wp_when]
    split
    · exact live_changed tl tp (.inr (.inl rfl)) error
    · exact ⟨tot, dir, t, tl, tp, .inl leech, error⟩
  · rw [seed]
    exact wp_pure.mpr ⟨tot, dir, t, tl, tp, .inr (.inl seed), error⟩
  · rw [starting]
    dsimp only
    rw [wp_when]
    split
    · refine live_changed tl tp ?_ error
      cases k.full
      · exact .inl rfl
      · exact .inr (.inl rfl)
    · exact ⟨tot, dir, t, tl, tp, .inr (.inr starting), error⟩

theorem saveOnTick_wp (live : Live s) :
    (Totals.handle .save).wp whenReturns [] (fun _ s' => Live s') s := by
  obtain ⟨tot, dir, t, tl, tp, works, error⟩ := live
  refine ifTorrent_wp tp ?_
  unfold Totals.saveOnTick
  rw [wp_bind, Totals.wp_torrent tp, wp_when]
  split
  · unfold Totals.tlibUpdateInfo
    rw [wp_bind, Totals.wp_entry tl, wp_bind, wp_assert, if_pos rfl, wp_bind,
      Totals.wp_torrent tp, wp_bind, wp_when, if_neg (by decide)]
    exact wp_modify.mpr ⟨tot, dir, t, tl, tp, works, error⟩
  · exact ⟨tot, dir, t, tl, tp, works, error⟩

theorem transfer_wp {b : Bytes} (live : Live s) :
    (Totals.handle (.transfer b)).wp whenReturns [] (fun _ s' => Live s') s := by
  obtain ⟨tot, dir, t, tl, tp, works, error⟩ := live
  refine ifTorrent_wp tp ?_
  rw [wp_when]
  split
  · rw [wp_bind, Totals.wp_setTorrent tp, wp_modify]
    exact ⟨tot, dir, { t with net := t.net + b }, tl, rfl, works, error⟩
  · exact ⟨tot, dir, t, tl, tp, works, error⟩

theorem cmStarted_wp (live : Live s) :
    (Totals.handle .cmStarted).wp whenReturns [] (fun _ s' => Live s') s := by
  obtain ⟨tot, dir, t, tl, tp, works, error⟩ := live
  refine ifTorrent_wp tp ?_
  rw [wp_when]
  split
  · exact live_changed tl tp works error
  · exact ⟨tot, dir, t, tl, tp, works, error⟩

theorem trDone_wp (live : Live s) :
    (Totals.handle .trDone).wp whenReturns [] (fun _ s' => Live s') s := by
  obtain ⟨tot, dir, t, tl, tp, works, error⟩ := live
  exact ifTorrent_wp tp (live_changed tl tp works error)

/-- A torrent that lives is not added again. -/
theorem cmdAdd_wp (live : Live s) : Totals.cmdAdd.wp whenReturns [] (fun _ s' => Live s') s := by
  obtain ⟨tot, dir, t, tl, tp, works, error⟩ := live
  have haunting : ¬decide (t.delete = true ∧ t.state = .ghost) = true := fun haunts =>
    works.ne_ghost (of_decide_eq_true haunts).2
  unfold Totals.cmdAdd
  rw [wp_bind, wp_get, tl]
  dsimp only
  unfold Totals.torrentHaunting
  rw [wp_bind, wp_bind, Totals.wp_entry tl, if_pos rfl, wp_bind, Totals.wp_torrent tp, wp_pure,
    wp_when, if_neg haunting]
  exact ⟨tot, dir, t, tl, tp, works, error⟩

/-! ## What the commands keep -/

/-- The file is right, and its torrents live until the daemon is to end. -/
structure Office.Inv (o : Office α) : Prop where
  faithful : o.Faithful
  live : o.mShutdown = false → ∀ hash ∈ o.active, Live (o.account hash)

theorem put_same : o.put hash (o.account hash) = o := by
  unfold Office.put
  rw [Function.update_eq_self]

/-- Only the account of one info hash changes. -/
theorem Office.Inv.put (inv : o.Inv)
    (live : o.mShutdown = false → hash ∈ o.active → Live s) : (o.put hash s).Inv where
  faithful := inv.faithful
  live running hash' mem := by
    show Live (Function.update o.account hash s hash')
    by_cases here : hash' = hash
    · cases here
      rw [Function.update_self]
      exact live running mem
    · rw [Function.update_of_ne here]
      exact inv.live running hash' mem

theorem wp_forHash {m : Totals.Routine β} {post : β → Office α → Prop} {callers : List Empty}
    (met : m.wp whenReturns [] (fun b s => post b (o.put hash s)) (o.account hash)) :
    (forHash hash m).wp whenReturns callers post o :=
  wp_zoom (wp_unrecorded met)

/-- A routine that lets the torrents of the file live. -/
theorem forHash_keeps {m : Totals.Routine β} {callers : List Empty} (inv : o.Inv)
    (live : ∀ s, Live s → m.wp whenReturns [] (fun _ s' => Live s') s) :
    (forHash hash m).wp whenReturns callers (fun _ o' => o'.Inv) o := by
  refine wp_forHash (wp_whenReturns_iff.mpr fun b s' returned => inv.put fun running mem => ?_)
  exact wp_whenReturns_iff.mp (live _ (inv.live running hash mem)) b s' returned

/-- The torrent is not in the file, or the daemon is to end. -/
theorem forHash_free {m : Totals.Routine β} {callers : List Empty} (inv : o.Inv)
    (free : o.mShutdown = false → hash ∉ o.active) :
    (forHash hash m).wp whenReturns callers
      (fun _ o' => o'.Inv ∧ o'.active = o.active ∧ o'.mShutdown = o.mShutdown) o := by
  refine wp_forHash (wp_whenReturns_iff.mpr fun b s' _ => ⟨inv.put fun running mem => ?_, rfl, rfl⟩)
  exact absurd mem (free running)

/-- What is asked of a torrent changes nothing. -/
theorem forHash_asks {m : Totals.Routine Bool} {callers : List Empty}
    {post : Bool → Office α → Prop} {P : Bool → Prop}
    (asks : m.wp whenReturns [] (fun b s' => s' = o.account hash ∧ P b) (o.account hash))
    (met : ∀ b, P b → post b o) : (forHash hash m).wp whenReturns callers post o := by
  refine wp_forHash (wp_mono asks fun b s' both => ?_)
  rw [both.1, put_same]
  exact met b both.2

omit [DecidableEq α] in
theorem ifFound_wp {m : Routine α Unit} {callers : List Empty} {post : Office α → Prop}
    (none : (o.account hash).tl = none → post o)
    (found : ∀ e, (o.account hash).tl = some e → m.wp whenReturns callers (fun _ o' => post o') o) :
    (ifFound hash m).wp whenReturns callers (fun _ o' => post o') o := by
  unfold ifFound
  rw [wp_bind, wp_get, wp_when]
  cases entry : (o.account hash).tl with
  | none => exact none entry
  | some e => exact found e entry

/-- A torrent is started that does not live. -/
theorem tlStart_wp {st : Start} {callers : List Empty} (inv : o.Inv) (running : o.mShutdown = false)
    (dead : ¬Live (o.account hash)) (works : st.cm.isSome = true) :
    (tlStart hash st).wp whenReturns callers
      (fun _ o' => o'.Inv ∧ o'.mShutdown = false) o := by
  have new : hash ∉ o.active := fun mem => dead (inv.live running hash mem)
  unfold tlStart
  rw [wp_bind]
  refine wp_forHash (wp_mono (torrentStart_wp works) fun started s' live => ?_)
  rw [wp_bind, wp_when]
  split
  case isTrue starts =>
    unfold add tell
    rw [wp_bind, wp_modify, wp_modify, wp_pure]
    have recorded := inv.faithful.started new
    refine ⟨⟨recorded, fun _ hash' mem => ?_⟩, running⟩
    show Live (Function.update o.account hash s' hash')
    by_cases here : hash' = hash
    · cases here
      rw [Function.update_self]
      exact live starts
    · rw [Function.update_of_ne here]
      refine inv.live running hash' ((List.mem_append.1 mem).resolve_right fun last => here ?_)
      exact List.mem_singleton.1 last
  case isFalse => exact wp_pure.mpr ⟨inv.put fun _ mem => absurd mem new, running⟩

theorem cmdStart_wp {st : Start} (inv : o.Inv) (works : st.cm.isSome = true) :
    (cmdStart hash st).wp whenReturns [] (fun _ o' => o'.Inv) o := by
  unfold cmdStart
  rw [wp_bind, wp_get, wp_when]
  split
  case isTrue running =>
    refine ifFound_wp (fun _ => inv) fun e _ => ?_
    rw [wp_bind]
    refine forHash_asks torrentHaunting_wp fun haunting _ => ?_
    rw [wp_bind]
    refine forHash_asks torrentStartable_wp fun startable dead => ?_
    rw [wp_when]
    split
    case isTrue both =>
      exact wp_seq (tlStart_wp inv running (dead both.2) works) fun _ _ held => wp_pure.mpr held.1
    case isFalse => exact inv
  case isFalse => exact inv

theorem cmdStartAll_wp {entries : List (α × Start)} (inv : o.Inv)
    (works : ∀ x ∈ entries, x.2.cm.isSome = true) :
    (cmdStartAll entries).wp whenReturns [] (fun _ o' => o'.Inv) o := by
  unfold cmdStartAll
  rw [wp_bind, wp_get, wp_when]
  split
  case isFalse => exact inv
  case isTrue running =>
    refine wp_mono (wp_forEach_keeps (fun o' => o'.Inv ∧ o'.mShutdown = false)
      (fun x mem o' both => ?_) ⟨inv, running⟩) fun _ _ h => h.1
    obtain ⟨inv', running'⟩ := both
    refine ifFound_wp (fun _ => ⟨inv', running'⟩) fun e _ => ?_
    rw [wp_bind]
    refine forHash_asks torrentStartable_wp fun startable dead => ?_
    rw [wp_when]
    split
    case isFalse => exact ⟨inv', running'⟩
    case isTrue starts =>
      rw [wp_bind]
      refine wp_mono (tlStart_wp inv' running' (dead starts) (works x mem)) fun _ _ held => ?_
      rw [wp_assert]
      split
      · exact held
      · trivial

theorem cmdStop_wp {trStays closes : Bool} (inv : o.Inv) :
    (cmdStop hash trStays closes).wp whenReturns [] (fun _ o' => o'.Inv) o := by
  refine ifFound_wp (fun _ => inv) fun e _ => ?_
  rw [wp_bind]
  refine forHash_asks torrentHaunting_wp fun haunting _ => ?_
  rw [wp_bind]
  refine forHash_asks torrentActive_wp fun active _ => ?_
  rw [wp_when]
  split
  case isFalse => exact inv
  case isTrue =>
    obtain ⟨file, deleted, perm⟩ := activeDel_eq o.active hash
    have nodup := (faithful_iff.mp inv.faithful).1
    have inv' : Office.Inv { o with active := file, told := o.told ++ [.stop hash] } :=
      ⟨inv.faithful.stopped perm, fun running hash' mem =>
        inv.live running hash' (List.mem_of_mem_erase (perm.mem_iff.mp mem))⟩
    unfold tell del
    rw [wp_bind, wp_modify, wp_bind, wp_bind, wp_get]
    dsimp only
    rw [deleted, wp_modify]
    refine wp_mono (forHash_free inv' fun _ mem => ?_) fun _ _ h => h.1
    exact (nodup.mem_erase_iff.mp (perm.mem_iff.mp mem)).1 rfl

/-- The loop of stops, when the file is empty or the daemon is to end. -/
theorem stopAll_wp {stops : List (Stop α)} {callers : List Empty} (inv : o.Inv)
    (over' : o.active = [] ∨ o.mShutdown = true) :
    (stopAll stops).wp whenReturns callers (fun _ o' => o'.Inv) o := by
  refine wp_mono (wp_forEach_keeps
    (fun o' => o'.Inv ∧ (o'.active = [] ∨ o'.mShutdown = true)) (fun x _ o' both => ?_)
    ⟨inv, over'⟩) fun _ _ h => h.1
  have free : o'.mShutdown = false → x.hash ∉ o'.active := by
    rcases both.2 with empty | stopping
    · rw [empty]
      exact fun _ mem => nomatch mem
    · rw [stopping]
      exact fun running => nomatch running
  refine wp_mono (forHash_free both.1 free) fun _ o'' held => ⟨held.1, ?_⟩
  rw [held.2.1, held.2.2]
  exact both.2

theorem cmdStopAll_wp {stops : List (Stop α)} (inv : o.Inv) :
    (cmdStopAll stops).wp whenReturns [] (fun _ o' => o'.Inv) o := by
  unfold cmdStopAll tell activeClear
  rw [wp_bind, wp_modify, wp_bind, wp_modify]
  exact stopAll_wp ⟨inv.faithful.cleared, fun _ _ mem => nomatch mem⟩ (.inl rfl)

theorem die_wp {stops : List (Stop α)} (inv : o.Inv) :
    (handle (.die stops)).wp whenReturns [] (fun _ o' => o'.Inv) o := by
  unfold handle
  rw [wp_bind, wp_get, wp_when]
  split
  case isFalse => exact inv
  case isTrue =>
    unfold btpdShutdown
    rw [wp_bind, wp_modify]
    exact stopAll_wp ⟨inv.faithful, fun running => nomatch running⟩ (.inr rfl)

/-- A torrent is deleted that is not in the file. -/
theorem cmdDel_wp {trStays closes : Bool} (inv : o.Inv)
    (other : ¬Event.DeletesActive o (.del hash trStays closes)) :
    (cmdDel hash trStays closes).wp whenReturns [] (fun _ o' => o'.Inv) o := by
  refine ifFound_wp (fun _ => inv) fun e entry => ?_
  rw [wp_bind]
  refine forHash_asks torrentHaunting_wp fun haunting haunts => ?_
  rw [wp_when]
  split
  case isFalse => exact inv
  case isTrue quiet =>
    have new : hash ∉ o.active := fun mem =>
      other ⟨mem, e, entry, (haunts e entry).symm.trans quiet⟩
    unfold tell
    rw [wp_bind, wp_modify]
    exact wp_mono (forHash_free ⟨inv.faithful.deleted new, inv.live⟩ fun _ => new) fun _ _ h => h.1

/-- A torrent is deleted that is in the file. -/
theorem cmdDel_active {trStays closes : Bool}
    (deletes : Event.DeletesActive o (.del hash trStays closes)) :
    (cmdDel hash trStays closes).wp whenReturns [] (fun _ o' => ¬o'.Faithful) o := by
  obtain ⟨mem, e, entry, quiet⟩ := deletes
  refine ifFound_wp (fun absent => ?_) fun _ _ => ?_
  · rw [entry] at absent
    cases absent
  rw [wp_bind]
  refine forHash_asks torrentHaunting_wp fun haunting haunts => ?_
  rw [wp_when, if_pos ((haunts e entry).trans quiet)]
  unfold tell
  rw [wp_bind, wp_modify]
  exact wp_forHash (wp_whenReturns_iff.mpr fun _ _ _ => not_faithful_deleted mem)

/-! ## Runs -/

/-- The file operations work, and no torrent of the file is deleted. -/
def Event.Spares (o : Office α) (e : Event α) : Prop := e.Works ∧ ¬e.DeletesActive o

theorem handle_wp {e : Event α} (inv : o.Inv) (spares : e.Spares o) :
    (handle e).wp whenReturns [] (fun _ o' => o'.Inv) o := by
  obtain ⟨works, other⟩ := spares
  cases e with
  | add hash => exact forHash_keeps inv fun _ => cmdAdd_wp
  | del hash trStays closes => exact cmdDel_wp inv other
  | start hash st => exact cmdStart_wp inv works
  | startAll entries => exact cmdStartAll_wp inv works
  | stop hash trStays closes => exact cmdStop_wp inv
  | stopAll stops => exact cmdStopAll_wp inv
  | die stops => exact die_wp inv
  | tick hash k => exact forHash_keeps inv fun _ => torrentOnTick_wp
  | save hash => exact forHash_keeps inv fun _ => saveOnTick_wp
  | transfer hash b => exact forHash_keeps inv fun _ => transfer_wp
  | cmStarted hash => exact forHash_keeps inv fun _ => cmStarted_wp
  | cmError hash => exact works.elim
  | trDone hash => exact forHash_keeps inv fun _ => trDone_wp

theorem find_start {file : List α} :
    (file.map Command.start).find? (fun c => c.affects hash) =
      if hash ∈ file then some (.start hash) else none := by
  induction file with
  | nil => rfl
  | cons r file ih =>
      rw [List.map_cons, List.find?_cons, ih]
      by_cases here : r = hash
      · cases here
        simp [Command.affects]
      · have other : ¬hash = r := fun same => here same.symm
        simp [Command.affects, here, other]

theorem Office.Init.inv (init : o.Init) : o.Inv where
  faithful := by
    refine faithful_iff.mpr ⟨init.nodup, fun hash => ?_⟩
    unfold Office.lastAbout
    rw [init.told, ← List.map_reverse, find_start]
    simp
  live _ := init.live

/-- In a run in which no torrent of the file is deleted, the file names the torrents of which
the last command was to start them, each once; and it does not when one is deleted. -/
theorem faithful_of_within (within : office.Within (fun o e => Event.Spares o e) o) :
    o.Faithful ∧ ∀ hash trStays closes o',
      Event.DeletesActive o (.del hash trStays closes) →
      office.Steps (fun _ => False) o (.del hash trStays closes) o' → ¬o'.Faithful := by
  have inv : o.Inv := within.invariant Office.Inv (fun _ => Office.Init.inv)
    fun o e o' _ inv spares step => step.returned _ (handle_wp inv spares)
  exact ⟨inv.faithful, fun hash trStays closes o' deletes step =>
    step.returned (fun o' => ¬o'.Faithful) (cmdDel_active deletes)⟩

instance (e : Event α) : Decidable e.Works := by
  cases e <;> unfold Event.Works <;> infer_instance

instance (o : Office α) (e : Event α) : Decidable (e.DeletesActive o) := by
  cases e with
  | del hash trStays closes =>
      refine decidable_of_iff (hash ∈ o.active ∧
        ((o.account hash).tl.any fun e => !(o.account hash).haunting e) = true) ?_
      rw [Option.any_eq_true]
      simp only [Bool.not_eq_true', Event.DeletesActive]
  | _ => exact isFalse id

instance (o : Office α) (e : Event α) : Decidable (e.Spares o) :=
  inferInstanceAs (Decidable (_ ∧ _))

/-- A daemon without torrents. -/
def nothing : Office Nat where
  account _ := ⟨none, none, none, 0⟩
  active := []
  mShutdown := false
  told := []

/-- The daemon that starts with nothing. -/
theorem within_nothing (ok : Office Nat → Event Nat → Prop) : office.Within ok nothing :=
  .start {
    nodup := List.nodup_nil
    told := rfl
    live := fun _ mem => absurd mem List.not_mem_nil
    others := fun _ _ => rfl
    running := rfl }

/-- A torrent is started, and a second one is started, stopped and deleted. -/
def startsTwo : List (Event Nat) :=
  [.add 1, .add 2, .start 1 ⟨true, some .starting⟩, .start 2 ⟨true, some .active⟩,
    .stop 2 false true, .del 2 false true]

theorem faithful_of_within_startsTwo :
    ∃ o : Office Nat, o.active = [1] ∧ o.Faithful := by
  obtain ⟨o, within, active⟩ := System.Within.of_events
    (P := fun o : Office Nat => o.active = [1]) (within_nothing fun o e => e.Spares o) startsTwo
    (by decide +kernel)
  exact ⟨o, active, (faithful_of_within within).1⟩

/-- A torrent that is deleted stays in the file, and when it is added and started again, the
file names it twice. -/
theorem not_faithful :
    (¬∀ o : Office Nat, office.Within (fun _ e => e.Works) o → ∀ hash,
      (hash ∈ o.active ↔ o.lastAbout hash = some (.start hash))) ∧
    ¬∀ o : Office Nat, office.Within (fun _ e => e.Works) o → ∀ hash,
      o.active.count hash ≤ 1 := by
  constructor
  · intro claim
    obtain ⟨o, within, mem, last⟩ := System.Within.of_events
      (P := fun o : Office Nat => 1 ∈ o.active ∧ o.lastAbout 1 = some (.del 1))
      (within_nothing fun _ e => e.Works)
      [.add 1, .start 1 ⟨true, some .starting⟩, .del 1 false true] (by decide +kernel)
    have started := (claim o within 1).mp mem
    rw [last] at started
    cases started
  · intro claim
    obtain ⟨o, within, active⟩ := System.Within.of_events
      (P := fun o : Office Nat => o.active = [1, 1]) (within_nothing fun _ e => e.Works)
      [.add 1, .start 1 ⟨true, some .starting⟩, .del 1 false true, .add 1,
        .start 1 ⟨true, some .starting⟩] (by decide +kernel)
    have once := claim o within 1
    rw [active] at once
    exact absurd once (by decide)

end Btpd.Active
