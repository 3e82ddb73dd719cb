import Btpd.Totals.Entry

/-!
# Each byte is counted once

The total of an entry and the bytes of the session of its torrent are the bytes that were
moved for the entry, until the torrent becomes a ghost: then the session is part of the
total, and the ghost must not have one.
-/

namespace Btpd.Totals

open Prog
open Torrents (CmState TorrentState Start)

variable {s s' : Account} {t : Torrent} {e : Tlib} {b tot moved : Bytes} {dir : Bool}
  {info : Option Bytes}

/-- The promise of a run in which no bytes are miscounted; it may end in any fault. -/
def once : Contract Account Fn Fault := ⟨miscounted, fun _ => True⟩

variable {callers : List Fn}

/-! ## Bytes -/

theorem Bytes.le_refl (b : Bytes) : b ≤ b := ⟨Nat.le_refl _, Nat.le_refl _⟩

theorem Bytes.le_add (a b : Bytes) : a ≤ a + b := ⟨Nat.le_add_right .., Nat.le_add_right ..⟩

theorem Bytes.add_assoc (a b c : Bytes) : a + b + c = a + (b + c) := by
  have up : (a + b + c).up = (a + (b + c)).up := Nat.add_assoc ..
  have down : (a + b + c).down = (a + (b + c)).down := Nat.add_assoc ..
  cases a
  cases b
  cases c
  exact congrArg₂ Bytes.mk up down

/-! ## The states of an entry -/

/-- The torrent has not been stopped. -/
def Torrent.Works (t : Torrent) : Prop := t.state = .leech ∨ t.state = .seed ∨ t.state = .starting

theorem Torrent.Works.ne_ghost (works : t.Works) : t.state ≠ .ghost := by
  intro ghost
  unfold Works at works
  rw [ghost] at works
  rcases works with leech | seed | starting <;> contradiction

theorem Torrent.Works.ne_stopping (works : t.Works) : t.state ≠ .stopping := by
  intro stopping
  unfold Works at works
  rw [stopping] at works
  rcases works with leech | seed | starting <;> contradiction

/-- There is no entry; the entry has no torrent; its torrent works; its torrent is a ghost
without a session; or its torrent is a ghost and the entry is to be deleted. -/
inductive Account.Inv : Account → Prop
  | absent {moved : Bytes} {info : Option Bytes} : (∀ tot, info = some tot → moved = tot) →
      Inv ⟨none, none, info, moved⟩
  | idle {tot : Bytes} {dir : Bool} : Inv ⟨some ⟨tot, false, dir⟩, none, some tot, tot⟩
  | working {tot info : Bytes} {dir : Bool} {t : Torrent} : t.Works → t.linked = true →
      Inv ⟨some ⟨tot, true, dir⟩, some t, some info, tot + t.net⟩
  | ghost {tot : Bytes} {dir : Bool} {t : Torrent} : t.state = .ghost → t.delete = false →
      t.netActive = false → t.net = 0 → Inv ⟨some ⟨tot, true, dir⟩, some t, some tot, tot⟩
  | haunting {tot moved : Bytes} {dir : Bool} {info : Option Bytes} {t : Torrent} :
      t.state = .ghost → t.delete = true → t.netActive = false → (∀ tot, info = some tot → moved = tot) →
      Inv ⟨some ⟨tot, true, dir⟩, some t, info, moved⟩

/-- An event that moves no bytes. -/
def Kept (moved : Bytes) (s' : Account) : Prop := s'.Inv ∧ s'.moved = moved

/-! ## Routines -/

@[simp]
theorem wp_torrent {c : Contract Account Fn Fault} {post : Torrent → Account → Prop}
    (found : s.tp = some t) :
    torrent.wp c callers post s ↔ post t s := by
  unfold torrent
  rw [wp_bind, wp_get, found, wp_pure]

@[simp]
theorem wp_setTorrent {c : Contract Account Fn Fault} {post : Unit → Account → Prop}
    {f : Torrent → Torrent} (found : s.tp = some t) :
    (setTorrent f).wp c callers post s ↔ post () { s with tp := some (f t) } := by
  unfold setTorrent
  rw [wp_bind, wp_torrent found, wp_modify]

theorem wp_entry {c : Contract Account Fn Fault} {post : Tlib → Account → Prop}
    (found : s.tl = some e) :
    entry.wp c callers post s ↔ post e s := by
  unfold entry
  rw [wp_bind, wp_get, found, wp_pure]

theorem wp_setTlib {c : Contract Account Fn Fault} {post : Unit → Account → Prop}
    {f : Tlib → Tlib} (found : s.tl = some e) :
    (setTlib f).wp c callers post s ↔ post () { s with tl := some (f e) } := by
  unfold setTlib
  rw [wp_bind, wp_entry found, wp_modify]

/-- A torrent that is killed leaves its entry, or takes it along. -/
theorem torrentKill_wp {post : Unit → Account → Prop} (entry : s.tl = some e)
    (found : s.tp = some t)
    (left : t.delete = false → post () { s with tl := some { e with tp := false }, tp := none })
    (gone : t.delete = true → post () { s with tl := none, tp := none }) :
    torrentKill.wp once callers post s := by
  unfold torrentKill killEntry
  rw [wp_bind, wp_torrent found, wp_bind, wp_assert]
  split
  case isFalse => trivial
  rw [wp_bind, wp_bind, wp_assert]
  split
  case isFalse => trivial
  split
  case isTrue del =>
    unfold tlibKill
    rw [wp_bind, wp_entry entry, wp_modify, wp_modify]
    exact gone del
  case isFalse del =>
    rw [wp_setTlib entry, wp_modify]
    exact left (by simpa using del)

/-- A ghost is killed unless it waits for its trackers. -/
theorem ghostOnTick_wp (inv : s.Inv) (found : s.tp = some t) (state : t.state = .ghost) :
    ghostOnTick.wp once callers (fun _ s' => Kept s.moved s') s := by
  unfold ghostOnTick
  rw [wp_bind, wp_torrent found, wp_when]
  split
  case isFalse => exact ⟨inv, rfl⟩
  case isTrue =>
    cases inv with
    | absent => cases found
    | idle => cases found
    | working works _ =>
        cases found
        exact absurd state works.ne_ghost
    | ghost _ kept _ _ =>
        cases found
        refine torrentKill_wp rfl rfl (fun _ => ⟨.idle, rfl⟩) fun gone => ?_
        rw [kept] at gone
        contradiction
    | haunting _ gone _ saved =>
        cases found
        refine torrentKill_wp rfl rfl (fun kept => ?_) fun _ => ⟨.absent saved, rfl⟩
        rw [gone] at kept
        contradiction

/-- The end of a session: it becomes part of the total and is saved. -/
theorem becomeGhost_wp {info : Bytes} (off : t.netActive = false) :
    (do
      becomeGhost
      ghostOnTick).wp once callers (fun _ s' => Kept (tot + t.net) s')
      ⟨some ⟨tot, true, dir⟩, some t, some info, tot + t.net⟩ := by
  unfold becomeGhost
  rw [wp_bind, wp_call]
  by_cases double : t.net ≠ 0 ∧ t.trActive = true ∧ t.delete = false
  · exact .inl (.inl ⟨double.1, .inr ⟨rfl, double.2⟩⟩)
  right
  rw [wp_bind, wp_setTorrent rfl, wp_bind, wp_torrent rfl]
  unfold ghostEntry
  cases del : t.delete with
  | true =>
      rw [if_pos rfl]
      unfold tlibDel
      rw [wp_bind, wp_entry rfl, if_pos rfl, wp_bind, wp_torrent rfl, wp_bind, wp_assert,
        if_pos rfl, wp_modify]
      exact ghostOnTick_wp (.haunting rfl rfl off nofun) rfl rfl
  | false =>
      rw [if_neg Bool.false_ne_true]
      unfold tlibUpdateInfo saveInfo
      rw [wp_bind, wp_entry rfl, wp_bind, wp_assert, if_pos rfl, wp_bind, wp_torrent rfl, wp_bind,
        wp_when, if_pos rfl, wp_setTlib rfl, wp_modify]
      cases waits : t.trActive with
      | true =>
          have clean : t.net = 0 := by
            by_contra session
            exact double ⟨session, waits, del⟩
          refine ghostOnTick_wp (s := ⟨some ⟨tot + t.net, true, dir⟩, some _, some (tot + t.net),
            tot + t.net⟩) (.ghost rfl rfl off clean) rfl rfl
      | false =>
          unfold ghostOnTick
          rw [wp_bind, wp_torrent rfl, wp_when, if_pos rfl]
          exact torrentKill_wp rfl rfl (fun _ => ⟨.idle, rfl⟩) nofun

/-- A torrent is stopped. -/
theorem torrentStop_wp {delete trStays closes : Bool} (inv : s.Inv) (found : s.tp = some t)
    (works : t.Works) :
    (torrentStop delete trStays closes).wp once callers (fun _ s' => Kept s.moved s') s := by
  cases inv with
  | absent => cases found
  | idle => cases found
  | ghost state _ _ _ =>
      cases found
      exact absurd state works.ne_ghost
  | haunting state _ _ _ =>
      cases found
      exact absurd state works.ne_ghost
  | @working tot info dir _ works linked =>
  cases found
  unfold torrentStop
  have rest : ∀ t' : Torrent, t'.state = t.state → t'.net = t.net →
      (do
        let t ← torrent
        when (t.state = .leech ∨ t.state = .seed ∨ t.state = .starting) do
          setTorrent fun t => { t with state := .stopping }
          setTorrent fun t => t.stopped trStays closes
          let t ← torrent
          when (t.cm = .inactive) do
            becomeGhost
            ghostOnTick : Routine Unit).wp once callers (fun _ s' => Kept (tot + t.net) s')
        ⟨some ⟨tot, true, dir⟩, some t', some info, tot + t.net⟩ := by
    intro t' state net
    have works' : t'.state = .leech ∨ t'.state = .seed ∨ t'.state = .starting := by
      rw [state]
      exact works
    have closed : ({ t' with state := .stopping }.stopped trStays closes).cm = .inactive := rfl
    rw [wp_bind, wp_torrent rfl, wp_when, if_pos works', wp_bind, wp_setTorrent rfl, wp_bind,
      wp_setTorrent rfl, wp_bind, wp_torrent rfl, wp_when, if_pos closed, ← net]
    exact becomeGhost_wp (t := { t' with state := .stopping }.stopped trStays closes) rfl
  rw [wp_bind, wp_when]
  split
  · rw [wp_setTorrent rfl]
    exact rest _ rfl rfl
  · exact rest t rfl rfl

/-- A torrent that has been stopped may only be marked. -/
theorem torrentStop_stopped {delete trStays closes : Bool} {post : Unit → Account → Prop}
    (found : s.tp = some t) (stopped : ¬t.Works)
    (marked : post () (if delete = true then { s with tp := some { t with delete := true } } else s)) :
    (torrentStop delete trStays closes).wp once callers post s := by
  have rest : ¬(t.state = .leech ∨ t.state = .seed ∨ t.state = .starting) := stopped
  unfold torrentStop
  rw [wp_bind, wp_when]
  split
  case isTrue del =>
    rw [if_pos del] at marked
    rw [wp_setTorrent found, wp_bind, wp_torrent rfl, wp_when, if_neg rest]
    exact marked
  case isFalse del =>
    rw [if_neg del] at marked
    rw [wp_bind, wp_torrent found, wp_when, if_neg rest]
    exact marked

theorem stateOnTick_wp {k : Tick} (inv : s.Inv) (found : s.tp = some t) :
    (stateOnTick k).wp once callers (fun _ s' => Kept s.moved s') s := by
  unfold stateOnTick
  rw [wp_bind, wp_torrent found]
  cases inv with
  | absent => cases found
  | idle => cases found
  | ghost state kept off clean =>
      cases found
      rw [state]
      exact ghostOnTick_wp (.ghost state kept off clean) rfl state
  | haunting state gone off saved =>
      cases found
      rw [state]
      exact ghostOnTick_wp (.haunting state gone off saved) rfl state
  | @working tot info dir _ works linked =>
      cases found
      have same : Kept (tot + t.net) ⟨some ⟨tot, true, dir⟩, some t, some info, tot + t.net⟩ :=
        ⟨.working works linked, rfl⟩
      split
      case h_1 =>
        rw [wp_when]
        split
        case isTrue =>
          rw [wp_setTorrent rfl]
          refine ⟨.working ?_ linked, rfl⟩
          cases k.full with
          | true => exact .inr (.inl rfl)
          | false => exact .inl rfl
        case isFalse => exact same
      case h_2 =>
        rw [wp_when]
        split
        case isTrue =>
          rw [wp_setTorrent rfl]
          exact ⟨.working (.inr (.inl rfl)) linked, rfl⟩
        case isFalse => exact same
      case h_3 stopping => exact absurd stopping works.ne_stopping
      case h_4 ghost => exact absurd ghost works.ne_ghost
      case h_5 => exact wp_pure.mpr same

/-- The torrent is stopped when its content has failed; then it may be gone. -/
theorem torrentOnTick_wp {k : Tick} (inv : s.Inv) (found : s.tp = some t) :
    (torrentOnTick k).wp once callers (fun _ s' => Kept s.moved s') s := by
  have rest : ∀ s', Kept s.moved s' →
      (stateOnTick k).wp once callers (fun _ s'' => Kept s.moved s'') s' := by
    rintro s' ⟨inv', same⟩
    rw [← same]
    cases tp : s'.tp with
    | some t' => exact stateOnTick_wp inv' tp
    | none =>
        unfold stateOnTick torrent
        rw [wp_bind, wp_bind, wp_get, tp, wp_fault]
        trivial
  unfold torrentOnTick
  rw [wp_bind, wp_torrent found, wp_bind, wp_when]
  split
  case isFalse => exact rest s ⟨inv, rfl⟩
  case isTrue failed =>
    by_cases works : t.Works
    · exact wp_mono (torrentStop_wp inv found works) fun _ => rest
    · exact torrentStop_stopped found works (rest s ⟨inv, rfl⟩)

theorem saveOnTick_wp (inv : s.Inv) (found : s.tp = some t) :
    saveOnTick.wp once callers (fun _ s' => Kept s.moved s') s := by
  unfold saveOnTick
  rw [wp_bind, wp_torrent found, wp_when]
  split
  case isFalse => exact ⟨inv, rfl⟩
  case isTrue runs =>
    cases inv with
    | absent => cases found
    | idle => cases found
    | ghost state _ _ _ =>
        cases found
        rw [state] at runs
        rcases runs with leech | seed <;> contradiction
    | haunting state _ _ _ =>
        cases found
        rw [state] at runs
        rcases runs with leech | seed <;> contradiction
    | working works linked =>
        cases found
        unfold tlibUpdateInfo saveInfo
        rw [wp_bind, wp_entry rfl, wp_bind, wp_assert, if_pos rfl, wp_bind, wp_torrent rfl, wp_bind,
          wp_when, if_neg (by decide), wp_modify]
        exact ⟨.working works linked, rfl⟩

/-! ## Commands -/

/-- What an event leaves: it moves no bytes, or it is a new entry, or the torrent that works
has moved some. -/
structure Next (s s' : Account) : Prop where
  inv : s'.Inv
  moved : s.reported = none ∨ s'.moved = s.moved ∨
    s.moved ≤ s'.moved ∧ ∃ t, s'.tp = some t ∧ t.Works

theorem Kept.next (kept : Kept s.moved s') : Next s s' := ⟨kept.1, .inr (.inl kept.2)⟩

theorem Account.Inv.next (inv : s.Inv) : Next s s := Kept.next ⟨inv, rfl⟩

theorem cmdAdd_wp (inv : s.Inv) : cmdAdd.wp once [] (fun _ s' => Next s s') s := by
  unfold cmdAdd
  rw [wp_bind, wp_get]
  cases inv with
  | absent =>
      unfold tlibAdd saveInfo
      rw [wp_bind, wp_get, wp_bind, wp_assert]
      split
      case isFalse => trivial
      rw [wp_bind, wp_modify, wp_modify]
      exact ⟨.idle, .inl rfl⟩
  | idle =>
      unfold torrentHaunting
      rw [wp_bind, wp_bind, wp_entry rfl, if_neg Bool.false_ne_true, wp_pure, wp_when,
        if_neg Bool.false_ne_true]
      exact Account.Inv.idle.next
  | @working tot info dir t works linked =>
      unfold torrentHaunting
      rw [wp_bind, wp_bind, wp_entry rfl, if_pos rfl, wp_bind, wp_torrent rfl, wp_pure, wp_when,
        if_neg (by simp [works.ne_ghost])]
      exact (Account.Inv.working works linked).next
  | @ghost tot dir t state kept off clean =>
      unfold torrentHaunting
      rw [wp_bind, wp_bind, wp_entry rfl, if_pos rfl, wp_bind, wp_torrent rfl, wp_pure, wp_when,
        if_neg (by simp [kept])]
      exact (Account.Inv.ghost state kept off clean).next
  | @haunting tot moved dir info t state gone off saved =>
      unfold torrentHaunting
      rw [wp_bind, wp_bind, wp_entry rfl, if_pos rfl, wp_bind, wp_torrent rfl, wp_pure, wp_when,
        if_pos (by simp [gone, state])]
      unfold tlibReadd
      rw [wp_call]
      by_cases session : t.net = 0
      case neg => exact .inl (.inl ⟨session, .inl rfl⟩)
      right
      unfold tlibKill tlibAdd saveInfo
      rw [wp_bind, wp_entry rfl, wp_bind, wp_assert, if_pos rfl, wp_bind, wp_setTorrent rfl, wp_bind,
        wp_bind, wp_entry rfl, wp_modify, wp_bind, wp_setTorrent rfl, wp_bind, wp_bind, wp_get,
        wp_bind, wp_assert]
      split
      case isFalse => trivial
      rw [wp_bind, wp_modify, wp_modify, wp_setTlib rfl]
      refine ⟨.ghost state rfl off session, .inl ?_⟩
      unfold Account.reported Account.haunting
      simp [gone, state]

/-- The entry of a torrent that works, or one whose torrent need not be stopped. -/
theorem cmdDel_wp {trStays closes : Bool} (inv : s.Inv) (entry : s.tl.isSome = true) :
    (cmdDel trStays closes).wp once [] (fun _ s' => Next s s') s := by
  unfold cmdDel torrentHaunting
  cases inv with
  | absent => contradiction
  | @idle tot dir =>
      unfold tlibDel tlibKill
      rw [wp_bind, wp_bind, wp_entry rfl, if_neg Bool.false_ne_true, wp_pure, wp_when, if_pos rfl,
        wp_bind, wp_entry rfl, if_neg Bool.false_ne_true, wp_bind, wp_entry rfl,
        if_neg Bool.false_ne_true, wp_bind, wp_modify, wp_bind, wp_entry rfl, wp_modify]
      exact Kept.next ⟨.absent nofun, rfl⟩
  | @working tot info dir t works linked =>
      rw [wp_bind, wp_bind, wp_entry rfl, if_pos rfl, wp_bind, wp_torrent rfl, wp_pure, wp_when,
        if_pos (by simp [works.ne_ghost]), wp_bind, wp_entry rfl, if_pos rfl]
      exact wp_mono (torrentStop_wp (.working works linked) rfl works) fun _ _ => Kept.next
  | @ghost tot dir t state kept off clean =>
      rw [wp_bind, wp_bind, wp_entry rfl, if_pos rfl, wp_bind, wp_torrent rfl, wp_pure, wp_when,
        if_pos (by simp [kept]), wp_bind, wp_entry rfl, if_pos rfl]
      have marked :
          Kept tot ⟨some ⟨tot, true, dir⟩, some { t with delete := true }, some tot, tot⟩ :=
        ⟨.haunting state rfl off fun _ same => Option.some.inj same, rfl⟩
      exact torrentStop_stopped rfl (fun works => works.ne_ghost state) marked.next
  | @haunting tot moved dir info t state gone off saved =>
      rw [wp_bind, wp_bind, wp_entry rfl, if_pos rfl, wp_bind, wp_torrent rfl, wp_pure, wp_when,
        if_neg (by simp [gone, state])]
      exact (Account.Inv.haunting state gone off saved).next

/-- An entry without a torrent may get a new one. -/
theorem torrentCreate_wp {st : Start} :
    (torrentCreate st).wp once callers (fun _ s' => Kept tot s')
      ⟨some ⟨tot, false, dir⟩, none, some tot, tot⟩ := by
  unfold torrentCreate
  rw [wp_bind, wp_entry rfl]
  split
  · rw [wp_bind, wp_modify, wp_bind, wp_setTlib rfl, wp_pure]
    exact ⟨.working (.inr (.inr rfl)) rfl, rfl⟩
  · rw [wp_pure]
    exact ⟨.idle, rfl⟩

theorem torrentStart_wp {st : Start} (inv : s.Inv) (entry : s.tl = some e)
    (startable : ∀ t, s.tp = some t → t.state = .ghost ∧ t.delete = false) :
    (torrentStart st).wp once callers (fun _ s' => Kept s.moved s') s := by
  unfold torrentStart ghostKill
  cases inv with
  | absent => cases entry
  | @idle tot =>
      rw [wp_bind, wp_bind, wp_entry rfl, wp_when, if_neg Bool.false_ne_true]
      exact torrentCreate_wp
  | working works _ => exact absurd (startable _ rfl).1 works.ne_ghost
  | haunting _ gone _ _ =>
      have kept := (startable _ rfl).2
      rw [gone] at kept
      contradiction
  | @ghost tot dir t state kept off clean =>
      unfold torrentStartable
      rw [wp_bind, wp_bind, wp_entry rfl, wp_when, if_pos rfl, wp_bind, wp_bind, wp_entry rfl,
        if_pos rfl, wp_bind, wp_torrent rfl, wp_pure, wp_bind, wp_assert, if_pos (by simp [state, kept]),
        wp_bind]
      refine torrentKill_wp rfl rfl (fun _ => ?_) fun gone => ?_
      · rw [wp_setTlib rfl]
        exact torrentCreate_wp
      · rw [kept] at gone
        contradiction

theorem cmdStart_wp {st : Start} (inv : s.Inv) (entry : s.tl = some e) :
    (cmdStart st).wp once [] (fun _ s' => Next s s') s := by
  have start : (∀ t, s.tp = some t → t.state = .ghost ∧ t.delete = false) →
      (do let _ ← torrentStart st : Routine Unit).wp once [] (fun _ s' => Next s s') s :=
    fun startable => wp_seq (torrentStart_wp inv entry startable) fun _ _ kept =>
      wp_pure.mpr kept.next
  unfold cmdStart torrentStartable
  rw [wp_bind, wp_bind, wp_entry entry]
  split
  case isTrue =>
    cases found : s.tp with
    | none =>
        unfold torrent
        rw [wp_bind, wp_bind, wp_get, found, wp_fault]
        trivial
    | some t =>
        rw [wp_bind, wp_torrent found, wp_pure, wp_when]
        split
        case isTrue startable =>
          refine start fun t' found' => ?_
          rw [found] at found'
          cases found'
          simpa using startable
        case isFalse => exact inv.next
  case isFalse free =>
    rw [wp_pure, wp_when, if_pos rfl]
    refine start fun t found => ?_
    cases inv with
    | absent => cases found
    | idle => cases found
    | working _ _ =>
        cases entry
        exact absurd rfl free
    | ghost _ _ _ _ =>
        cases entry
        exact absurd rfl free
    | haunting _ _ _ _ =>
        cases entry
        exact absurd rfl free

theorem cmdStop_wp {trStays closes : Bool} (inv : s.Inv) (entry : s.tl = some e) :
    (cmdStop trStays closes).wp once [] (fun _ s' => Next s s') s := by
  unfold cmdStop torrentActive
  rw [wp_bind, wp_bind, wp_entry entry]
  split
  case isFalse =>
    rw [wp_pure, wp_when, if_neg Bool.false_ne_true]
    exact inv.next
  case isTrue =>
    cases found : s.tp with
    | none =>
        unfold torrent
        rw [wp_bind, wp_bind, wp_get, found, wp_fault]
        trivial
    | some t =>
        rw [wp_bind, wp_torrent found, wp_pure, wp_when]
        split
        case isFalse => exact inv.next
        case isTrue =>
          by_cases works : t.Works
          · exact wp_mono (torrentStop_wp inv found works) fun _ _ => Kept.next
          · exact torrentStop_stopped found works inv.next

/-! ## Runs -/

/-- A change of the torrent that leaves the session and the life of the torrent. -/
theorem Account.Inv.changed {f : Torrent → Torrent} (inv : s.Inv) (found : s.tp = some t)
    (state : (f t).state = t.state) (delete : (f t).delete = t.delete)
    (off : t.netActive = false → (f t).netActive = false) (net : (f t).net = t.net)
    (linked : (f t).linked = t.linked) : Kept s.moved { s with tp := some (f t) } := by
  cases inv with
  | absent => cases found
  | idle => cases found
  | @working tot info dir _ works isLinked =>
      cases found
      have sum : tot + (f t).net = tot + t.net := by rw [net]
      have moved : (⟨some ⟨tot, true, dir⟩, some (f t), some info, tot + (f t).net⟩ : Account).Inv := by
        refine .working ?_ (linked.trans isLinked)
        unfold Torrent.Works
        rw [state]
        exact works
      rw [sum] at moved
      exact ⟨moved, rfl⟩
  | ghost isGhost kept isOff clean =>
      cases found
      exact ⟨.ghost (state.trans isGhost) (delete.trans kept) (off isOff) (net.trans clean), rfl⟩
  | haunting isGhost gone isOff saved =>
      cases found
      exact ⟨.haunting (state.trans isGhost) (delete.trans gone) (off isOff) saved, rfl⟩

/-- A routine for the torrent. -/
theorem ifTorrent_wp {m : Torrent → Routine Unit} {post : Account → Prop}
    (idle : s.tp = none → post s)
    (found : ∀ t, s.tp = some t → (m t).wp once [] (fun _ s' => post s') s) :
    (ifTorrent m).wp once [] (fun _ s' => post s') s := by
  unfold ifTorrent
  rw [wp_bind, wp_get]
  cases tp : s.tp with
  | none => exact wp_pure.mpr (idle tp)
  | some t => exact wp_seq (found t tp) fun _ _ held => wp_pure.mpr held

/-- A routine for the entry. -/
theorem ifEntry_wp {m : Routine Unit} (inv : s.Inv)
    (found : ∀ e, s.tl = some e → m.wp once [] (fun _ s' => Next s s') s) :
    (ifEntry m).wp once [] (fun _ s' => Next s s') s := by
  unfold ifEntry
  rw [wp_bind, wp_get, wp_when]
  split
  case isFalse => exact inv.next
  case isTrue isSome =>
    rcases Option.isSome_iff_exists.mp isSome with ⟨e, entry⟩
    exact found e entry

theorem transfer_wp (inv : s.Inv) (found : s.tp = some t) (on : t.netActive = true) :
    (do
      setTorrent fun t => { t with net := t.net + b }
      modify fun s => { s with moved := s.moved + b }).wp once [] (fun _ s' => Next s s') s := by
  rw [wp_bind, wp_setTorrent found, wp_modify]
  cases inv with
  | absent => cases found
  | idle => cases found
  | @working tot info dir _ works linked =>
      cases found
      have sum : tot + t.net + b = tot + (t.net + b) := Bytes.add_assoc ..
      have moved : (⟨some ⟨tot, true, dir⟩, some { t with net := t.net + b }, some info,
        tot + (t.net + b)⟩ : Account).Inv := .working works linked
      rw [← sum] at moved
      exact ⟨moved, .inr (.inr ⟨Bytes.le_add .., _, rfl, works⟩)⟩
  | ghost _ _ off _ =>
      cases found
      rw [off] at on
      contradiction
  | haunting _ _ off _ =>
      cases found
      rw [off] at on
      contradiction

/-- When the daemon exits, all bytes are in the info file. -/
theorem Account.Inv.rests (inv : s.Inv) (ghosts : s.onlyGhosts = true) :
    ∀ tot, s.info = some tot → s.moved = tot := by
  cases inv with
  | absent saved => exact saved
  | idle => exact fun tot same => Option.some.inj same
  | working works _ =>
      unfold Account.onlyGhosts at ghosts
      exact absurd (by simpa using ghosts) works.ne_ghost
  | ghost _ _ _ _ => exact fun tot same => Option.some.inj same
  | haunting _ _ _ saved => exact saved

/-- An info file that is accepted, or that holds no bytes, gives the entry its total. -/
theorem inv_loaded {valid : Bool} (saved : ∀ tot, info = some tot → moved = tot)
    (read : valid = true ∨ info.getD 0 = 0) :
    Account.Inv ⟨info.map (.loaded valid), none, info, moved⟩ := by
  cases info with
  | none => exact .absent nofun
  | some tot =>
      have eq := saved tot rfl
      subst eq
      cases valid with
      | true => exact .idle
      | false =>
          rcases read with accepted | zero
          · contradiction
          · have eq : moved = 0 := zero
            subst eq
            exact .idle

/-- The daemon is started again. -/
theorem restart_wp {valid : Bool} (inv : s.Inv) :
    (handle (.restart valid)).wp once [] (fun _ s' => Next s s') s := by
  unfold handle tlibInit
  rw [wp_bind, wp_get, wp_when]
  split
  case isFalse => exact inv.next
  case isTrue ghosts =>
    rw [wp_call]
    by_cases read : valid = true ∨ s.info.getD 0 = 0
    · right
      rw [wp_modify]
      exact Kept.next ⟨inv_loaded (inv.rests ghosts) read, rfl⟩
    · rcases not_or.mp read with ⟨refused, bytes⟩
      rw [Bool.not_eq_true] at refused
      subst refused
      exact .inl (.inr ⟨rfl, bytes⟩)

theorem handle_wp (inv : s.Inv) (event : Event) :
    (handle event).wp once [] (fun _ s' => Next s s') s := by
  have kept : ∀ {m : Torrent → Routine Unit},
      (∀ t, s.tp = some t → (m t).wp once [] (fun _ s' => Kept s.moved s') s) →
      (ifTorrent m).wp once [] (fun _ s' => Next s s') s := fun each =>
    ifTorrent_wp (fun _ => inv.next) fun t found => wp_mono (each t found) fun _ _ => Kept.next
  cases event with
  | add => exact cmdAdd_wp inv
  | del trStays closes =>
      exact ifEntry_wp inv fun e entry => cmdDel_wp inv (Option.isSome_iff_exists.mpr ⟨e, entry⟩)
  | start st => exact ifEntry_wp inv fun e entry => cmdStart_wp inv entry
  | stop trStays closes => exact ifEntry_wp inv fun e entry => cmdStop_wp inv entry
  | tick k => exact kept fun t found => torrentOnTick_wp inv found
  | save => exact kept fun t found => saveOnTick_wp inv found
  | transfer b =>
      refine ifTorrent_wp (fun _ => inv.next) fun t found => ?_
      rw [wp_when]
      split
      case isTrue on => exact transfer_wp inv found on
      case isFalse => exact inv.next
  | cmStarted =>
      refine kept fun t found => ?_
      rw [wp_when]
      split
      · rw [wp_setTorrent found]
        exact inv.changed (f := fun t => { t with cm := .active }) found rfl rfl (fun off => off)
          rfl rfl
      · exact ⟨inv, rfl⟩
  | cmError =>
      refine kept fun t found => ?_
      rw [wp_when]
      split
      · rw [wp_setTorrent found]
        exact inv.changed (f := fun t => { t with cm := .inactive, error := true }) found rfl rfl
          (fun off => off) rfl rfl
      · exact ⟨inv, rfl⟩
  | trDone =>
      refine kept fun t found => ?_
      rw [wp_setTorrent found]
      exact inv.changed (f := fun t => { t with trActive := false }) found rfl rfl (fun off => off)
        rfl rfl
  | restart valid => exact restart_wp inv

theorem inv_of_init (init : s.Init) : s.Inv := by
  rcases s with ⟨tl, tp, info, moved⟩
  rcases init with ⟨tp', tl', saved⟩
  cases tp'
  cases info with
  | none =>
      cases tl'
      exact .absent nofun
  | some tot =>
      cases tl'
      have eq : moved = tot := saved tot rfl
      subst eq
      exact .idle

theorem inv_of_reachable (reached : account.Reachable miscounted s) : s.Inv :=
  reached.invariant _ (fun _ => True) (fun _ => inv_of_init) fun _ event _ inv =>
    wp_mono (handle_wp inv event) fun _ _ next => next.inv

/-- What is reported is what was moved. -/
theorem Account.Inv.reported_eq (inv : s.Inv) (reported : s.reported = some b) : b = s.moved := by
  cases inv with
  | absent => contradiction
  | idle =>
      cases reported
      rfl
  | @working tot info dir t works _ =>
      have shown : (decide (t.state = .ghost)) = false := decide_eq_false works.ne_ghost
      unfold Account.reported Account.haunting at reported
      simp only [Option.filter_some, Option.any_some, shown, Bool.and_false, Bool.not_false,
        if_true, Option.map_some, Option.some.injEq] at reported
      exact reported.symm
  | @ghost tot dir t state kept off clean =>
      unfold Account.reported Account.haunting Account.writeAns at reported
      simp only [Option.filter_some, Option.any_some, kept, Bool.false_and, Bool.and_false,
        Bool.not_false, if_true, Option.map_some, Option.getD_some, clean,
        Option.some.injEq] at reported
      exact reported.symm
  | @haunting tot moved dir info t state gone off _ =>
      unfold Account.reported Account.haunting at reported
      simp [gone, state] at reported

/-- The torrent of the entry runs. -/
def Account.active (s : Account) : Prop := ∃ t, s.tp = some t ∧ t.state ≠ .ghost

/-- What is saved when the torrent does not run is what is reported. -/
theorem Account.Inv.saved (inv : s.Inv) (reported : s.reported = some b) (rests : ¬s.active) :
    s.info = some b := by
  have eq := inv.reported_eq reported
  subst eq
  cases inv with
  | absent => contradiction
  | idle => rfl
  | working works _ => exact absurd ⟨_, rfl, works.ne_ghost⟩ rests
  | ghost _ _ _ _ => rfl
  | @haunting tot moved dir info t state gone off _ =>
      unfold Account.reported Account.haunting at reported
      simp [gone, state] at reported

/-- In every run in which no session would be counted twice and no info file with bytes in it
is refused: what is reported for the entry
is what was moved for it, what was persisted and the session together; it never decreases;
and when the torrent stops, what is saved is what was reported before. -/
theorem reported_of_reachable (reached : account.Reachable miscounted s) :
    (∀ b, s.reported = some b → b = s.moved) ∧
      ∀ event s', account.Steps miscounted s event s' → ∀ b b', s.reported = some b →
        s'.reported = some b' → b ≤ b' ∧ (s.active → ¬s'.active → s'.info = some b) := by
  have inv := inv_of_reachable reached
  refine ⟨fun b => inv.reported_eq, fun event s' steps b b' reported reported' => ?_⟩
  have next := steps.of_wp (handle_wp inv event)
  have eq := inv.reported_eq reported
  have eq' := next.inv.reported_eq reported'
  subst eq eq'
  rcases next.moved with none | same | ⟨more, t, found, works⟩
  · rw [none] at reported
    contradiction
  · refine ⟨?_, fun _ rests => ?_⟩
    · rw [same]
      exact Bytes.le_refl _
    · rw [← same]
      exact next.inv.saved reported' rests
  · exact ⟨more, fun _ rests => absurd ⟨t, found, works.ne_ghost⟩ rests⟩

/-- An info hash without an entry. -/
def Account.empty : Account := ⟨none, none, none, 0⟩

theorem reachable_empty (bad : Call Account Fn → Prop) : account.Reachable bad .empty :=
  .start ⟨rfl, rfl, nofun⟩

/-- A tick of a torrent that leeches and asks its trackers. -/
def Tick.leeches : Tick := ⟨false, true, true, true⟩

/-- A torrent is added and started, and sends and receives. -/
def session : List Event :=
  [.add, .start ⟨true, some .starting⟩, .cmStarted, .tick .leeches, .transfer ⟨3, 5⟩, .save]

/-- Its trackers give up before the torrent is stopped, and the daemon is started again. -/
theorem reported_of_reachable_stopped :
    ∃ s, account.Reachable miscounted s ∧ s.reported = some ⟨3, 5⟩ ∧ s.moved = ⟨3, 5⟩ := by
  obtain ⟨s, reached, reported⟩ := System.Reachable.of_after
    (P := fun s => s.reported = some ⟨3, 5⟩) (session ++ [.trDone, .stop true true, .restart true])
    (reachable_empty miscounted) (by decide +kernel)
  exact ⟨s, reached, reported, ((reported_of_reachable reached).1 _ reported).symm⟩

/-- The torrent is stopped while its trackers are to be told, and the bytes of its session are
counted in the total and once more as those of the ghost. -/
theorem not_reported_of_reachable :
    ¬∀ s, account.Reachable (fun _ => False) s →
      (∀ b, s.reported = some b → b = s.moved) ∧
        ∀ event s', account.Steps (fun _ => False) s event s' → ∀ b b', s.reported = some b →
          s'.reported = some b' → b ≤ b' ∧ (s.active → ¬s'.active → s'.info = some b) := by
  intro all
  obtain ⟨s, reached, reported, moved⟩ := System.Reachable.of_after
    (P := fun s => s.reported = some ⟨6, 10⟩ ∧ s.moved = ⟨3, 5⟩) (session ++ [.stop true true])
    (reachable_empty fun _ => False) (by decide +kernel)
  have eq := (all s reached).1 _ reported
  rw [moved] at eq
  contradiction

end Btpd.Totals
