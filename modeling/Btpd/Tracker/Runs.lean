import Btpd.Tracker.Outstanding

/-!
# Results and runs

What a result of a request does to its tier, and what every run keeps.
-/

namespace Btpd.Tracker

open Prog

variable {n : Nat} {s s' : Trackers n} {i j : Fin n} {id : Nat} {held : Option Nat} {c : Nat}
  {random : Nat} {treq : HttptrReq n}

/-! ## Results -/

/-- An active tier whose request has come to its end. -/
structure Tier.Answered (t : Tier) (c : Nat) : Prop where
  active : t.active = true
  usable : t.Usable
  req : t.req = none
  timer : t.timer = none
  cur : t.cur = some c

/-- A tier that waits for its timer after a result. -/
theorem Tier.settled_of_timer {t : Tier} (active : t.active = true) (usable : t.Usable)
    (req : t.req = none) (timer : t.timer.isSome = true) : t.Settled := by
  refine Tier.settled_of_waits active usable ?_
  rw [req, timer]
  simp

/-- A tier that was given up after a result. -/
theorem Tier.settled_of_idle {t : Tier} (idle : t.active = false) (req : t.req = none)
    (timer : t.timer = none) : t.Settled where
  usable := fun active => by
    rw [idle] at active
    contradiction
  waits := fun active => by
    rw [idle] at active
    contradiction
  idle := fun _ => ⟨req, timer⟩

theorem Tier.nextNonfailed_mem {t : Tier} {e : Nat} (next : t.nextNonfailed c = some e) :
    e ∈ t.trackers := by
  have mem := List.mem_of_find?_eq_some next
  exact (List.dropWhile_sublist _).subset (List.mem_of_mem_drop mem)

theorem outOfEntries_wp (loose : s.Loose held i) (answered : (s.tiers i).Answered c) :
    (outOfEntries i random).wp strict [] (fun _ s' => s'.Whole held ∧ Only i s s') s := by
  have sane := loose.parts.sane i
  unfold outOfEntries
  rw [wp_bind, wp_setTier]
  have loose₁ : (s.setTier i fun t => { t with badConns := t.badConns + 1 }).Loose held i :=
    loose.setTier ⟨sane.filled, sane.cur⟩ (fun isSome => isSome) rfl
  have answered₁ :
      ((s.setTier i fun t => { t with badConns := t.badConns + 1 }).tiers i).Answered c := by
    rw [setTier_self]
    exact ⟨answered.active, answered.usable, answered.req, answered.timer, answered.cur⟩
  have only₁ : Only i s (s.setTier i fun t => { t with badConns := t.badConns + 1 }) := .setTier
  generalize (s.setTier i fun t => { t with badConns := t.badConns + 1 }) = s₁ at *
  have sane₁ := loose₁.parts.sane i
  rw [wp_bind, wp_getTier]
  split
  · rw [wp_setTier]
    refine ⟨(loose₁.setTier ⟨sane₁.filled, sane₁.cur⟩ (fun isSome => isSome) rfl).whole ?_,
      only₁.trans .setTier⟩
    rw [setTier_self]
    exact Tier.settled_of_idle rfl answered₁.req answered₁.timer
  split
  · rcases Tier.head_mem sane₁ with ⟨e, head, mem⟩
    rw [head]
    refine wp_mono (entrySend_wp loose₁ answered₁.active answered₁.usable mem) ?_
    rintro - s' ⟨whole', only⟩
    exact ⟨whole', only₁.trans only⟩
  -- The timer for a retry is set.
  split
  all_goals
    rw [wp_setTier]
    refine ⟨(loose₁.setTier ⟨sane₁.filled, sane₁.cur⟩ (fun isSome => isSome) rfl).whole ?_,
      only₁.trans .setTier⟩
    rw [setTier_self]
    exact Tier.settled_of_timer answered₁.active answered₁.usable answered₁.req rfl

theorem resConn_wp (loose : s.Loose held i) (answered : (s.tiers i).Answered c) :
    (resConn i c random).wp strict [] (fun _ s' => s'.Whole held ∧ Only i s s') s := by
  unfold resConn
  rw [wp_bind, wp_getTier]
  split
  case h_1 e next =>
    exact entrySend_wp loose answered.active answered.usable (Tier.nextNonfailed_mem next)
  case h_2 => exact outOfEntries_wp loose answered

theorem resFail_wp {res : TrResponse} (loose : s.Loose held i)
    (answered : (s.tiers i).Answered c) :
    (resFail i c res random).wp strict [] (fun _ s' => s'.Whole held ∧ Only i s s') s := by
  have sane := loose.parts.sane i
  unfold resFail
  rw [wp_bind, wp_setTier]
  have loose₁ : (s.setTier i fun t => { t with
      failure := Function.update t.failure c (some res.miFailure) }).Loose held i :=
    loose.setTier ⟨sane.filled, sane.cur⟩ (fun isSome => isSome) rfl
  have tier₁ : (s.setTier i fun t => { t with
      failure := Function.update t.failure c (some res.miFailure) }).tiers i =
      { s.tiers i with failure := Function.update (s.tiers i).failure c (some res.miFailure) } :=
    setTier_self
  have only₁ : Only i s (s.setTier i fun t => { t with
      failure := Function.update t.failure c (some res.miFailure) }) := .setTier
  generalize (s.setTier i fun t => { t with
    failure := Function.update t.failure c (some res.miFailure) }) = s₁ at *
  have sane₁ := loose₁.parts.sane i
  have req₁ : (s₁.tiers i).req = none := by
    rw [tier₁]
    exact answered.req
  have timer₁ : (s₁.tiers i).timer = none := by
    rw [tier₁]
    exact answered.timer
  rw [wp_bind, wp_getTier]
  split
  case isTrue =>
    rw [wp_setTier]
    refine ⟨(loose₁.setTier ⟨sane₁.filled, sane₁.cur⟩ (fun isSome => isSome) rfl).whole ?_,
      only₁.trans .setTier⟩
    rw [setTier_self]
    exact Tier.settled_of_idle rfl req₁ timer₁
  case isFalse left =>
    have answered₁ : (s₁.tiers i).Answered c := by
      refine ⟨?_, ?_, req₁, timer₁, ?_⟩
      · rw [tier₁]
        exact answered.active
      · exact Tier.allFailed_eq_false.mp (by simpa using left)
      · rw [tier₁]
        exact answered.cur
    refine wp_mono (resConn_wp loose₁ answered₁) ?_
    rintro - s' ⟨whole', only⟩
    exact ⟨whole', only₁.trans only⟩

/-- The tracker that has answered comes first. -/
theorem mem_moved {trackers : List Nat} {e : Nat} (mem : e ∈ trackers) :
    e ∈ c :: trackers.erase c := by
  by_cases eq : e = c
  · rw [eq]
    exact List.mem_cons_self
  · exact List.mem_cons_of_mem _ ((List.mem_erase_of_ne eq).mpr mem)

theorem resOk_wp {res : TrResponse} (loose : s.Loose held i)
    (answered : (s.tiers i).Answered c) :
    (resOk i c res random).wp strict [] (fun _ s' => s'.Whole held ∧ Only i s s') s := by
  have sane := loose.parts.sane i
  rcases answered with ⟨active, ⟨e, mem, failure⟩, req, timer, cur⟩
  unfold resOk
  rw [wp_bind, wp_setTier, wp_setTier]
  have loose₁ : (s.setTier i fun t =>
      if t.event = .stopped then { t with active := false } else t.wait res random).Loose held i := by
    refine loose.setTier ?_ ?_ ?_
    · split <;> exact ⟨sane.filled, sane.cur⟩
    · split <;> exact fun isSome => isSome
    · split <;> rfl
  have moved : ∀ t : Tier, t.Sane → ({ t with
      badConns := 0
      hasResponded := true
      trackers := c :: t.trackers.erase c } : Tier).Sane := fun t sane =>
    ⟨List.cons_ne_nil _ _, fun c' found => mem_moved (sane.cur c' found)⟩
  refine ⟨(loose₁.setTier (moved _ (loose₁.parts.sane i)) (fun isSome => isSome) rfl).whole ?_,
    Only.setTier.trans .setTier⟩
  rw [setTier_self, setTier_self]
  split
  case isTrue => exact Tier.settled_of_idle rfl req timer
  case isFalse => exact Tier.settled_of_timer active ⟨e, mem_moved mem, failure⟩ req rfl

/-- The request calls back: it is no longer the one of its tier. -/
theorem Trackers.Parts.calls (parts : s.Parts none) (found : (s.tiers i).req = some id) :
    (s.setTier i fun t => { t with req := none }).Parts (some id) := by
  have self : (s.setTier i fun t => { t with req := none }).tiers i =
      { s.tiers i with req := none } := setTier_self
  rcases parts.req i id found with ⟨-, -, treq, live, tier⟩
  constructor
  · intro j
    by_cases eq : j = i
    · rw [eq, self]
      exact ⟨(parts.sane i).filled, (parts.sane i).cur⟩
    · rw [setTier_of_ne eq]
      exact parts.sane j
  · intro j id' found'
    by_cases eq : j = i
    · rw [eq, self] at found'
      contradiction
    · rw [setTier_of_ne eq] at found' ⊢
      rcases parts.req j id' found' with ⟨isSome, -, treq', live', tier'⟩
      refine ⟨isSome, ?_, treq', live', tier'⟩
      rintro ⟨⟩
      rw [live] at live'
      cases live'
      exact eq (tier'.symm.trans tier)
  · intro id' treq' live'
    have holds := (parts.live id' treq' live').resolve_left nofun
    by_cases eq : treq'.tier = i
    · rw [eq, found] at holds
      exact .inl holds
    · right
      rw [setTier_of_ne eq, holds]
  · rintro id' ⟨⟩
    exact Option.isSome_iff_exists.mpr ⟨treq, live⟩
  · exact parts.fresh

theorem trResult_wp {res : TrResponse} (whole : s.Whole none)
    (found : (s.tiers i).req = some id) :
    (trResult i res random).wp strict [] (fun _ s' => s'.Whole (some id) ∧ Only i s s') s := by
  have active := whole.active_of_req found
  have settled := whole.settled i
  rcases whole.parts.req i id found with ⟨isSome, -, -⟩
  rcases Option.isSome_iff_exists.mp isSome with ⟨c, cur⟩
  have timer : (s.tiers i).timer = none := by
    have waits := settled.waits active
    rw [found] at waits
    simpa using waits
  unfold trResult
  rw [wp_bind, wp_setTier]
  have parts₁ := whole.parts.calls found
  have loose₁ : (s.setTier i fun t => { t with req := none }).Loose (some id) i :=
    Only.setTier.loose whole.loose parts₁
  have answered₁ : ((s.setTier i fun t => { t with req := none }).tiers i).Answered c := by
    rw [setTier_self]
    exact ⟨active, settled.usable active, rfl, timer, cur⟩
  have only₁ : Only i s (s.setTier i fun t => { t with req := none }) := .setTier
  generalize (s.setTier i fun t => { t with req := none }) = s₁ at *
  have more : ∀ s', s'.Whole (some id) ∧ Only i s₁ s' → s'.Whole (some id) ∧ Only i s s' :=
    fun s' held => ⟨held.1, only₁.trans held.2⟩
  rw [wp_bind, wp_getTier, answered₁.cur]
  cases res.type with
  | fail => exact wp_mono (resFail_wp loose₁ answered₁) fun _ => more
  | conn => exact wp_mono (resConn_wp loose₁ answered₁) fun _ => more
  | bad => exact wp_mono (resOk_wp loose₁ answered₁) fun _ => more
  | ok => exact wp_mono (resOk_wp loose₁ answered₁) fun _ => more

/-! ## Callbacks -/

/-- A request that calls back may be freed. -/
theorem Trackers.Whole.freed (whole : s.Whole (some id)) :
    ({ s with reqs := Function.update s.reqs id none } : Trackers n).Whole none where
  parts := by
    have parts := whole.parts
    have reqs : ∀ id', id' ≠ id → Function.update s.reqs id none id' = s.reqs id' :=
      fun id' ne => Function.update_of_ne ne ..
    constructor
    · exact parts.sane
    · intro j id' found
      rcases parts.req j id' found with ⟨isSome, unheld, treq, live, tier⟩
      refine ⟨isSome, nofun, treq, (reqs id' ?_).trans live, tier⟩
      rintro rfl
      exact unheld rfl
    · intro id' treq live
      have live : Function.update s.reqs id none id' = some treq := live
      have ne : id' ≠ id := by
        rintro rfl
        rw [Function.update_self] at live
        contradiction
      rw [reqs id' ne] at live
      refine .inr ((parts.live id' treq live).resolve_left ?_)
      rintro ⟨⟩
      exact ne rfl
    · exact nofun
    · intro id' le
      by_cases eq : id' = id
      · rw [eq]
        exact Function.update_self ..
      · exact (reqs id' eq).trans (parts.fresh id' le)
  settled := whole.settled

theorem httptrFree_wp (whole : s.Whole (some id)) :
    (httptrFree id).wp strict [] (fun _ s' => s'.Whole none ∧ Only i s s') s := by
  unfold httptrFree
  rw [wp_bind, wp_get, wp_bind, wp_assert, if_pos (whole.parts.held id rfl), wp_modify]
  exact ⟨whole.freed, rfl, rfl, fun _ _ => rfl⟩

/-- A request gets on. -/
theorem Trackers.Whole.updated {treq' : HttptrReq n} (whole : s.Whole none)
    (live : s.reqs id = some treq) (same : treq'.tier = treq.tier) :
    ({ s with reqs := Function.update s.reqs id (some treq') } : Trackers n).Whole none where
  parts := by
    have parts := whole.parts
    have reqs : ∀ id', id' ≠ id → Function.update s.reqs id (some treq') id' = s.reqs id' :=
      fun id' ne => Function.update_of_ne ne ..
    constructor
    · exact parts.sane
    · intro j id' found
      rcases parts.req j id' found with ⟨isSome, -, treq'', live', tier⟩
      by_cases eq : id' = id
      · rw [eq, live] at live'
        cases live'
        rw [eq]
        exact ⟨isSome, nofun, treq', Function.update_self .., same.trans tier⟩
      · exact ⟨isSome, nofun, treq'', (reqs id' eq).trans live', tier⟩
    · intro id' treq'' live'
      have live' : Function.update s.reqs id (some treq') id' = some treq'' := live'
      by_cases eq : id' = id
      · rw [eq, Function.update_self] at live'
        cases live'
        rw [eq, same]
        exact parts.live id treq live
      · rw [reqs id' eq] at live'
        exact parts.live id' treq'' live'
    · exact nofun
    · intro id' le
      have ne : id' ≠ id := by
        rintro rfl
        rw [parts.fresh id' le] at live
        contradiction
      exact (reqs id' ne).trans (parts.fresh id' le)
  settled := whole.settled

theorem result_wp {res : TrResponse} (whole : s.Whole none) (live : s.reqs id = some treq) :
    (do
      trResult treq.tier res random
      httptrFree id).wp strict [] (fun _ s' => s'.Whole none ∧ Only treq.tier s s') s := by
  have found := (whole.parts.live id treq live).resolve_left nofun
  refine wp_seq (trResult_wp whole found) ?_
  rintro - s₁ ⟨whole₁, only₁⟩
  refine wp_mono (httptrFree_wp (i := treq.tier) whole₁) ?_
  rintro - s' ⟨whole', only⟩
  exact ⟨whole', only₁.trans only⟩

theorem httpCb_wp {res : HttpRes} (whole : s.Whole none) (live : s.reqs id = some treq) :
    (httpCb id treq res random).wp strict [] (fun _ s' => s'.Whole none ∧ Only treq.tier s s') s := by
  cases res with
  | err => exact result_wp whole live
  | data length =>
      simp only [httpCb, httpData, wp_ite]
      split
      · exact result_wp whole live
      · rw [wp_modify]
        exact ⟨whole.updated live rfl, rfl, rfl, fun _ _ => rfl⟩
  | done reply => exact result_wp whole live

theorem report_wp {r : Report} (whole : s.Whole none) (live : s.reqs id = some treq) :
    (report id treq random r).wp strict [] (fun _ s' => s'.Whole none ∧ Only treq.tier s s') s := by
  cases r with
  | http res => exact httpCb_wp whole live
  | timeout => exact result_wp whole live
  | connect error =>
      cases error with
      | true => exact result_wp whole live
      | false =>
          refine wp_modify.mpr ⟨?_, rfl, rfl, fun _ _ => rfl⟩
          exact whole.updated live rfl

/-! ## Runs -/

/-- What every run keeps. -/
structure Trackers.Inv (s : Trackers n) : Prop where
  whole : s.killed = false → s.Whole none
  idle : s.starting = true → ∀ i, (s.tiers i).active = false
  gone : s.killed = true → ∀ id, s.reqs id = none

/-- A step of a tier that is active, or that leaves a tier that is not as it is. -/
theorem Trackers.Inv.step (inv : s.Inv) (alive : s.killed = false) (whole : s'.Whole none)
    (only : Only i s s') (idle : (s.tiers i).active = false → s' = s) : s'.Inv where
  whole := fun _ => whole
  idle := by
    intro starting j
    rw [only.starting] at starting
    rw [idle (inv.idle starting i)]
    exact inv.idle starting j
  gone := by
    intro killed
    rw [only.killed, alive] at killed
    contradiction

theorem trStart_wp (whole : s.Whole none) (idle : ∀ i, (s.tiers i).active = false) :
    trStart.wp strict [] (fun _ s' => s'.Whole none ∧ s'.killed = s.killed ∧
      s'.starting = s.starting) s := by
  have loop : wp strict [] (forEach (List.finRange n) tierStart) _ s := wp_forEach
    (fun rest s' => s'.Whole none ∧ (s'.killed = s.killed ∧ s'.starting = s.starting) ∧
      ∀ j ∈ rest, (s'.tiers j).active = false)
    (fun x rest s₁ suffix held => ?_) ⟨whole, ⟨rfl, rfl⟩, fun j _ => idle j⟩
  · refine wp_mono loop ?_
    rintro - s' ⟨whole', same, -⟩
    exact ⟨whole', same⟩
  · rcases held with ⟨whole₁, ⟨killed, starting⟩, idle₁⟩
    have nodup : (x :: rest).Nodup := (List.nodup_finRange n).sublist suffix.sublist
    refine wp_mono (tierStart_wp whole₁ (idle₁ x List.mem_cons_self)) ?_
    rintro - s' ⟨whole', only⟩
    refine ⟨whole', ⟨only.killed.trans killed, only.starting.trans starting⟩, fun j mem => ?_⟩
    have ne : j ≠ x := by
      rintro rfl
      exact (List.nodup_cons.mp nodup).1 mem
    rw [only.others j ne]
    exact idle₁ j (List.mem_cons_of_mem _ mem)

theorem tierKill_wp (parts : s.Parts none) :
    (tierKill i).wp strict [] (fun _ s' => s'.Parts none ∧ Only i s s' ∧
      s'.tiers i = { s.tiers i with timer := none, req := none }) s := by
  have sane := parts.sane i
  unfold tierKill
  rw [wp_bind, wp_setTier]
  have parts₁ : (s.setTier i fun t => { t with timer := none }).Parts none :=
    parts.setTier ⟨sane.filled, sane.cur⟩ (fun isSome => isSome) rfl
  refine wp_mono (cancelReq_wp parts₁) ?_
  rintro - s' ⟨parts', only, tier⟩
  refine ⟨parts', Only.setTier.trans only, ?_⟩
  rw [tier, setTier_self]

/-- After `tr_kill` no request is left. -/
theorem trKill_wp (whole : s.Whole none) (idle : s.starting = true → ∀ i, (s.tiers i).active = false) :
    trKill.wp strict [] (fun _ s' => s'.Inv) s := by
  have loop : wp strict [] (forEach (List.finRange n) tierKill) _ s := wp_forEach
    (fun rest s' => s'.Parts none ∧
      (s'.starting = s.starting ∧ ∀ j, (s'.tiers j).active = (s.tiers j).active) ∧
      ∀ j, j ∉ rest → (s'.tiers j).req = none)
    (fun x rest s₁ suffix held => ?_)
    ⟨whole.parts, ⟨rfl, fun _ => rfl⟩, fun j out => absurd (List.mem_finRange j) out⟩
  · unfold trKill
    refine wp_seq loop ?_
    rintro - s₁ ⟨parts, ⟨starting, active⟩, none⟩
    rw [wp_modify]
    constructor
    · exact nofun
    · intro starting' j
      have eq := active j
      exact eq.trans (idle (starting.symm.trans starting') j)
    · intro _ id
      by_contra some
      rcases Option.ne_none_iff_exists'.mp some with ⟨treq, live⟩
      have holds := (parts.live id treq live).resolve_left nofun
      rw [none _ List.not_mem_nil] at holds
      contradiction
  · rcases held with ⟨parts, ⟨starting, active⟩, none⟩
    refine wp_mono (tierKill_wp parts) ?_
    rintro - s' ⟨parts', only, tier⟩
    refine ⟨parts', ⟨only.starting.trans starting, fun j => ?_⟩, fun j out => ?_⟩
    · by_cases eq : j = x
      · rw [eq, tier]
        exact active x
      · rw [only.others j eq]
        exact active j
    · by_cases eq : j = x
      · rw [eq, tier]
      · rw [only.others j eq]
        refine none j fun mem => ?_
        exact (List.mem_cons.mp mem).elim eq out

theorem act_wp (inv : s.Inv) (alive : s.killed = false) (e : Event n) :
    (act e).wp strict [] (fun _ s' => s'.Inv) s := by
  have whole := inv.whole alive
  have step : ∀ {i} {s' : Trackers n}, s'.Whole none → Only i s s' →
      ((s.tiers i).active = false → s' = s) → s'.Inv := inv.step alive
  cases e with
  | report id r random =>
      refine wp_bind.mpr (wp_get.mpr ?_)
      split
      case h_1 => exact wp_pure.mpr inv
      case h_2 treq live =>
        refine wp_mono (report_wp whole live) ?_
        rintro - s' ⟨whole', only⟩
        refine step whole' only fun idle => ?_
        rw [whole.active_of_req ((whole.parts.live id treq live).resolve_left nofun)] at idle
        contradiction
  | timer i =>
      refine wp_bind.mpr (wp_get.mpr ?_)
      rw [wp_when]
      split
      case isFalse => exact inv
      case isTrue pending =>
        refine wp_mono (tierTimerCb_wp whole pending) ?_
        rintro - s' ⟨whole', only, active⟩
        refine step whole' only fun idle => ?_
        rw [active] at idle
        contradiction
  | start =>
      refine wp_bind.mpr (wp_get.mpr ?_)
      rw [wp_when]
      split
      case isFalse => exact inv
      case isTrue starting =>
        rw [wp_bind, wp_modify]
        have whole₁ : ({ s with starting := false } : Trackers n).Whole none :=
          ⟨⟨whole.parts.sane, whole.parts.req, whole.parts.live, whole.parts.held,
            whole.parts.fresh⟩, whole.settled⟩
        refine wp_mono (trStart_wp whole₁ (inv.idle starting)) ?_
        rintro - s' ⟨whole', killed, started⟩
        refine ⟨fun _ => whole', fun again => ?_, fun dead => ?_⟩
        · rw [started] at again
          contradiction
        · rw [killed] at dead
          have dead : s.killed = true := dead
          rw [alive] at dead
          contradiction
  | stop i =>
      refine wp_mono (tierStop_wp whole) ?_
      rintro - s' ⟨whole', only, idle⟩
      exact step whole' only idle
  | complete i =>
      refine wp_mono (tierComplete_wp whole) ?_
      rintro - s' ⟨whole', only, idle⟩
      exact step whole' only idle
  | kill => exact trKill_wp whole inv.idle
  | others mTlastReq mTnextReq btpdSeconds =>
      refine wp_modify.mpr ⟨fun _ => ?_, inv.idle, inv.gone⟩
      exact ⟨⟨whole.parts.sane, whole.parts.req, whole.parts.live, whole.parts.held,
        whole.parts.fresh⟩, whole.settled⟩

theorem handle_wp (inv : s.Inv) (e : Event n) :
    (handle e).wp strict [] (fun _ s' => s'.Inv) s := by
  unfold handle
  rw [wp_bind, wp_get, wp_when]
  split
  case isTrue alive => exact act_wp inv alive e
  case isFalse => exact inv

theorem inv_of_init (init : s.Init) : s.Inv where
  whole := by
    intro _
    refine ⟨⟨fun i => ⟨(init.tiers i).trackers, ?_⟩, ?_, ?_, nofun, fun id _ => init.reqs id⟩,
      fun i => ?_⟩
    · rw [(init.tiers i).cur]
      exact nofun
    · intro i id found
      rw [(init.tiers i).req] at found
      contradiction
    · intro id treq live
      rw [init.reqs] at live
      contradiction
    · exact Tier.settled_of_idle (init.tiers i).active (init.tiers i).req (init.tiers i).timer
  idle := fun _ i => (init.tiers i).active
  gone := fun _ => init.reqs

theorem inv_of_reachable (reached : (torrentTrackers n).Reachable (fun _ => False) s) : s.Inv :=
  reached.invariant _ (fun _ => False) (fun _ => inv_of_init) fun _ e _ inv => handle_wp inv e

/-- In every run each tier waits as it should: an active tier has a tracker that has not
failed, and either a request is outstanding or its timer is pending; a tier that is not
active waits for nothing.  The request that is outstanding calls back to its tier, every
request is outstanding at its tier and none outlives `tr_kill`.  `first_nonfailed` never
aborts, and no assertion fails. -/
theorem settled_of_reachable (reached : (torrentTrackers n).Reachable (fun _ => False) s) :
    (s.killed = false → ∀ i, (s.tiers i).Settled ∧
      ∀ id, (s.tiers i).req = some id → ∃ treq, s.reqs id = some treq ∧ treq.tier = i) ∧
      (∀ id treq, s.reqs id = some treq → s.killed = false ∧ (s.tiers treq.tier).req = some id) ∧
      ∀ e fault, ¬(torrentTrackers n).Faults (fun _ => False) s e fault := by
  have inv := inv_of_reachable reached
  refine ⟨fun alive i => ?_, fun id treq live => ?_, fun e fault faults => ?_⟩
  · have whole := inv.whole alive
    refine ⟨whole.settled i, fun id found => ?_⟩
    rcases whole.parts.req i id found with ⟨-, -, treq, live, tier⟩
    exact ⟨treq, live, tier⟩
  · have alive : s.killed = false := by
      by_contra dead
      rw [inv.gone (by simpa using dead) id] at live
      contradiction
    exact ⟨alive, ((inv.whole alive).parts.live id treq live).resolve_left nofun⟩
  · rcases returned_of_strict (handle_wp inv e) with ⟨a, s', returned, -⟩
    cases returned.symm.trans faults.1

/-- A torrent with one tier of two trackers. -/
def twoTrackers : Trackers 1 where
  tiers _ := ⟨none, [1, 2], fun _ => none, none, none, -1, 0, false, false, .stopped⟩
  reqs _ := none
  nextReq := 0
  mTlastReq := 0
  mTnextReq := 0
  btpdSeconds := 10
  starting := true
  killed := false

/-- The first tracker fails, the second one does not answer in time, and the first one gets
the next request in spite of its failure, after the timer. -/
def firstFails : List (Event 1) :=
  [.start, .report 0 (.http (.done ⟨.fail, [], -1⟩)) 0, .timer 0, .others 0 0 20, .timer 0,
    .report 1 .timeout 0, .timer 0]

theorem settled_of_reachable_firstFails :
    ∃ s : Trackers 1, (torrentTrackers 1).Reachable (fun _ => False) s ∧
      ((s.tiers 0).active = true ∧ (s.tiers 0).badConns = 1 ∧ (s.tiers 0).cur = some 2) ∧
        (s.tiers 0).Settled := by
  have start : (torrentTrackers 1).Reachable (fun _ => False) twoTrackers :=
    .start ⟨fun _ => ⟨nofun, fun _ => rfl, rfl, rfl, rfl, rfl, rfl, rfl, rfl, rfl⟩,
      fun _ => rfl, rfl, rfl⟩
  obtain ⟨s, reached, alive, found⟩ := System.Reachable.of_after
    (P := fun s : Trackers 1 => s.killed = false ∧ (s.tiers 0).active = true ∧
      (s.tiers 0).badConns = 1 ∧ (s.tiers 0).cur = some 2) firstFails start (by decide +kernel)
  exact ⟨s, reached, found, ((settled_of_reachable reached).1 alive 0).1⟩

end Btpd.Tracker
