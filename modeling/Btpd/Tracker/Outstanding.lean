import Btpd.Tracker.Tiers

/-!
# What an active tier waits for

An active tier has a tracker that has not failed, and either a request is outstanding or
its timer is pending.  A tier that is not active waits for nothing.  Each request that has
not been freed is the one that is outstanding at its tier, except for the one that calls
back: it is freed after its result has been handled.
-/

namespace Btpd.Tracker

open Prog

variable {n : Nat} {s s' : Trackers n} {i j : Fin n} {id : Nat} {held : Option Nat} {e : Nat}

/-- The pointers of a tier. -/
structure Tier.Sane (t : Tier) : Prop where
  filled : t.trackers ≠ []
  cur : ∀ c, t.cur = some c → c ∈ t.trackers

/-- A tracker has not failed. -/
def Tier.Usable (t : Tier) : Prop := ∃ e ∈ t.trackers, t.failure e = none

/-- What a tier waits for. -/
structure Tier.Settled (t : Tier) : Prop where
  usable : t.active = true → t.Usable
  waits : t.active = true → (t.req.isSome = true ↔ ¬t.timer.isSome = true)
  idle : t.active = false → t.req = none ∧ t.timer = none

/-- The requests and the tiers, while the request `held` calls back. -/
structure Trackers.Parts (s : Trackers n) (held : Option Nat) : Prop where
  sane : ∀ i, (s.tiers i).Sane
  req : ∀ i id, (s.tiers i).req = some id →
    (s.tiers i).cur.isSome = true ∧ held ≠ some id ∧ ∃ treq, s.reqs id = some treq ∧ treq.tier = i
  live : ∀ id treq, s.reqs id = some treq → held = some id ∨ (s.tiers treq.tier).req = some id
  held : ∀ id, held = some id → (s.reqs id).isSome = true
  fresh : ∀ id, s.nextReq ≤ id → s.reqs id = none

/-- The tiers other than `i` are settled. -/
structure Trackers.Loose (s : Trackers n) (held : Option Nat) (i : Fin n) : Prop where
  parts : s.Parts held
  others : ∀ j, j ≠ i → (s.tiers j).Settled

/-- All tiers are settled. -/
structure Trackers.Whole (s : Trackers n) (held : Option Nat) : Prop where
  parts : s.Parts held
  settled : ∀ i, (s.tiers i).Settled

/-- Nothing but the tier `i` and the requests has changed. -/
structure Only (i : Fin n) (s s' : Trackers n) : Prop where
  killed : s'.killed = s.killed
  starting : s'.starting = s.starting
  others : ∀ j, j ≠ i → s'.tiers j = s.tiers j

theorem Only.refl : Only i s s := ⟨rfl, rfl, fun _ _ => rfl⟩

theorem Only.trans {s'' : Trackers n} (first : Only i s s') (second : Only i s' s'') :
    Only i s s'' where
  killed := second.killed.trans first.killed
  starting := second.starting.trans first.starting
  others := fun j ne => (second.others j ne).trans (first.others j ne)

/-- The other tiers stay settled. -/
theorem Only.loose {held' : Option Nat} (only : Only i s s') (loose : s.Loose held i)
    (parts : s'.Parts held') : s'.Loose held' i where
  parts := parts
  others := fun j ne => by
    rw [only.others j ne]
    exact loose.others j ne

theorem Trackers.Whole.loose (whole : s.Whole held) : s.Loose held i :=
  ⟨whole.parts, fun j _ => whole.settled j⟩

theorem Trackers.Loose.whole (loose : s.Loose held i) (settled : (s.tiers i).Settled) :
    s.Whole held where
  parts := loose.parts
  settled := by
    intro j
    by_cases eq : j = i
    · rw [eq]
      exact settled
    · exact loose.others j eq

/-! ## Changes of a tier -/

variable {f : Tier → Tier}

@[simp]
theorem setTier_self : (s.setTier i f).tiers i = f (s.tiers i) := Function.update_self ..

theorem setTier_of_ne (ne : j ≠ i) : (s.setTier i f).tiers j = s.tiers j :=
  Function.update_of_ne ne ..

theorem Only.setTier : Only i s (s.setTier i f) := ⟨rfl, rfl, fun _ ne => setTier_of_ne ne⟩

@[simp]
theorem wp_setTier {post : Unit → Trackers n → Prop} :
    (setTier i f).wp strict [] post s ↔ post () (s.setTier i f) := wp_modify

@[simp]
theorem wp_getTier {post : Tier → Trackers n → Prop} :
    (getTier i).wp strict [] post s ↔ post (s.tiers i) s := by
  unfold getTier
  rw [wp_bind, wp_get, wp_pure]

/-- A change that keeps the pointers of a tier. -/
theorem Trackers.Parts.setTier (parts : s.Parts held) (sane : (f (s.tiers i)).Sane)
    (cur : (s.tiers i).cur.isSome = true → (f (s.tiers i)).cur.isSome = true)
    (req : (f (s.tiers i)).req = (s.tiers i).req) : (s.setTier i f).Parts held where
  sane := by
    intro j
    by_cases eq : j = i
    · rw [eq, setTier_self]
      exact sane
    · rw [setTier_of_ne eq]
      exact parts.sane j
  req := by
    intro j id found
    by_cases eq : j = i
    · subst eq
      rw [setTier_self] at found ⊢
      rw [req] at found
      rcases parts.req j id found with ⟨isSome, rest⟩
      exact ⟨cur isSome, rest⟩
    · rw [setTier_of_ne eq] at found ⊢
      exact parts.req j id found
  live := by
    intro id treq found
    refine (parts.live id treq found).imp_right fun holds => ?_
    by_cases eq : treq.tier = i
    · rw [eq] at holds ⊢
      rw [setTier_self, req, holds]
    · rw [setTier_of_ne eq, holds]
  held := parts.held
  fresh := parts.fresh

theorem Trackers.Loose.setTier (loose : s.Loose held i) (sane : (f (s.tiers i)).Sane)
    (cur : (s.tiers i).cur.isSome = true → (f (s.tiers i)).cur.isSome = true)
    (req : (f (s.tiers i)).req = (s.tiers i).req) : (s.setTier i f).Loose held i :=
  Only.setTier.loose loose (loose.parts.setTier sane cur req)

/-! ## Requests -/

/-- What is left of the state when the request of a tier is freed. -/
def Trackers.cancelled (s : Trackers n) (i : Fin n) (id : Nat) : Trackers n :=
  ({ s with reqs := Function.update s.reqs id none } : Trackers n).setTier i
    fun t => { t with req := none }

theorem Trackers.Parts.cancelled (parts : s.Parts held) (found : (s.tiers i).req = some id) :
    (s.cancelled i id).Parts held := by
  have self : (s.cancelled i id).tiers i = { s.tiers i with req := none } := setTier_self
  have other : ∀ j, j ≠ i → (s.cancelled i id).tiers j = s.tiers j := fun j => setTier_of_ne
  rcases parts.req i id found with ⟨-, unheld, treq, live, tier⟩
  have reqs : ∀ id', id' ≠ id → (s.cancelled i id).reqs id' = s.reqs id' := fun id' ne =>
    Function.update_of_ne ne ..
  constructor
  · intro j
    by_cases eq : j = i
    · rw [eq, self]
      exact ⟨(parts.sane i).filled, (parts.sane i).cur⟩
    · rw [other j eq]
      exact parts.sane j
  · intro j id' found'
    by_cases eq : j = i
    · rw [eq, self] at found'
      contradiction
    · rw [other j eq] at found' ⊢
      rcases parts.req j id' found' with ⟨isSome, unheld', treq', live', tier'⟩
      have ne : id' ≠ id := by
        rintro rfl
        rw [live] at live'
        cases live'
        exact eq (tier'.symm.trans tier)
      exact ⟨isSome, unheld', treq', (reqs id' ne).trans live', tier'⟩
  · intro id' treq' live'
    have ne : id' ≠ id := by
      rintro rfl
      have gone : (s.cancelled i id').reqs id' = none := Function.update_self ..
      rw [gone] at live'
      contradiction
    rw [reqs id' ne] at live'
    refine (parts.live id' treq' live').imp_right fun holds => ?_
    have away : treq'.tier ≠ i := by
      intro eq
      rw [eq, found] at holds
      exact ne (Option.some.inj holds).symm
    rw [other _ away, holds]
  · intro id' isHeld
    rw [reqs id' fun eq => unheld (eq ▸ isHeld)]
    exact parts.held id' isHeld
  · intro id' le
    by_cases eq : id' = id
    · rw [eq]
      exact Function.update_self ..
    · rw [reqs id' eq]
      exact parts.fresh id' le

/-- The request of a tier is cancelled, if there is one. -/
theorem cancelReq_wp (parts : s.Parts held) :
    (cancelReq i).wp strict [] (fun _ s' => s'.Parts held ∧ Only i s s' ∧
      s'.tiers i = { s.tiers i with req := none }) s := by
  unfold cancelReq
  rw [wp_bind, wp_getTier]
  split
  case h_1 none =>
    refine wp_pure.mpr ⟨parts, .refl, ?_⟩
    rw [← none]
  case h_2 id found =>
    rcases parts.req i id found with ⟨isSome, -, treq, live, -⟩
    unfold reqCancel httptrCancel httptrFree
    rw [wp_bind, wp_getTier, wp_bind, wp_assert, if_pos isSome, wp_bind, wp_bind, wp_get,
      wp_bind, wp_assert, if_pos (Option.isSome_iff_exists.mpr ⟨treq, live⟩), wp_modify,
      wp_setTier]
    exact ⟨parts.cancelled found, ⟨rfl, rfl, fun j ne => setTier_of_ne ne⟩, setTier_self⟩

/-- A request is sent and becomes the one of the tier. -/
def Trackers.requested (s : Trackers n) (i : Fin n) : Trackers n :=
  ({ s with
    reqs := Function.update s.reqs s.nextReq (some ⟨i, (s.tiers i).event, 0, false⟩)
    nextReq := s.nextReq + 1 } : Trackers n).setTier i fun t => { t with req := some s.nextReq }

theorem Trackers.Parts.requested (parts : s.Parts held) (isSome : (s.tiers i).cur.isSome = true)
    (free : (s.tiers i).req = none) : (s.requested i).Parts held := by
  have self : (s.requested i).tiers i = { s.tiers i with req := some s.nextReq } := setTier_self
  have other : ∀ j, j ≠ i → (s.requested i).tiers j = s.tiers j := fun j => setTier_of_ne
  have new : (s.requested i).reqs s.nextReq = some ⟨i, (s.tiers i).event, 0, false⟩ :=
    Function.update_self ..
  have reqs : ∀ id', id' ≠ s.nextReq → (s.requested i).reqs id' = s.reqs id' := fun id' ne =>
    Function.update_of_ne ne ..
  have unused : s.reqs s.nextReq = none := parts.fresh _ (Nat.le_refl _)
  have unheld : held ≠ some s.nextReq := by
    intro isHeld
    have := parts.held _ isHeld
    rw [unused] at this
    contradiction
  constructor
  · intro j
    by_cases eq : j = i
    · rw [eq, self]
      exact ⟨(parts.sane i).filled, (parts.sane i).cur⟩
    · rw [other j eq]
      exact parts.sane j
  · intro j id' found'
    by_cases eq : j = i
    · rw [eq, self] at found' ⊢
      cases found'
      exact ⟨isSome, unheld, _, new, rfl⟩
    · rw [other j eq] at found' ⊢
      rcases parts.req j id' found' with ⟨isSome', unheld', treq', live', tier'⟩
      refine ⟨isSome', unheld', treq', ?_, tier'⟩
      rw [reqs id' (fun same => ?_), live']
      rw [same, unused] at live'
      contradiction
  · intro id' treq' live'
    by_cases eq : id' = s.nextReq
    · rw [eq, new] at live'
      cases live'
      right
      rw [self, eq]
    · rw [reqs id' eq] at live'
      refine (parts.live id' treq' live').imp_right fun holds => ?_
      have away : treq'.tier ≠ i := by
        intro same
        rw [same, free] at holds
        contradiction
      rw [other _ away, holds]
  · intro id' isHeld
    rw [reqs id' fun eq => unheld (eq ▸ isHeld)]
    exact parts.held id' isHeld
  · intro id' le
    have le : s.nextReq + 1 ≤ id' := le
    rw [reqs id' (by omega)]
    exact parts.fresh id' (by omega)

/-! ## Entries -/

/-- The clock and the times of the requests say nothing about the tiers. -/
theorem Trackers.Loose.congr (loose : s.Loose held i) (tiers : s'.tiers = s.tiers)
    (reqs : s'.reqs = s.reqs) (nextReq : s'.nextReq = s.nextReq) : s'.Loose held i where
  parts := by
    constructor
    · rw [tiers]
      exact loose.parts.sane
    · rw [tiers, reqs]
      exact loose.parts.req
    · rw [tiers, reqs]
      exact loose.parts.live
    · rw [reqs]
      exact loose.parts.held
    · rw [reqs, nextReq]
      exact loose.parts.fresh
  others := by
    rw [tiers]
    exact loose.others

/-- An active tier with a tracker that has not failed is settled when either a request is
outstanding or the timer is pending. -/
theorem Tier.settled_of_waits {t : Tier} (active : t.active = true) (usable : t.Usable)
    (waits : t.req.isSome = true ↔ ¬t.timer.isSome = true) : t.Settled where
  usable := fun _ => usable
  waits := fun _ => waits
  idle := by
    intro idle
    rw [active] at idle
    contradiction

/-- Sending, or waiting to send, settles an active tier. -/
theorem entrySend_wp {event : TrEvent} (loose : s.Loose held i)
    (active : (s.tiers i).active = true) (usable : (s.tiers i).Usable)
    (mem : e ∈ (s.tiers i).trackers) :
    (entrySend i (some e) event).wp strict [] (fun _ s' => s'.Whole held ∧ Only i s s') s := by
  unfold entrySend
  refine wp_seq (cancelReq_wp loose.parts) ?_
  rintro - s₁ ⟨parts₁, only, same⟩
  have loose₁ : s₁.Loose held i := only.loose loose parts₁
  have cur : ∀ t : Tier, t.trackers = (s.tiers i).trackers → t.cur = some e → t.Sane := by
    intro t trackers cur
    constructor
    · rw [trackers]
      exact (loose.parts.sane i).filled
    · intro c found
      rw [cur] at found
      cases found
      rw [trackers]
      exact mem
  rw [wp_bind, wp_setTier]
  have loose₂ : (s₁.setTier i fun t => { t with event := event, cur := some e }).Loose held i :=
    loose₁.setTier (cur _ (by rw [same]) rfl) (fun _ => rfl) rfl
  have only₂ : Only i s (s₁.setTier i fun t => { t with event := event, cur := some e }) :=
    only.trans .setTier
  have tier₂ : (s₁.setTier i fun t => { t with event := event, cur := some e }).tiers i =
      { s.tiers i with req := none, event := event, cur := some e } := by
    rw [setTier_self, same]
  generalize (s₁.setTier i fun t => { t with event := event, cur := some e }) = s₂ at *
  have sane₂ := loose₂.parts.sane i
  rw [wp_bind, wp_get]
  split
  case isTrue =>
    -- The request has to wait for the timer.
    rw [wp_bind, wp_modify, wp_bind, wp_get, wp_setTier]
    have loose₃ : ({ s₂ with mTnextReq := max s₂.mTnextReq s₂.mTlastReq + reqDelay } :
        Trackers n).Loose held i := loose₂.congr rfl rfl rfl
    refine ⟨(loose₃.setTier ⟨sane₂.filled, sane₂.cur⟩ id rfl).whole ?_,
      only₂.trans ⟨rfl, rfl, fun j ne => setTier_of_ne ne⟩⟩
    rw [setTier_self]
    refine Tier.settled_of_waits ?_ ?_ ?_
    · rw [tier₂]
      exact active
    · rw [tier₂]
      exact usable
    · rw [tier₂]
      simp
  case isFalse =>
    rw [wp_bind, wp_setTier]
    have loose₃ : (s₂.setTier i fun t => { t with timer := none }).Loose held i :=
      loose₂.setTier ⟨sane₂.filled, sane₂.cur⟩ id rfl
    have tier₃ : (s₂.setTier i fun t => { t with timer := none }).tiers i =
        { s.tiers i with req := none, event := event, cur := some e, timer := none } := by
      rw [setTier_self, tier₂]
    have only₃ : Only i s (s₂.setTier i fun t => { t with timer := none }) :=
      only₂.trans .setTier
    generalize (s₂.setTier i fun t => { t with timer := none }) = s₃ at *
    have isSome : (s₃.tiers i).cur.isSome = true := by rw [tier₃]; rfl
    have free : (s₃.tiers i).req = none := by rw [tier₃]
    have parts₄ := loose₃.parts.requested isSome free
    unfold reqSend httptrReq
    rw [wp_bind, wp_bind, wp_getTier, wp_bind, wp_assert, if_pos isSome, wp_bind, wp_get, wp_bind,
      wp_modify, wp_pure, wp_bind, wp_setTier, wp_modify]
    have other : ∀ j, j ≠ i → (s₃.requested i).tiers j = s₃.tiers j := fun j => setTier_of_ne
    have only₄ : Only i s₃ (s₃.requested i) := ⟨rfl, rfl, other⟩
    have loose₄ : (s₃.requested i).Loose held i := only₄.loose loose₃ parts₄
    have loose₅ : ({ s₃.requested i with mTlastReq := (s₃.requested i).btpdSeconds } :
        Trackers n).Loose held i := loose₄.congr rfl rfl rfl
    refine ⟨loose₅.whole ?_, only₃.trans ⟨rfl, rfl, other⟩⟩
    have tier₄ : (s₃.requested i).tiers i = { s₃.tiers i with req := some s₃.nextReq } :=
      setTier_self
    have tier₅ : ({ s₃.requested i with mTlastReq := (s₃.requested i).btpdSeconds } :
        Trackers n).tiers i = (s₃.requested i).tiers i := rfl
    rw [tier₅, tier₄, tier₃]
    exact Tier.settled_of_waits active usable (by simp)

theorem Tier.head_mem {t : Tier} (sane : t.Sane) :
    ∃ e, t.trackers.head? = some e ∧ e ∈ t.trackers := by
  rcases list : t.trackers with - | ⟨e, rest⟩
  · exact absurd list sane.filled
  · exact ⟨e, rfl, List.mem_cons_self⟩

/-- A tracker that has not failed is found. -/
theorem firstNonfailed_wp {t : Tier} {post : Nat → Trackers n → Prop} (usable : t.Usable)
    (found : ∀ e ∈ t.trackers, t.failure e = none → post e s) :
    (firstNonfailed t : Routine n Nat).wp strict [] post s := by
  unfold firstNonfailed
  split
  case h_1 e first =>
    refine wp_pure.mpr (found e (List.mem_of_find?_eq_some first) ?_)
    have nonfailed := List.find?_some first
    exact Option.isNone_iff_eq_none.mp nonfailed
  case h_2 none =>
    rcases usable with ⟨e, mem, failure⟩
    have failed := List.find?_eq_none.mp none e mem
    unfold Tier.nonfailed at failed
    rw [failure] at failed
    exact absurd rfl failed

theorem Tier.allFailed_eq_false {t : Tier} : t.allFailed = false ↔ t.Usable := by
  unfold Tier.allFailed Tier.Usable
  simp [List.all_eq_false]

/-! ## What happens to a tier -/

/-- A timer that is pending belongs to an active tier. -/
theorem Trackers.Whole.active_of_timer (whole : s.Whole held)
    (pending : (s.tiers i).timer.isSome = true) : (s.tiers i).active = true := by
  by_contra idle
  have idle : (s.tiers i).active = false := by simpa using idle
  rw [((whole.settled i).idle idle).2] at pending
  contradiction

theorem Trackers.Whole.active_of_req (whole : s.Whole held)
    (outstanding : (s.tiers i).req = some id) : (s.tiers i).active = true := by
  by_contra idle
  have idle : (s.tiers i).active = false := by simpa using idle
  rw [((whole.settled i).idle idle).1] at outstanding
  contradiction

/-- The timer fires. -/
theorem tierTimerCb_wp (whole : s.Whole held) (pending : (s.tiers i).timer.isSome = true) :
    (do
      setTier i fun t => { t with timer := none }
      tierTimerCb i).wp strict [] (fun _ s' => s'.Whole held ∧ Only i s s' ∧
        (s.tiers i).active = true) s := by
  have active := whole.active_of_timer pending
  have usable := (whole.settled i).usable active
  have sane := whole.parts.sane i
  rw [wp_bind, wp_setTier]
  have loose : (s.setTier i fun t => { t with timer := none }).Loose held i :=
    whole.loose.setTier ⟨sane.filled, sane.cur⟩ id rfl
  have tier : (s.setTier i fun t => { t with timer := none }).tiers i =
    { s.tiers i with timer := none } := setTier_self
  have active' : ((s.setTier i fun t => { t with timer := none }).tiers i).active = true := by
    rw [tier]
    exact active
  have usable' : ((s.setTier i fun t => { t with timer := none }).tiers i).Usable := by
    rw [tier]
    exact usable
  unfold tierTimerCb
  rw [wp_bind, wp_getTier, wp_bind, wp_assert,
    if_pos ⟨active', Tier.allFailed_eq_false.mpr usable'⟩, wp_bind]
  refine firstNonfailed_wp usable' fun e mem _ => ?_
  refine wp_mono (entrySend_wp loose active' usable' mem) ?_
  rintro - s' ⟨whole', only⟩
  exact ⟨whole', Only.setTier.trans only, active⟩

/-- A tier that is not active, or is stopping, is started. -/
theorem tierStart_wp (whole : s.Whole held) (idle : (s.tiers i).active = false) :
    (tierStart i).wp strict [] (fun _ s' => s'.Whole held ∧ Only i s s') s := by
  have sane := whole.parts.sane i
  rcases Tier.head_mem sane with ⟨e, head, mem⟩
  unfold tierStart
  rw [wp_bind, wp_getTier, wp_bind, wp_assert, if_pos (.inl idle), wp_bind, wp_setTier, head]
  have loose : (s.setTier i fun t => { t with
      failure := fun _ => none
      hasResponded := false
      badConns := 0
      active := true }).Loose held i := whole.loose.setTier ⟨sane.filled, sane.cur⟩ id rfl
  refine wp_mono (entrySend_wp (e := e) loose ?_ ?_ ?_) ?_
  · rw [setTier_self]
  · rw [setTier_self]
    exact ⟨e, mem, rfl⟩
  · rw [setTier_self]
    exact mem
  · rintro - s' ⟨whole', only⟩
    exact ⟨whole', Only.setTier.trans only⟩

theorem giveUp_wp (whole : s.Whole held) :
    (giveUp i).wp strict [] (fun _ s' => s'.Whole held ∧ Only i s s') s := by
  have sane := whole.parts.sane i
  unfold giveUp
  rw [wp_bind, wp_setTier]
  have loose : (s.setTier i fun t => { t with timer := none }).Loose held i :=
    whole.loose.setTier ⟨sane.filled, sane.cur⟩ id rfl
  refine wp_seq (cancelReq_wp loose.parts) ?_
  rintro - s₁ ⟨parts₁, only, tier⟩
  have loose₁ : s₁.Loose held i := only.loose loose parts₁
  rw [setTier_self] at tier
  rw [wp_setTier]
  have sane₁ := loose₁.parts.sane i
  refine ⟨(loose₁.setTier ⟨sane₁.filled, sane₁.cur⟩ id rfl).whole ?_,
    (Only.setTier.trans only).trans .setTier⟩
  rw [setTier_self, tier]
  exact ⟨nofun, nofun, fun _ => ⟨rfl, rfl⟩⟩

theorem tierStop_wp (whole : s.Whole held) :
    (tierStop i).wp strict [] (fun _ s' => s'.Whole held ∧ Only i s s' ∧
      ((s.tiers i).active = false → s' = s)) s := by
  unfold tierStop
  rw [wp_bind, wp_getTier]
  split
  case isTrue => exact wp_pure.mpr ⟨whole, .refl, fun _ => rfl⟩
  case isFalse working =>
    have active : (s.tiers i).active = true := by
      rw [not_or] at working
      simpa using working.1
    split
    case isTrue =>
      refine wp_mono (giveUp_wp whole) ?_
      rintro - s' ⟨whole', only⟩
      refine ⟨whole', only, fun idle => ?_⟩
      rw [active] at idle
      contradiction
    case isFalse =>
      have usable := (whole.settled i).usable active
      rw [wp_bind]
      refine firstNonfailed_wp usable fun e mem _ => ?_
      refine wp_mono (entrySend_wp whole.loose active usable mem) ?_
      rintro - s' ⟨whole', only⟩
      refine ⟨whole', only, fun idle => ?_⟩
      rw [active] at idle
      contradiction

theorem tierComplete_wp (whole : s.Whole held) :
    (tierComplete i).wp strict [] (fun _ s' => s'.Whole held ∧ Only i s s' ∧
      ((s.tiers i).active = false → s' = s)) s := by
  unfold tierComplete
  rw [wp_bind, wp_getTier, wp_when]
  split
  case isFalse => exact ⟨whole, .refl, fun _ => rfl⟩
  case isTrue working =>
    rcases Tier.head_mem (whole.parts.sane i) with ⟨e, head, mem⟩
    rw [head]
    have usable := (whole.settled i).usable working.1
    refine wp_mono (entrySend_wp whole.loose working.1 usable mem) ?_
    rintro - s' ⟨whole', only⟩
    refine ⟨whole', only, fun idle => ?_⟩
    rw [working.1] at idle
    contradiction

end Btpd.Tracker
