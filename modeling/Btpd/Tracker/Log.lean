import Btpd.Library.Trails
import Btpd.Tracker.Postponed

/-!
# The log of a tier

What a tier is told and what it sends, in the order of a run: its start, the failure reasons
that its trackers answer with, the end of the download, and its requests.  What a step does
to a tier is said once, by cases on the routine that decides it.
-/

namespace Btpd.Tracker

open Prog

variable {n : Nat}

/-! ## Entries -/

/-- An entry: `tier_start`; a tracker answers with a failure reason; `tr_complete` while the
tier is active, with its event and whether a request is outstanding; a round of requests with
the event `completed` begins; a request is sent. -/
inductive Entry
  | begun
  | failed (tracker : Nat)
  | completed (event : TrEvent) (out : Bool)
  | round
  | sent (tracker : Nat) (event : TrEvent)
  deriving DecidableEq, Repr

/-- The tracker that answers with a failure reason. -/
def Tier.failing (t : Tier) (res : TrResponse) : List Entry :=
  if res.type = .fail then t.cur.toList.map .failed else []

/-- The tier is told that the download is complete. -/
def Tier.completed (t : Tier) : List Entry :=
  if t.active = true then [.completed t.event t.req.isSome] else []

/-- What the tier is told. -/
def Event.told (s : Trackers n) (i : Fin n) : Event n → List Entry
  | .report id r _ =>
      match s.reqs id with
      | none => []
      | some treq =>
          if treq.tier = i then
            match r.result treq with
            | none => []
            | some res => (s.tiers i).failing res
          else []
  | .start => if s.starting = true then [.begun] else []
  | .complete j => if j = i then (s.tiers i).completed else []
  | .timer _ | .stop _ | .kill | .others .. => []

/-- The request that was sent: one with a new number. -/
def sentBy (nextReq : Nat) (t : Tier) : List Entry :=
  match t.req, t.cur with
  | some id, some c => if nextReq ≤ id then [.sent c t.event] else []
  | _, _ => []

/-- The tier begins to announce that the download is complete. -/
def roundOf (t t' : Tier) : List Entry :=
  if t.event ≠ .completed ∧ t'.event = .completed then [.round] else []

/-- The entries of a step, the newest first.  After `tr_kill` nothing happens. -/
def entries (i : Fin n) (step : System.Taken (Trackers n) (Event n)) : List Entry :=
  if step.before.killed = true then []
  else sentBy step.before.nextReq (step.after.tiers i) ++
    (roundOf (step.before.tiers i) (step.after.tiers i) ++ step.event.told step.before i)

/-- The log of a tier, the newest entry first. -/
def log (i : Fin n) (steps : List (System.Taken (Trackers n) (Event n))) : List Entry :=
  steps.flatMap (entries i)

/-! ## What a step does to a tier -/

/-- `entry_send` to the tracker `x`, for a tier that was `t` just before: the request is left
to the timer if the clock is busy, and is made otherwise. -/
def Dispatch (s : Trackers n) (busy : Prop) (x : Option Nat) (ev : TrEvent) (t t' : Tier) : Prop :=
  ∃ timer req, t' = { t with event := ev, cur := x, timer := timer, req := req } ∧
    ((busy ∧ req = none) ∨ (¬busy ∧ ∃ id, s.nextReq ≤ id ∧ req = some id))

/-- The tier after `tier_start` has forgotten its last run. -/
def Tier.reset (t : Tier) : Tier :=
  { t with failure := fun _ => none, hasResponded := false, badConns := 0, active := true }

/-- The tier after the answer of its tracker, before another one is tried. -/
def Tier.answered (t : Tier) (c : Nat) (res : TrResponse) : Tier :=
  if res.type = .fail then
    { t with failure := Function.update t.failure c (some res.miFailure), req := none }
  else
    { t with req := none }

/-- After its answer another tracker is looked for. -/
def Tier.Tries (t : Tier) (c : Nat) (res : TrResponse) : Prop :=
  res.type = .conn ∨ (res.type = .fail ∧ (t.answered c res).allFailed = false)

/-- The event is an answer to the request of the tier. -/
def Event.Answers (e : Event n) (s : Trackers n) (i : Fin n) (res : TrResponse) : Prop :=
  ∃ id r random treq, e = .report id r random ∧ s.reqs id = some treq ∧ treq.tier = i ∧
    r.result treq = some res

/-- What a step does to a tier: what it is told, and the tier after the step. -/
inductive Course (s : Trackers n) (e : Event n) (i : Fin n) : List Entry → Tier → Prop
  /-- Nothing happens. -/
  | same : Course s e i [] (s.tiers i)
  /-- The end of the download is told to a tier with another event. -/
  | missed (active : (s.tiers i).active = true) (event : (s.tiers i).event ≠ .empty) :
      Course s e i (s.tiers i).completed (s.tiers i)
  | completes {t' : Tier} (told : e = .complete i) (active : (s.tiers i).active = true)
      (event : (s.tiers i).event = .empty)
      (sends : Dispatch s s.Busy (s.tiers i).trackers.head? .completed (s.tiers i) t') :
      Course s e i (s.tiers i).completed t'
  | begins {t' : Tier} (busy : Prop) (starting : s.starting = true)
      (sends : Dispatch s busy (s.tiers i).trackers.head? .started (s.tiers i).reset t') :
      Course s e i [.begun] t'
  /-- The tier is given up, or killed. -/
  | ends {t' : Tier} (failure : t'.failure = (s.tiers i).failure) (event : t'.event = (s.tiers i).event)
      (req : t'.req = none) (active : t'.active = true → (s.tiers i).active = true) :
      Course s e i [] t'
  | stops {t' : Tier} {x : Nat} (active : (s.tiers i).active = true)
      (first : (s.tiers i).trackers.find? (s.tiers i).nonfailed = some x)
      (sends : Dispatch s s.Busy (some x) .stopped (s.tiers i) t') : Course s e i [] t'
  /-- The timer fires. -/
  | fires {t' : Tier} {x : Nat} (active : (s.tiers i).active = true)
      (first : (s.tiers i).trackers.find? (s.tiers i).nonfailed = some x)
      (sends : Dispatch s s.Busy (some x) (s.tiers i).event (s.tiers i) t') : Course s e i [] t'
  /-- The tracker has failed, and the next one is tried. -/
  | next {t' : Tier} {res : TrResponse} {c x : Nat} (active : (s.tiers i).active = true)
      (out : (s.tiers i).req.isSome = true)
      (cur : (s.tiers i).cur = some c)
      (found : ((s.tiers i).answered c res).nextNonfailed c = some x)
      (sends : Dispatch s s.Busy (some x) (s.tiers i).event ((s.tiers i).answered c res) t') :
      Course s e i ((s.tiers i).failing res) t'
  /-- The last tracker has failed for the first time, and the first one is tried. -/
  | again {t' : Tier} {res : TrResponse} {c : Nat} (answers : e.Answers s i res)
      (active : (s.tiers i).active = true) (out : (s.tiers i).req.isSome = true)
      (cur : (s.tiers i).cur = some c) (tries : (s.tiers i).Tries c res)
      (found : ((s.tiers i).answered c res).nextNonfailed c = none)
      (badConns : (s.tiers i).badConns = 0)
      (sends : Dispatch s s.Busy (s.tiers i).trackers.head? (s.tiers i).event
        { (s.tiers i).answered c res with badConns := 1 } t') :
      Course s e i ((s.tiers i).failing res) t'
  /-- The tier waits after an answer, or has come to its end. -/
  | waits {t' : Tier} {c : Nat} (res : TrResponse) (active : (s.tiers i).active = true)
      (out : (s.tiers i).req.isSome = true)
      (cur : (s.tiers i).cur = some c)
      (failure : t'.failure = ((s.tiers i).answered c res).failure) (req : t'.req = none)
      (event : t'.event = (s.tiers i).event ∨
        ((s.tiers i).event ≠ .stopped ∧ t'.event = .empty)) :
      Course s e i ((s.tiers i).failing res) t'

/-! ## The routines -/

variable {s s' u : Trackers n} {i j : Fin n} {c : Nat} {random : Nat} {res : TrResponse}
  {e : Event n} {ev : TrEvent}

theorem Sends.dispatch {x : Option Nat} (sends : Sends i x ev u s')
    (clocks : u.nextReq = s.nextReq ∧ (u.Busy ↔ s.Busy)) :
    Dispatch s s.Busy x ev (u.tiers i) (s'.tiers i) := by
  rcases sends.tier with ⟨timer, req, tier, sent⟩
  refine ⟨timer, req, tier, ?_⟩
  rcases sent with ⟨busy, -, free, -⟩ | ⟨idle, -, made, -⟩
  · exact Or.inl ⟨clocks.2.mp busy, free⟩
  · exact Or.inr ⟨fun busy => idle (clocks.2.mpr busy), u.nextReq, clocks.1.ge, made⟩

/-- A tier whose request has come to its end, and the first tracker behind the one that was
contacted. -/
theorem resConn_course (clocks : u.nextReq = s.nextReq ∧ (u.Busy ↔ s.Busy))
    (tier : u.tiers i = (s.tiers i).answered c res) (active : (s.tiers i).active = true)
    (out : (s.tiers i).req.isSome = true) (cur : (s.tiers i).cur = some c)
    (tries : (s.tiers i).Tries c res) (answers : e.Answers s i res) :
    (resConn i c random).wp whenReturns [] (fun _ s' =>
      Course s e i ((s.tiers i).failing res) (s'.tiers i)) u := by
  have event : ((s.tiers i).answered c res).event = (s.tiers i).event := by
    unfold Tier.answered
    split <;> rfl
  have badConns : ((s.tiers i).answered c res).badConns = (s.tiers i).badConns := by
    unfold Tier.answered
    split <;> rfl
  have trackers : ((s.tiers i).answered c res).trackers = (s.tiers i).trackers := by
    unfold Tier.answered
    split <;> rfl
  have req : ((s.tiers i).answered c res).req = none := by
    unfold Tier.answered
    split <;> rfl
  unfold resConn
  rw [wp_bind, getTier_wp, tier]
  split
  case h_1 x found =>
    apply wp_mono entrySend_sends
    intro _ s' sends
    have sends := sends.dispatch clocks
    rw [tier, event] at sends
    exact .next active out cur found sends
  case h_2 found =>
    unfold outOfEntries
    rw [wp_bind, setTier_wp, wp_bind, getTier_wp, setTier_self, tier]
    split
    · apply setTier_wp.mpr
      rw [setTier_self, setTier_self, tier]
      exact .waits res active out cur rfl req (Or.inl event)
    split
    case isTrue first =>
      have none : (s.tiers i).badConns = 0 := by
        have grown : ((s.tiers i).answered c res).badConns + 1 = 1 := first
        omega
      apply wp_mono entrySend_sends
      intro _ s' sends
      have clocks : _ ∧ (_ ↔ s.Busy) := clocks
      have sends := sends.dispatch clocks
      rw [setTier_self, tier, badConns, none] at sends
      apply Course.again answers active out cur tries found none
      rw [← trackers, ← event]
      exact sends
    split
    all_goals
      apply setTier_wp.mpr
      rw [setTier_self, setTier_self, tier]
      exact .waits res active out cur rfl req (Or.inl event)

theorem trResult_course (active : (s.tiers i).active = true)
    (out : (s.tiers i).req.isSome = true) (cur : (s.tiers i).cur = some c)
    (answers : e.Answers s i res) :
    (trResult i res random).wp whenReturns [] (fun _ s' =>
      Course s e i ((s.tiers i).failing res) (s'.tiers i)) s := by
  unfold trResult
  rw [wp_bind, setTier_wp, wp_bind, getTier_wp, setTier_self]
  dsimp only
  rw [cur]
  have answered : ∀ type : res.type ≠ .fail, (s.tiers i).answered c res =
      { s.tiers i with req := none } := fun type => if_neg type
  have ok : res.type ≠ .fail → (resOk i c res random).wp whenReturns [] (fun _ s' =>
      Course s e i ((s.tiers i).failing res) (s'.tiers i))
        (s.setTier i fun t => { t with req := none }) := by
    intro type
    unfold resOk
    rw [wp_bind, setTier_wp, setTier_wp, setTier_self, setTier_self, setTier_self]
    apply Course.waits res active out cur
    · rw [answered type]
      split <;> rfl
    · split <;> rfl
    · dsimp only
      split
      case isTrue stopped => exact Or.inl rfl
      case isFalse going => exact Or.inr ⟨going, rfl⟩
  cases type : res.type with
  | fail =>
      dsimp only
      unfold resFail
      rw [wp_bind, setTier_wp, wp_bind, getTier_wp]
      have tier : ((s.setTier i fun t => { t with req := none }).setTier i fun t =>
          { t with failure := Function.update t.failure c (some res.miFailure) }).tiers i =
            (s.tiers i).answered c res := by
        rw [setTier_self, setTier_self, Tier.answered, if_pos type]
      split
      · apply setTier_wp.mpr
        rw [setTier_self, tier]
        have idle : ((s.tiers i).answered c res).req = none ∧
            ((s.tiers i).answered c res).event = (s.tiers i).event := by
          rw [Tier.answered, if_pos type]
          exact ⟨rfl, rfl⟩
        exact .waits res active out cur rfl idle.1 (Or.inl idle.2)
      · rename_i left
        rw [tier] at left
        exact resConn_course ⟨rfl, Iff.rfl⟩ tier active out cur
          (Or.inr ⟨type, Bool.eq_false_iff.mpr left⟩) answers
  | conn =>
      have notFail : res.type ≠ .fail := by
        rw [type]
        exact nofun
      dsimp only
      refine resConn_course ⟨rfl, Iff.rfl⟩ ?_ active out cur (Or.inl type) answers
      rw [setTier_self, answered notFail]
  | bad =>
      apply ok
      rw [type]
      exact nofun
  | ok =>
      apply ok
      rw [type]
      exact nofun

theorem tierStop_course : (tierStop i).wp whenReturns [] (fun _ s' =>
    Course s e i [] (s'.tiers i)) s := by
  unfold tierStop
  rw [wp_bind, getTier_wp]
  split
  · exact wp_pure.mpr .same
  rename_i going
  have active : (s.tiers i).active = true := by
    by_contra idle
    exact going (Or.inl (Bool.eq_false_iff.mpr idle))
  split
  · unfold giveUp
    rw [wp_bind, setTier_wp]
    apply wp_seq cancelReq_effect
    rintro - s₁ ⟨tier, -⟩
    apply setTier_wp.mpr
    rw [setTier_self, tier, setTier_self]
    exact .ends rfl rfl rfl nofun
  · unfold firstNonfailed
    rw [wp_bind]
    split
    case h_1 x first =>
      rw [wp_pure]
      apply wp_mono entrySend_sends
      intro _ s' sends
      exact .stops active first (sends.dispatch ⟨rfl, Iff.rfl⟩)
    case h_2 => exact wp_fault.mpr trivial

theorem tierComplete_course : (tierComplete i).wp whenReturns [] (fun _ s' =>
    Course s (.complete i) i (s.tiers i).completed (s'.tiers i)) s := by
  unfold tierComplete
  rw [wp_bind, getTier_wp, wp_when]
  by_cases active : (s.tiers i).active = true
  · split
    case isTrue due =>
      apply wp_mono entrySend_sends
      intro _ s' sends
      exact .completes rfl active due.2 (sends.dispatch ⟨rfl, Iff.rfl⟩)
    case isFalse undue => exact .missed active fun event => undue ⟨active, event⟩
  · have untold : (s.tiers i).completed = [] := if_neg active
    rw [untold, if_neg fun due => active due.1]
    exact .same

theorem tierTimerCb_course (active : (s.tiers i).active = true) :
    (do
      setTier i fun t => { t with timer := none }
      tierTimerCb i).wp whenReturns [] (fun _ s' => Course s e i [] (s'.tiers i)) s := by
  unfold tierTimerCb firstNonfailed
  rw [wp_bind, setTier_wp, wp_bind, getTier_wp, wp_bind, wp_assert, setTier_self]
  split
  case isFalse => trivial
  rw [wp_bind]
  split
  case h_1 x first =>
    rw [wp_pure]
    apply wp_mono entrySend_sends
    intro _ s' sends
    rcases sends.tier with ⟨timer, req, tier, sent⟩
    rw [setTier_self] at tier
    have clocks : Dispatch s s.Busy (some x) (s.tiers i).event (s.tiers i) (s'.tiers i) := by
      refine ⟨timer, req, tier, ?_⟩
      rcases sent with ⟨busy, -, free, -⟩ | ⟨idle, -, made, -⟩
      · exact Or.inl ⟨busy, free⟩
      · exact Or.inr ⟨idle, _, Nat.le_refl _, made⟩
    exact .fires active first clocks
  case h_2 => exact wp_fault.mpr trivial

/-- Request numbers are only ever given out. -/
theorem entrySend_nextReq {k : Nat} {x : Option Nat} :
    Keeps whenReturns (fun s : Trackers n => k ≤ s.nextReq) (entrySend i x ev) := by
  intro callers s held
  unfold entrySend cancelReq reqCancel httptrCancel httptrFree reqSend httptrReq getTier setTier
  apply wp_between (fun _ (s : Trackers n) => k ≤ s.nextReq)
  · rw [wp_bind, wp_bind, wp_get, wp_pure]
    split
    · exact wp_pure.mpr held
    · rw [wp_bind, wp_bind, wp_get, wp_pure, wp_bind, wp_assert]
      split
      case isFalse => trivial
      rw [wp_bind, wp_bind, wp_get, wp_bind, wp_assert]
      split
      case isFalse => trivial
      rw [wp_modify, wp_modify]
      exact held
  · intro _ s held
    rw [wp_bind, wp_modify, wp_bind, wp_get]
    split
    · rw [wp_bind, wp_modify, wp_bind, wp_get, wp_modify]
      exact held
    · rw [wp_bind, wp_modify, wp_bind, wp_bind, wp_bind, wp_get, wp_pure, wp_bind, wp_assert]
      split
      case isFalse => trivial
      rw [wp_bind, wp_get, wp_bind, wp_modify, wp_pure, wp_bind, wp_modify, wp_modify]
      exact Nat.le_succ_of_le held

theorem tierStart_course (e : Event n) (starting : s.starting = true)
    (later : s.nextReq ≤ u.nextReq) (tier : u.tiers i = s.tiers i) :
    (tierStart i).wp whenReturns [] (fun _ s' => Course s e i [.begun] (s'.tiers i) ∧
      s.nextReq ≤ s'.nextReq ∧ ∀ j, j ≠ i → s'.tiers j = u.tiers j) u := by
  unfold tierStart
  rw [wp_bind, getTier_wp, wp_bind, wp_assert]
  split
  case isFalse => trivial
  rw [wp_bind, setTier_wp]
  refine wp_mono (wp_and_whenReturns (entrySend_nextReq [] _ later)
    entrySend_sends) ?_
  rintro - s' ⟨grown, sends⟩
  refine ⟨?_, grown, fun j ne => (sends.others j ne).trans (setTier_of_ne ne)⟩
  rcases sends.tier with ⟨timer, req, after, sent⟩
  rw [setTier_self, tier] at after
  apply Course.begins u.Busy starting
  refine ⟨timer, req, after, ?_⟩
  rcases sent with ⟨busy, -, free, -⟩ | ⟨idle, -, made, -⟩
  · exact Or.inl ⟨busy, free⟩
  · exact Or.inr ⟨idle, u.nextReq, later, made⟩

theorem trStart_course (starting : s.starting = true) (nextReq : u.nextReq = s.nextReq)
    (tiers : u.tiers = s.tiers) :
    trStart.wp whenReturns [] (fun _ s' => ∀ i, Course s e i [.begun] (s'.tiers i)) u := by
  have loop : wp whenReturns [] (forEach (List.finRange n) tierStart) _ u := wp_forEach
    (fun rest s' => s.nextReq ≤ s'.nextReq ∧ (∀ j ∈ rest, s'.tiers j = s.tiers j) ∧
      ∀ j, j ∉ rest → Course s e j [.begun] (s'.tiers j))
    (fun x rest s₁ suffix held => ?_)
    ⟨nextReq.ge, fun j _ => congrFun tiers j, fun j out => absurd (List.mem_finRange j) out⟩
  · exact wp_mono loop fun _ s' held i => held.2.2 i List.not_mem_nil
  · rcases held with ⟨later, waiting, begun⟩
    have nodup : (x :: rest).Nodup := (List.nodup_finRange n).sublist suffix.sublist
    refine wp_mono (tierStart_course e starting later (waiting x List.mem_cons_self)) ?_
    rintro - s' ⟨course, later', others⟩
    refine ⟨later', fun j mem => ?_, fun j out => ?_⟩
    · have ne : j ≠ x := by
        rintro rfl
        exact (List.nodup_cons.mp nodup).1 mem
      rw [others j ne]
      exact waiting j (List.mem_cons_of_mem _ mem)
    · by_cases same : j = x
      · rw [same]
        exact course
      · rw [others j same]
        apply begun
        intro mem
        exact (List.mem_cons.mp mem).elim same out

theorem trKill_course : trKill.wp whenReturns [] (fun _ s' =>
    ∀ i, Course s e i [] (s'.tiers i)) s := by
  have loop : wp whenReturns [] (forEach (List.finRange n) tierKill) _ s := wp_forEach
    (fun _ s' => ∀ j, Course s e j [] (s'.tiers j) ∧ (s'.tiers j).failure = (s.tiers j).failure ∧
      (s'.tiers j).event = (s.tiers j).event ∧ (s'.tiers j).active = (s.tiers j).active)
    (fun x rest s₁ suffix held => ?_) (fun j => ⟨.same, rfl, rfl, rfl⟩)
  · unfold trKill
    refine wp_seq loop ?_
    intro _ s₁ held
    exact wp_modify.mpr fun i => (held i).1
  · unfold tierKill
    rw [wp_bind, setTier_wp]
    apply wp_mono cancelReq_effect
    rintro - s' ⟨tier, others, -⟩
    intro j
    by_cases same : j = x
    · rw [same, tier, setTier_self]
      rcases held x with ⟨-, failure, event, active⟩
      exact ⟨.ends failure event rfl fun isActive => active.symm.trans isActive, failure, event,
        active⟩
    · rw [others j same, setTier_of_ne same]
      exact held j

/-! ## The steps -/

/-- What a step does to a tier. -/
theorem course_of_step (inv : s.Inv) (killed : s.killed = false)
    (step : (torrentTrackers n).Steps (fun _ => False) s e s') (i : Fin n) :
    Course s e i (e.told s i) (s'.tiers i) := by
  have whole := inv.whole killed
  have apart : ∀ {j}, i ≠ j → Only j s s' → Course s e i [] (s'.tiers i) := by
    intro j ne only
    rw [only.others i ne]
    exact .same
  cases e with
  | report id r random =>
      dsimp only [Event.told]
      cases live : s.reqs id with
      | none =>
          refine returned_of_steps (fun s' => Course s _ i [] (s'.tiers i)) step killed ?_
          refine wp_bind.mpr (wp_get.mpr ?_)
          rw [live]
          exact wp_pure.mpr .same
      | some treq =>
          by_cases here : treq.tier = i
          · subst here
            dsimp only
            rw [if_pos rfl]
            have found := (whole.parts.live id treq live).resolve_left nofun
            rcases whole.parts.req _ id found with ⟨curSome, -⟩
            rcases Option.isSome_iff_exists.mp curSome with ⟨c, cur⟩
            cases result : r.result treq with
            | none =>
                refine returned_of_steps (fun s' => Course s _ treq.tier [] (s'.tiers treq.tier))
                  step killed ?_
                refine wp_bind.mpr (wp_get.mpr ?_)
                rw [live]
                apply wp_mono (report_of_none result)
                intro _ s' same
                rw [same.1]
                exact .same
            | some res =>
                refine returned_of_steps (fun s' => Course s _ treq.tier _ (s'.tiers treq.tier))
                  step killed ?_
                refine wp_bind.mpr (wp_get.mpr ?_)
                rw [live]
                dsimp only
                rw [report_of_some result]
                refine wp_seq (trResult_course (whole.active_of_req found)
                  (Option.isSome_of_eq_some found) cur ⟨id, r, random, treq, rfl, live, rfl, result⟩) ?_
                intro _ s₁ course
                apply wp_mono httptrFree_effect
                intro _ s' same
                rw [same.1]
                exact course
          · dsimp only
            rw [if_neg here]
            apply apart (Ne.symm here)
            refine returned_of_steps (Only treq.tier s) step killed ?_
            refine wp_bind.mpr (wp_get.mpr ?_)
            rw [live]
            exact wp_mono (wp_of_strict (report_wp whole live)) fun _ _ kept => kept.2
  | timer j =>
      refine returned_of_steps (fun s' => Course s _ i [] (s'.tiers i)) step killed ?_
      refine wp_bind.mpr (wp_get.mpr ?_)
      rw [wp_when]
      split
      case isFalse => exact .same
      case isTrue pending =>
        by_cases here : i = j
        · rw [here]
          exact tierTimerCb_course (whole.active_of_timer pending)
        · apply wp_mono (wp_of_strict (tierTimerCb_wp whole pending))
          rintro - s' ⟨-, only, -⟩
          rw [only.others i here]
          exact .same
  | start =>
      dsimp only [Event.told]
      refine returned_of_steps (fun s' => Course s _ i _ (s'.tiers i)) step killed ?_
      refine wp_bind.mpr (wp_get.mpr ?_)
      rw [wp_when]
      split
      case isFalse => exact .same
      case isTrue starting =>
        rw [wp_bind, wp_modify]
        have started : trStart.wp whenReturns []
            (fun _ s' => ∀ i, Course s .start i [.begun] (s'.tiers i)) { s with starting := false } :=
          trStart_course starting rfl rfl
        exact wp_mono started fun _ _ course => course i
  | stop j =>
      refine returned_of_steps (fun s' => Course s _ i [] (s'.tiers i)) step killed ?_
      by_cases here : i = j
      · rw [here]
        exact tierStop_course
      · apply wp_mono (wp_of_strict (tierStop_wp whole))
        rintro - s' ⟨-, only, -⟩
        rw [only.others i here]
        exact .same
  | complete j =>
      dsimp only [Event.told]
      refine returned_of_steps (fun s' => Course s _ i _ (s'.tiers i)) step killed ?_
      by_cases here : j = i
      · rw [here]
        rw [if_pos rfl]
        exact tierComplete_course
      · rw [if_neg here]
        apply wp_mono (wp_of_strict (tierComplete_wp whole))
        rintro - s' ⟨-, only, -⟩
        rw [only.others i (Ne.symm here)]
        exact .same
  | kill =>
      exact returned_of_steps (fun s' => Course s _ i [] (s'.tiers i)) step killed
        (wp_mono trKill_course fun _ _ course => course i)
  | others mTlastReq mTnextReq btpdSeconds =>
      refine returned_of_steps (fun s' => Course s _ i [] (s'.tiers i)) step killed ?_
      exact wp_modify.mpr .same

/-! ## What a step sends -/

variable {t t' : Tier} {busy : Prop} {x k : Nat}

theorem sentBy_of_free (free : t.req = none) : sentBy k t = [] := by
  unfold sentBy
  rw [free]

/-- A request that was made before is no new one. -/
theorem sentBy_of_old (whole : s.Whole none) (i : Fin n) :
    sentBy s.nextReq (s.tiers i) = [] := by
  cases out : (s.tiers i).req with
  | none => exact sentBy_of_free out
  | some id =>
      have old : ¬s.nextReq ≤ id := by
        intro new
        rcases whole.parts.req i id out with ⟨-, -, treq, live, -⟩
        rw [whole.parts.fresh id new] at live
        cases live
      unfold sentBy
      rw [out]
      cases (s.tiers i).cur with
      | none => rfl
      | some c => exact if_neg old

theorem Dispatch.sentBy (sends : Dispatch s busy (some x) ev t t') :
    (busy ∧ t'.req = none ∧ sentBy s.nextReq t' = []) ∨
      (¬busy ∧ sentBy s.nextReq t' = [.sent x ev]) := by
  rcases sends with ⟨timer, req, rfl, ⟨busy, rfl⟩ | ⟨idle, id, new, rfl⟩⟩
  · exact Or.inl ⟨busy, rfl, rfl⟩
  · exact Or.inr ⟨idle, if_pos new⟩

/-- What a tier is told is neither a request nor a round. -/
theorem not_told (e : Event n) (s : Trackers n) (i : Fin n) :
    .round ∉ e.told s i ∧ ∀ c ev, .sent c ev ∉ e.told s i := by
  have nothing : Entry.round ∉ [] ∧ ∀ c ev, Entry.sent c ev ∉ [] := ⟨nofun, fun _ _ => nofun⟩
  cases e with
  | report id r random =>
      dsimp only [Event.told]
      split
      · exact nothing
      split
      · split
        · exact nothing
        · unfold Tier.failing
          split
          · simp
          · exact nothing
      · exact nothing
  | start =>
      dsimp only [Event.told]
      split
      · simp
      · exact nothing
  | complete j =>
      dsimp only [Event.told, Tier.completed]
      split
      · split
        · simp
        · exact nothing
      · exact nothing
  | timer j => exact nothing
  | stop j => exact nothing
  | kill => exact nothing
  | others mTlastReq mTnextReq btpdSeconds => exact nothing

/-- What a tier is told, and the rounds that it begins, are no requests. -/
theorem sent_not_mem (c : Nat) (ev : TrEvent) : .sent c ev ∉ roundOf t t' ++ e.told s i := by
  intro mem
  rcases List.mem_append.mp mem with mem | mem
  · unfold roundOf at mem
    split at mem
    · simp at mem
    · cases mem
  · exact (not_told e s i).2 c ev mem

theorem sentBy_cases (k : Nat) (t : Tier) :
    sentBy k t = [] ∨ ∃ c ev, sentBy k t = [.sent c ev] := by
  unfold sentBy
  split
  · split
    · exact Or.inr ⟨_, _, rfl⟩
    · exact Or.inl rfl
  · exact Or.inl rfl

end Btpd.Tracker
