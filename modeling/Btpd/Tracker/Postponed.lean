import Btpd.Tracker.Runs

/-!
# Requests that are put off

`entry_send` notes the tracker and the event of a request in the tier before it looks at the
clock, and sends the request to just that tracker if no other request was sent in the same
second.  Otherwise it leaves the request to the timer, whose callback looks for the first
tracker that has not failed.  Only where that is the tracker that was noted is the request
made to the tracker it was meant for.
-/

namespace Btpd.Tracker

open Prog

variable {n : Nat} {s s' : Trackers n} {i j : Fin n} {e : Option Nat} {ev : TrEvent} {c : Nat}
  {random : Nat} {res : TrResponse} {t : Tier}

/-- Another request was sent in the same second. -/
def Trackers.Busy (s : Trackers n) : Prop := s.btpdSeconds - reqDelay < s.mTlastReq

instance : Decidable s.Busy := inferInstanceAs (Decidable (_ < _))

/-- What `tr_result` is called with when a request calls back. -/
def Report.result (treq : HttptrReq n) : Report → Option TrResponse
  | .http .err => some (.plain .bad)
  | .http (.data length) =>
      if maxDownload < treq.off + length then some (.plain .bad) else none
  | .http (.done reply) => some (if treq.event = .stopped then .plain .ok else reply)
  | .timeout => some (.plain .conn)
  | .connect error => if error = true then some (.plain .conn) else none

/-- The tier has chosen the first tracker that has not failed. -/
def Tier.First (t : Tier) : Prop := t.trackers.find? t.nonfailed = t.cur

/-- After a connection failure of `c` the tier goes on with the first tracker that has not
failed: there is no other behind `c`, and a second round begins with it. -/
def Tier.Aims (t : Tier) (c : Nat) : Prop :=
  match t.nextNonfailed c with
  | some e => t.trackers.find? t.nonfailed = some e
  | none => t.badConns = 0 → t.trackers.find? t.nonfailed = t.trackers.head?

/-- The tier with a tracker that has failed. -/
def Tier.fails (t : Tier) (c : Nat) (res : TrResponse) : Tier :=
  { t with failure := Function.update t.failure c (some res.miFailure) }

/-- A result after which a tier goes on with the first tracker that has not failed, if it goes
on. -/
def Tier.ResultAims (t : Tier) (res : TrResponse) : Prop :=
  match t.cur, res.type with
  | some c, .conn => t.Aims c
  | some c, .fail => (t.fails c res).allFailed = false → (t.fails c res).Aims c
  | _, _ => True

/-- The event puts off no request to a tracker other than the first one that has not failed. -/
def Aimed (s : Trackers n) : Event n → Prop
  | .report id r _ =>
      match s.reqs id with
      | none => True
      | some treq =>
          match r.result treq with
          | none => True
          | some res => s.killed = false → s.Busy → (s.tiers treq.tier).ResultAims res
  | .complete i => s.killed = false → s.Busy → (s.tiers i).active = true →
      (s.tiers i).event = .empty →
        (s.tiers i).trackers.find? (s.tiers i).nonfailed = (s.tiers i).trackers.head?
  | _ => True

instance : Decidable (t.Aims c) :=
  match next : t.nextNonfailed c with
  | some e => decidable_of_iff (t.trackers.find? t.nonfailed = some e) (by simp [Tier.Aims, next])
  | none => decidable_of_iff (t.badConns = 0 → t.trackers.find? t.nonfailed = t.trackers.head?)
      (by simp [Tier.Aims, next])

instance : Decidable (t.ResultAims res) :=
  match cur : t.cur, type : res.type with
  | some c, .conn => decidable_of_iff (t.Aims c) (by simp [Tier.ResultAims, cur, type])
  | some c, .fail => decidable_of_iff ((t.fails c res).allFailed = false → (t.fails c res).Aims c)
      (by simp [Tier.ResultAims, cur, type])
  | some _, .bad | some _, .ok | none, _ => .isTrue (by simp [Tier.ResultAims, cur, type])

instance : ∀ e : Event n, Decidable (Aimed s e)
  | .report id r _ =>
      match live : s.reqs id with
      | none => .isTrue (by simp [Aimed, live])
      | some treq =>
          match result : r.result treq with
          | none => .isTrue (by simp [Aimed, live, result])
          | some res => decidable_of_iff
              (s.killed = false → s.Busy → (s.tiers treq.tier).ResultAims res)
              (by simp [Aimed, live, result])
  | .complete i => inferInstanceAs (Decidable (s.killed = false → s.Busy → _ → _ → _))
  | .timer _ | .start | .stop _ | .kill | .others .. => .isTrue trivial

/-- The event concerns the tier. -/
def Event.Concerns (s : Trackers n) (i : Fin n) : Event n → Prop
  | .report id _ _ => ∃ treq, s.reqs id = some treq ∧ treq.tier = i
  | .timer j | .stop j | .complete j => j = i
  | .start => True
  | .kill | .others .. => False

/-- The event puts off a request of the tier: `m_tnext_req` grows just where `entry_send`
leaves a request to the timer. -/
structure PutsOff (s : Trackers n) (e : Event n) (s' : Trackers n) (i : Fin n) : Prop where
  concerns : e.Concerns s i
  later : s.mTnextReq < s'.mTnextReq
  pending : (s'.tiers i).timer.isSome = true

/-! ## Sending -/

/-- What `entry_send` does: the tracker and the event are noted, and the request is made, or
left to the timer if the clock says so. -/
structure Sends (i : Fin n) (e : Option Nat) (ev : TrEvent) (s s' : Trackers n) : Prop where
  tier : ∃ timer req,
    s'.tiers i = { s.tiers i with event := ev, cur := e, timer := timer, req := req } ∧
      ((s.Busy ∧ timer.isSome = true ∧ req = none ∧ s.mTnextReq < s'.mTnextReq) ∨
        (¬s.Busy ∧ timer = none ∧ req = some s.nextReq ∧
          s'.reqs s.nextReq = some ⟨i, ev, 0, false⟩ ∧ s'.mTnextReq = s.mTnextReq))
  others : ∀ j, j ≠ i → s'.tiers j = s.tiers j

theorem getTier_wp {post : Tier → Trackers n → Prop} :
    (getTier i).wp whenReturns [] post s ↔ post (s.tiers i) s := by
  unfold getTier
  rw [wp_bind, wp_get, wp_pure]

theorem setTier_wp {f : Tier → Tier} {post : Unit → Trackers n → Prop} :
    (setTier i f).wp whenReturns [] post s ↔ post () (s.setTier i f) := wp_modify

/-- Nothing but the requests and that of the tier is touched by a cancellation. -/
theorem cancelReq_effect :
    (cancelReq i).wp whenReturns [] (fun _ s' => s'.tiers i = { s.tiers i with req := none } ∧
      (∀ j, j ≠ i → s'.tiers j = s.tiers j) ∧ s'.mTnextReq = s.mTnextReq ∧
      s'.mTlastReq = s.mTlastReq ∧ s'.btpdSeconds = s.btpdSeconds ∧ s'.nextReq = s.nextReq) s := by
  unfold cancelReq
  rw [wp_bind, getTier_wp]
  split
  case h_1 free =>
    refine wp_pure.mpr ⟨?_, fun _ _ => rfl, rfl, rfl, rfl, rfl⟩
    rw [← free]
  case h_2 id found =>
    unfold reqCancel httptrCancel httptrFree
    rw [wp_bind, getTier_wp, wp_bind, wp_assert]
    split
    case isFalse => trivial
    rw [wp_bind, wp_bind, wp_get, wp_bind, wp_assert]
    split
    case isFalse => trivial
    rw [wp_modify, setTier_wp]
    exact ⟨setTier_self, fun j ne => setTier_of_ne ne, rfl, rfl, rfl, rfl⟩

/-- The state in which `entry_send` has noted the tracker and the event. -/
structure Noted (i : Fin n) (e : Option Nat) (ev : TrEvent) (s s' : Trackers n) : Prop where
  tier : s'.tiers i = { s.tiers i with req := none, event := ev, cur := e }
  others : ∀ j, j ≠ i → s'.tiers j = s.tiers j
  mTnextReq : s'.mTnextReq = s.mTnextReq
  busy : s'.Busy ↔ s.Busy
  nextReq : s'.nextReq = s.nextReq

theorem Noted.later (noted : Noted i e ev s s') (busy : s'.Busy) :
    (do
      modify fun s => { s with mTnextReq := max s.mTnextReq s.mTlastReq + reqDelay }
      let s ← get
      setTier i fun t => { t with timer := some (s.mTnextReq - s.btpdSeconds) }
        : Routine n Unit).wp whenReturns [] (fun _ s' => Sends i e ev s s') s' := by
  rw [wp_bind, wp_modify, wp_bind, wp_get, setTier_wp]
  refine ⟨⟨some (max s'.mTnextReq s'.mTlastReq + reqDelay - s'.btpdSeconds), none, ?_,
    .inl ⟨noted.busy.mp busy, rfl, rfl, ?_⟩⟩, fun j ne => ?_⟩
  · rw [setTier_self]
    dsimp only
    rw [noted.tier]
  · change s.mTnextReq < max s'.mTnextReq s'.mTlastReq + reqDelay
    rw [noted.mTnextReq]
    unfold reqDelay
    omega
  · exact (setTier_of_ne ne).trans (noted.others j ne)

theorem Noted.now (noted : Noted i e ev s s') (free : ¬s'.Busy) :
    (do
      setTier i fun t => { t with timer := none }
      let id ← reqSend i
      setTier i fun t => { t with req := some id }
      modify fun s => { s with mTlastReq := s.btpdSeconds }
        : Routine n Unit).wp whenReturns [] (fun _ s' => Sends i e ev s s') s' := by
  rw [wp_bind, setTier_wp]
  unfold reqSend httptrReq
  rw [wp_bind, wp_bind, getTier_wp, wp_bind, wp_assert]
  split
  case isFalse => trivial
  rw [wp_bind, wp_get, wp_bind, wp_modify, wp_pure, wp_bind, setTier_wp, wp_modify]
  refine ⟨⟨none, some s.nextReq, ?_,
    .inr ⟨fun busy => free (noted.busy.mpr busy), rfl, rfl, ?_, noted.mTnextReq⟩⟩, fun j ne => ?_⟩
  · dsimp only
    rw [setTier_self]
    dsimp only
    rw [setTier_self, noted.tier]
    exact congrArg (fun id => ({ s.tiers i with
      event := ev, cur := e, timer := none, req := some id } : Tier)) noted.nextReq
  · change Function.update s'.reqs s'.nextReq _ s.nextReq = _
    rw [noted.nextReq, Function.update_self, setTier_self, noted.tier]
  · dsimp only
    rw [setTier_of_ne ne]
    dsimp only
    rw [setTier_of_ne ne]
    exact noted.others j ne

theorem entrySend_sends :
    (entrySend i e ev).wp whenReturns [] (fun _ s' => Sends i e ev s s') s := by
  unfold entrySend
  refine wp_seq cancelReq_effect fun _ s₁ ⟨tier, others, tnext, tlast, seconds, nextReq⟩ => ?_
  have noted : Noted i e ev s (s₁.setTier i fun t => { t with event := ev, cur := e }) := by
    refine ⟨?_, fun j ne => (setTier_of_ne ne).trans (others j ne), tnext, ?_, nextReq⟩
    · rw [setTier_self, tier]
    · unfold Trackers.Busy Trackers.setTier
      rw [tlast, seconds]
  rw [wp_bind, setTier_wp, wp_bind, wp_get]
  split
  case isTrue busy => exact noted.later busy
  case isFalse free => exact noted.now free

/-! ## What is put off -/

/-- Nothing is put off, or the tier has chosen the first tracker that has not failed. -/
def Direct (i : Fin n) (s s' : Trackers n) : Prop :=
  s'.mTnextReq = s.mTnextReq ∨ (s'.tiers i).First

theorem Sends.first (sends : Sends i e ev s s')
    (aims : (s.tiers i).trackers.find? (s.tiers i).nonfailed = e) : (s'.tiers i).First := by
  obtain ⟨timer, req, tier, -⟩ := sends.tier
  unfold Tier.First
  rw [tier]
  exact aims

theorem Sends.direct (sends : Sends i e ev s s')
    (aims : s.Busy → (s.tiers i).trackers.find? (s.tiers i).nonfailed = e) : Direct i s s' := by
  obtain ⟨timer, req, tier, ⟨busy, -⟩ | ⟨-, -, -, -, same⟩⟩ := sends.tier
  · exact .inr (sends.first (aims busy))
  · exact .inl same

theorem entrySend_direct
    (aims : s.Busy → (s.tiers i).trackers.find? (s.tiers i).nonfailed = e) :
    (entrySend i e ev).wp whenReturns [] (fun _ s' => Direct i s s') s :=
  wp_mono entrySend_sends fun _ _ sends => sends.direct aims

/-- A tier that was changed in a field that does not matter before it sends. -/
theorem entrySend_direct_of {s₁ : Trackers n} (clock : s₁.mTnextReq = s.mTnextReq)
    (aims : s₁.Busy → (s₁.tiers i).trackers.find? (s₁.tiers i).nonfailed = e) :
    (entrySend i e ev).wp whenReturns [] (fun _ s' => Direct i s s') s₁ := by
  refine wp_mono (entrySend_direct aims) fun _ s' direct => ?_
  unfold Direct at direct ⊢
  rw [clock] at direct
  exact direct

theorem outOfEntries_direct
    (aims : s.Busy → (s.tiers i).badConns = 0 →
      (s.tiers i).trackers.find? (s.tiers i).nonfailed = (s.tiers i).trackers.head?) :
    (outOfEntries i random).wp whenReturns [] (fun _ s' => Direct i s s') s := by
  unfold outOfEntries
  rw [wp_bind, setTier_wp, wp_bind, getTier_wp]
  split
  · exact setTier_wp.mpr (.inl rfl)
  split
  case isTrue first =>
    rw [setTier_self] at first ⊢
    refine entrySend_direct_of rfl fun busy => ?_
    rw [setTier_self]
    exact aims busy (Nat.succ.inj first)
  split
  · exact setTier_wp.mpr (.inl rfl)
  · exact setTier_wp.mpr (.inl rfl)

theorem resConn_direct (aims : s.Busy → (s.tiers i).Aims c) :
    (resConn i c random).wp whenReturns [] (fun _ s' => Direct i s s') s := by
  unfold resConn
  unfold Tier.Aims at aims
  rw [wp_bind, getTier_wp]
  split
  case h_1 e next =>
    rw [next] at aims
    exact entrySend_direct aims
  case h_2 next =>
    rw [next] at aims
    exact outOfEntries_direct aims

theorem resFail_direct
    (aims : s.Busy → ((s.tiers i).fails c res).allFailed = false →
      ((s.tiers i).fails c res).Aims c) :
    (resFail i c res random).wp whenReturns [] (fun _ s' => Direct i s s') s := by
  unfold resFail
  rw [wp_bind, setTier_wp, wp_bind, getTier_wp]
  split
  · exact setTier_wp.mpr (.inl rfl)
  · rename_i some_left
    rw [setTier_self] at some_left
    refine resConn_direct fun busy => ?_
    rw [setTier_self]
    exact aims busy (Bool.not_eq_true _ ▸ some_left)

theorem resOk_direct : (resOk i c res random).wp whenReturns [] (fun _ s' => Direct i s s') s := by
  unfold resOk
  rw [wp_bind, setTier_wp, setTier_wp]
  exact .inl rfl

theorem trResult_direct (aims : s.Busy → (s.tiers i).ResultAims res) :
    (trResult i res random).wp whenReturns [] (fun _ s' => Direct i s s') s := by
  unfold trResult
  rw [wp_bind, setTier_wp, wp_bind, getTier_wp, setTier_self]
  dsimp only
  unfold Tier.ResultAims at aims
  split
  case h_1 => exact wp_fault.mpr trivial
  case h_2 cur found =>
    rw [found] at aims
    cases type : res.type with
    | fail =>
        rw [type] at aims
        refine resFail_direct fun busy => ?_
        rw [setTier_self]
        exact aims busy
    | conn =>
        rw [type] at aims
        refine resConn_direct fun busy => ?_
        rw [setTier_self]
        exact aims busy
    | bad => exact resOk_direct
    | ok => exact resOk_direct

variable {id : Nat} {treq : HttptrReq n} {r : Report}

/-- A report without a result leaves the tiers as they are. -/
theorem report_of_none (none : r.result treq = none) :
    (report id treq random r).wp whenReturns [] (fun _ s' => s'.tiers = s.tiers ∧
      s'.mTnextReq = s.mTnextReq) s := by
  cases r with
  | http res =>
      cases res with
      | err => cases none
      | data length =>
          dsimp only [Report.result] at none
          have fits : ¬maxDownload < treq.off + length := fun more => by
            rw [if_pos more] at none
            cases none
          unfold report httpCb httpData
          dsimp only
          rw [if_neg fits]
          exact wp_modify.mpr ⟨rfl, rfl⟩
      | done reply => cases none
  | timeout => cases none
  | connect error =>
      cases error with
      | true => cases none
      | false => exact wp_modify.mpr ⟨rfl, rfl⟩

/-- A report with a result hands it to the tier, and its request is freed. -/
theorem report_of_some (result : r.result treq = some res) :
    report id treq random r = (do
      trResult treq.tier res random
      httptrFree id) := by
  cases r with
  | http res' =>
      cases res' with
      | err =>
          cases result
          rfl
      | data length =>
          dsimp only [Report.result] at result
          unfold report httpCb httpData
          dsimp only
          split at result
          case isTrue more =>
            cases result
            rw [if_pos more]
            rfl
          case isFalse => cases result
      | done reply =>
          cases result
          rfl
  | timeout =>
      cases result
      rfl
  | connect error =>
      cases error with
      | true =>
          cases result
          rfl
      | false => cases result

theorem httptrFree_effect :
    (httptrFree id : Routine n Unit).wp whenReturns [] (fun _ s' => s'.tiers = s.tiers ∧
      s'.mTnextReq = s.mTnextReq ∧ ∀ id', id' ≠ id → s'.reqs id' = s.reqs id') s := by
  unfold httptrFree
  rw [wp_bind, wp_get, wp_bind, wp_assert]
  split
  · exact wp_modify.mpr ⟨rfl, rfl, fun id' ne => Function.update_of_ne ne ..⟩
  · trivial

theorem report_direct (aims : ∀ res, r.result treq = some res → s.Busy →
    (s.tiers treq.tier).ResultAims res) :
    (report id treq random r).wp whenReturns [] (fun _ s' => Direct treq.tier s s') s := by
  cases result : r.result treq with
  | none => exact wp_mono (report_of_none result) fun _ s' same => .inl same.2
  | some res =>
      rw [report_of_some result]
      refine wp_seq (trResult_direct (aims res result)) fun _ s₁ direct => ?_
      refine wp_mono httptrFree_effect fun _ s' ⟨tiers, same, _⟩ => ?_
      unfold Direct
      rw [tiers, same]
      exact direct

/-- The timer callback sends to the first tracker that has not failed, with the event that
the tier has noted. -/
theorem tierTimerCb_sends : (tierTimerCb i).wp whenReturns [] (fun _ s' =>
    Sends i ((s.tiers i).trackers.find? (s.tiers i).nonfailed) (s.tiers i).event s s') s := by
  unfold tierTimerCb firstNonfailed
  rw [wp_bind, getTier_wp, wp_bind, wp_assert]
  split
  case isFalse => trivial
  rw [wp_bind]
  split
  case h_1 e found =>
    rw [wp_pure, found]
    exact entrySend_sends
  case h_2 => exact wp_fault.mpr trivial

/-- The first tracker that has not failed is the first one when none has. -/
theorem tierStart_first : (tierStart i).wp whenReturns [] (fun _ s' =>
    (s'.tiers i).First ∧ ∀ j, j ≠ i → s'.tiers j = s.tiers j) s := by
  unfold tierStart
  rw [wp_bind, getTier_wp, wp_bind, wp_assert]
  split
  case isFalse => trivial
  rw [wp_bind, setTier_wp]
  refine wp_mono entrySend_sends fun _ s' sends => ⟨sends.first ?_, fun j ne => ?_⟩
  · rw [setTier_self]
    dsimp only
    cases (s.tiers i).trackers <;> rfl
  · exact (sends.others j ne).trans (setTier_of_ne ne)

theorem tierStop_direct : (tierStop i).wp whenReturns [] (fun _ s' => Direct i s s') s := by
  unfold tierStop
  rw [wp_bind, getTier_wp]
  split
  · exact wp_pure.mpr (.inl rfl)
  split
  · unfold giveUp
    rw [wp_bind, setTier_wp]
    refine wp_seq cancelReq_effect fun _ s₁ ⟨_, _, same, _⟩ => setTier_wp.mpr (.inl same)
  · unfold firstNonfailed
    rw [wp_bind]
    split
    case h_1 e found =>
      rw [wp_pure]
      exact entrySend_direct fun _ => found
    case h_2 => exact wp_fault.mpr trivial

theorem tierComplete_direct (aims : s.Busy → (s.tiers i).active = true →
    (s.tiers i).event = .empty →
      (s.tiers i).trackers.find? (s.tiers i).nonfailed = (s.tiers i).trackers.head?) :
    (tierComplete i).wp whenReturns [] (fun _ s' => Direct i s s') s := by
  unfold tierComplete
  rw [wp_bind, getTier_wp, wp_when]
  split
  case isTrue due => exact entrySend_direct fun busy => aims busy due.1 due.2
  case isFalse => exact .inl rfl

theorem trStart_first :
    trStart.wp whenReturns [] (fun _ s' => ∀ i, (s'.tiers i).First) s := by
  have loop : wp whenReturns [] (forEach (List.finRange n) tierStart) _ s := wp_forEach
    (fun rest s' => ∀ j, j ∉ rest → (s'.tiers j).First)
    (fun x rest s₁ _ held => ?_) (fun j out => absurd (List.mem_finRange j) out)
  · exact wp_mono loop fun _ s' held i => held i List.not_mem_nil
  · refine wp_mono tierStart_first fun _ s' ⟨first, others⟩ j out => ?_
    by_cases same : j = x
    · rw [same]
      exact first
    · rw [others j same]
      refine held j fun mem => ?_
      exact (List.mem_cons.mp mem).elim same out

/-- A step of a torrent whose trackers have not been killed. -/
theorem returned_of_steps {e : Event n} (post : Trackers n → Prop)
    (step : (torrentTrackers n).Steps (fun _ => False) s e s')
    (alive : s.killed = false) (met : (act e).wp whenReturns [] (fun _ s' => post s') s) :
    post s' := by
  refine step.returned post ?_
  change (handle e).wp whenReturns [] _ s
  unfold handle
  rw [wp_bind, wp_get, wp_when, if_pos alive]
  exact met

theorem eq_of_killed {e : Event n} (step : (torrentTrackers n).Steps (fun _ => False) s e s')
    (killed : s.killed = true) : s' = s := by
  refine step.returned (fun s' => s' = s) ?_
  change (handle e).wp whenReturns [] _ s
  unfold handle
  rw [wp_bind, wp_get, wp_when, if_neg (by simp [killed])]

/-- A request that is put off is meant for the first tracker that has not failed. -/
theorem first_of_putsOff {e : Event n} (aimed : Aimed s e)
    (step : (torrentTrackers n).Steps (fun _ => False) s e s') (off : PutsOff s e s' i) :
    (s'.tiers i).First := by
  cases killed : s.killed with
  | true =>
      have later := off.later
      rw [eq_of_killed step killed] at later
      omega
  | false =>
      have direct : Direct i s s' → (s'.tiers i).First := fun direct =>
        direct.resolve_left (ne_of_gt off.later)
      cases e with
      | report id r random =>
          obtain ⟨treq, live, rfl⟩ := off.concerns
          refine direct (returned_of_steps (Direct treq.tier s) step killed ?_)
          dsimp only [Aimed] at aimed
          rw [live] at aimed
          refine wp_bind.mpr (wp_get.mpr ?_)
          rw [live]
          refine report_direct fun res result => ?_
          dsimp only at aimed
          rw [result] at aimed
          exact aimed killed
      | timer j =>
          cases off.concerns
          refine direct (returned_of_steps (Direct i s) step killed ?_)
          refine wp_bind.mpr (wp_get.mpr ?_)
          rw [wp_when]
          split
          case isFalse => exact .inl rfl
          case isTrue =>
            rw [wp_bind, setTier_wp]
            refine wp_mono tierTimerCb_sends fun _ s' sends => ?_
            exact sends.direct fun _ => rfl
      | start =>
          have started : s'.mTnextReq = s.mTnextReq ∨ ∀ i, (s'.tiers i).First := by
            refine returned_of_steps (fun s' => s'.mTnextReq = s.mTnextReq ∨
              ∀ i, (s'.tiers i).First) step killed ?_
            refine wp_bind.mpr (wp_get.mpr ?_)
            rw [wp_when]
            split
            · rw [wp_bind, wp_modify]
              exact wp_mono trStart_first fun _ _ first => .inr first
            · exact .inl rfl
          exact started.resolve_left (ne_of_gt off.later) i
      | stop j =>
          cases off.concerns
          exact direct (returned_of_steps (Direct i s) step killed
            tierStop_direct)
      | complete j =>
          cases off.concerns
          exact direct (returned_of_steps (Direct i s) step killed
            (tierComplete_direct (aimed killed)))
      | kill => exact off.concerns.elim
      | others => exact off.concerns.elim

/-- What the timer of a tier does when it fires. -/
theorem sends_of_timer (alive : s.killed = false) (pending : (s.tiers i).timer.isSome = true)
    (step : (torrentTrackers n).Steps (fun _ => False) s (.timer i) s') :
    Sends i ((s.tiers i).trackers.find? (s.tiers i).nonfailed) (s.tiers i).event s s' := by
  refine returned_of_steps (Sends i _ (s.tiers i).event s) step alive ?_
  refine wp_bind.mpr (wp_get.mpr ?_)
  rw [wp_when, if_pos pending, wp_bind, setTier_wp]
  refine wp_mono tierTimerCb_sends fun _ s' sends => ?_
  obtain ⟨timer, req, tier, sent⟩ := sends.tier
  rw [setTier_self] at tier
  refine ⟨⟨timer, req, ?_, ?_⟩, fun j ne => (sends.others j ne).trans (setTier_of_ne ne)⟩
  · exact tier
  · rw [setTier_self] at sent
    exact sent

end Btpd.Tracker
