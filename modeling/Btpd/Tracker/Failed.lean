import Btpd.Tracker.Log

/-!
# Trackers that have failed

A tier chooses the next tracker in five places.  Two of them take the first one of the list,
whether it has failed or not: the second round after the last tracker has failed, and the
announcement that the download is complete.  Where these do not come upon a tracker that has
answered with a failure reason, no request goes to such a tracker.
-/

namespace Btpd.Tracker

open Prog

variable {n : Nat} {s s' : Trackers n} {i : Fin n} {c : Nat} {e : Event n} {ev : TrEvent}
  {told older : List Entry} {t t' : Tier} {steps : List (System.Taken (Trackers n) (Event n))}

/-! ## The log -/

/-- The tracker has answered with a failure reason since the tier was started. -/
def FailedSince (c : Nat) : List Entry → Prop
  | [] => False
  | .begun :: _ => False
  | .failed d :: older => d = c ∨ FailedSince c older
  | .completed .. :: older | .round :: older | .sent .. :: older => FailedSince c older

/-- No request goes to a tracker that has failed. -/
def SparesFailed (entries : List Entry) : Prop :=
  System.Never (fun entry older => ∃ c ev, entry = .sent c ev ∧ FailedSince c older) entries

/-! ## The condition -/

/-- The first tracker of the list has not failed. -/
def Tier.HeadSpared (t : Tier) : Prop := ∀ c, t.trackers.head? = some c → t.failure c = none

/-- If the answer makes the tier begin a second round, it can begin with the first tracker of
the list. -/
def Tier.AnswerSpares (t : Tier) (res : TrResponse) : Prop :=
  ∀ c, t.cur = some c → t.Tries c res → (t.answered c res).nextNonfailed c = none →
    t.badConns = 0 → (t.answered c res).HeadSpared

/-- The event makes no request to the first tracker of the list of a tier that has failed. -/
def SparesHead (s : Trackers n) : Event n → Prop
  | .report id r _ => ∀ treq res, s.reqs id = some treq → r.result treq = some res →
      ¬s.Busy → (s.tiers treq.tier).AnswerSpares res
  | .complete i => ¬s.Busy → (s.tiers i).active = true → (s.tiers i).event = .empty →
      (s.tiers i).HeadSpared
  | .timer _ | .start | .stop _ | .kill | .others .. => True

instance (t : Tier) : Decidable t.HeadSpared :=
  match head : t.trackers.head? with
  | none => .isTrue (by simp [Tier.HeadSpared, head])
  | some c => decidable_of_iff (t.failure c = none) (by simp [Tier.HeadSpared, head])

instance (t : Tier) (c : Nat) (res : TrResponse) : Decidable (t.Tries c res) :=
  inferInstanceAs (Decidable (_ ∨ _))

instance (t : Tier) (res : TrResponse) : Decidable (t.AnswerSpares res) :=
  match cur : t.cur with
  | none => .isTrue (by simp [Tier.AnswerSpares, cur])
  | some c => decidable_of_iff (t.Tries c res → (t.answered c res).nextNonfailed c = none →
      t.badConns = 0 → (t.answered c res).HeadSpared) (by simp [Tier.AnswerSpares, cur])

instance (s : Trackers n) : ∀ e : Event n, Decidable (SparesHead s e)
  | .report id r _ =>
      match live : s.reqs id with
      | none => .isTrue (by simp [SparesHead, live])
      | some treq =>
          match result : r.result treq with
          | none => .isTrue fun treq' res live' result' => by
              cases live.symm.trans live'
              cases result.symm.trans result'
          | some res => decidable_of_iff (¬s.Busy → (s.tiers treq.tier).AnswerSpares res)
              ⟨fun spares treq' res' live' result' => by
                cases live.symm.trans live'
                cases result.symm.trans result'
                exact spares, fun spares => spares treq res live result⟩
  | .complete i => decidable_of_iff (¬s.Busy → (s.tiers i).active = true →
      (s.tiers i).event = .empty → (s.tiers i).HeadSpared) Iff.rfl
  | .timer _ | .start | .stop _ | .kill | .others .. => .isTrue trivial

/-! ## One step -/

/-- The failures of a tier are those that the log tells. -/
def Agrees (entries : List Entry) (t : Tier) : Prop :=
  ∀ c, FailedSince c entries ↔ t.failure c ≠ none

theorem agrees_answered {res : TrResponse} (agrees : Agrees older t) (cur : t.cur = some c) :
    Agrees (t.failing res ++ older) (t.answered c res) := by
  intro d
  unfold Tier.failing Tier.answered
  split
  · rw [cur]
    by_cases same : d = c
    · subst same
      simp [FailedSince]
    · have others := agrees d
      simp only [Option.toList_some, List.map_cons, List.map_nil, List.cons_append,
        List.nil_append, FailedSince, Function.update_of_ne same]
      rw [or_iff_right (Ne.symm same)]
      exact others
  · exact agrees d

theorem agrees_completed (agrees : Agrees older t) : Agrees (t.completed ++ older) t := by
  unfold Tier.completed
  split
  · exact agrees
  · exact agrees

theorem agrees_of_failure (agrees : Agrees older t) (failure : t'.failure = t.failure) :
    Agrees older t' := by
  intro d
  rw [failure]
  exact agrees d

theorem Dispatch.failure {busy : Prop} {x : Option Nat} (sends : Dispatch s busy x ev t t') :
    t'.failure = t.failure := by
  rcases sends with ⟨timer, req, rfl, -⟩
  rfl

/-- What a step tells about the failures is what the tier notes. -/
theorem Course.agrees (course : Course s e i told t') (agrees : Agrees older (s.tiers i)) :
    Agrees (told ++ older) t' := by
  cases course with
  | same => exact agrees
  | missed => exact agrees_completed agrees
  | completes _ _ _ sends => exact agrees_of_failure (agrees_completed agrees) sends.failure
  | begins _ _ sends =>
      intro d
      rw [sends.failure]
      simp [FailedSince, Tier.reset]
  | ends failure => exact agrees_of_failure agrees failure
  | stops _ _ sends => exact agrees_of_failure agrees sends.failure
  | fires _ _ sends => exact agrees_of_failure agrees sends.failure
  | next _ _ cur _ sends => exact agrees_of_failure (agrees_answered agrees cur) sends.failure
  | again _ _ _ cur _ _ _ sends =>
      exact agrees_of_failure (agrees_answered agrees cur) sends.failure
  | waits res _ _ cur failure => exact agrees_of_failure (agrees_answered agrees cur) failure

/-- What is sent goes to a tracker that has not failed. -/
def SendsSpared (k : Nat) (t : Tier) : Prop :=
  ∀ c ev, .sent c ev ∈ sentBy k t → t.failure c = none

theorem sendsSpared_of_nil {k : Nat} (nothing : sentBy k t = []) : SendsSpared k t := by
  intro c ev mem
  rw [nothing] at mem
  cases mem

theorem Dispatch.spared {busy : Prop} {x : Nat} (sends : Dispatch s busy (some x) ev t t')
    (spared : ¬busy → t.failure x = none) : SendsSpared s.nextReq t' := by
  rcases sends.sentBy with ⟨-, -, nothing⟩ | ⟨idle, sent⟩
  · exact sendsSpared_of_nil nothing
  · intro c ev mem
    rw [sent] at mem
    cases List.mem_singleton.mp mem
    rw [sends.failure]
    exact spared idle

theorem spared_of_find {x : Nat} {trackers : List Nat}
    (first : trackers.find? t.nonfailed = some x) : t.failure x = none :=
  Option.isNone_iff_eq_none.mp (show t.nonfailed x = true from List.find?_some first)

theorem Dispatch.spared_head {busy : Prop} (sane : t.Sane)
    (sends : Dispatch s busy t.trackers.head? ev t t') (spared : ¬busy → t.HeadSpared) :
    SendsSpared s.nextReq t' := by
  rcases Tier.head_mem sane with ⟨x, head, -⟩
  rw [head] at sends
  exact sends.spared fun idle => spared idle x head

theorem trackers_answered (t : Tier) (c : Nat) (res : TrResponse) :
    (t.answered c res).trackers = t.trackers := by
  unfold Tier.answered
  split <;> rfl

/-- A step that meets the condition sends to no tracker that has failed. -/
theorem Course.spared (whole : s.Whole none) (spares : SparesHead s e)
    (course : Course s e i told t') : SendsSpared s.nextReq t' := by
  have sane := whole.parts.sane i
  cases course with
  | same => exact sendsSpared_of_nil (sentBy_of_old whole i)
  | missed => exact sendsSpared_of_nil (sentBy_of_old whole i)
  | completes isComplete active event sends =>
      subst isComplete
      exact sends.spared_head sane fun idle => spares idle active event
  | begins busy _ sends =>
      have spared : (s.tiers i).reset.HeadSpared := fun _ _ => rfl
      have sane : (s.tiers i).reset.Sane := ⟨sane.filled, sane.cur⟩
      exact Dispatch.spared_head sane sends fun _ => spared
  | ends _ _ req => exact sendsSpared_of_nil (sentBy_of_free req)
  | stops _ first sends => exact sends.spared fun _ => spared_of_find first
  | fires _ first sends => exact sends.spared fun _ => spared_of_find first
  | next _ _ _ found sends => exact sends.spared fun _ => spared_of_find found
  | again answers _ _ cur tries found badConns sends =>
      rcases answers with ⟨id, r, random, treq, rfl, live, rfl, result⟩
      rcases Tier.head_mem sane with ⟨x, head, -⟩
      have spared := spares treq _ live result
      rw [head] at sends
      apply sends.spared
      intro idle
      apply spared idle _ cur tries found badConns
      rw [trackers_answered]
      exact head
  | waits _ _ _ _ _ req => exact sendsSpared_of_nil (sentBy_of_free req)

/-! ## Runs -/

theorem failedSince_round {t t' : Tier} :
    FailedSince c (roundOf t t' ++ older) ↔ FailedSince c older := by
  unfold roundOf
  split
  · rfl
  · rfl

/-- In a run of which each event finds the first tracker of the list fit for what it sends
there, no request goes to a tracker that has answered with a failure reason since the tier
was started. -/
theorem sparesFailed_of_trail (trail : (torrentTrackers n).Trail steps s)
    (spares : ∀ step ∈ steps, SparesHead step.before step.event) (i : Fin n) :
    SparesFailed (log i steps) := by
  refine (trail.invariant (fun step => SparesHead step.before step.event)
    (fun steps s => SparesFailed (log i steps) ∧ Agrees (log i steps) (s.tiers i))
    ?_ ?_ spares).1
  · intro s begun
    refine ⟨?_, fun c => ?_⟩
    · exact System.never_nil
    · rw [(begun.tiers i).failure c]
      simp [log, FailedSince]
  · rintro steps s e s' before ⟨spared, agrees⟩ step met
    have inv := inv_of_reachable before.reachable
    have unfolded : log i (⟨s, e, s'⟩ :: steps) = entries i ⟨s, e, s'⟩ ++ log i steps := rfl
    rw [unfolded]
    unfold entries
    cases killed : s.killed with
    | true =>
        rw [if_pos rfl, eq_of_killed step killed]
        exact ⟨spared, agrees⟩
    | false =>
        have course := course_of_step inv killed step i
        have agrees' := course.agrees agrees
        have sends := course.spared (inv.whole killed) met
        have earlier : SparesFailed
            (roundOf (s.tiers i) (s'.tiers i) ++ e.told s i ++ log i steps) :=
          System.never_append (fun entry mem _ ⟨c, ev, sent, _⟩ =>
            sent_not_mem c ev (sent ▸ mem)) spared
        have noted : Agrees (roundOf (s.tiers i) (s'.tiers i) ++ e.told s i ++ log i steps)
            (s'.tiers i) := by
          intro c
          rw [List.append_assoc, failedSince_round]
          exact agrees' c
        rw [if_neg Bool.false_ne_true, List.append_assoc]
        show SparesFailed (sentBy s.nextReq (s'.tiers i) ++ _) ∧
          Agrees (sentBy s.nextReq (s'.tiers i) ++ _) (s'.tiers i)
        rcases sentBy_cases s.nextReq (s'.tiers i) with nothing | ⟨c, ev, sent⟩
        · rw [nothing]
          exact ⟨earlier, noted⟩
        · rw [sent]
          refine ⟨System.never_cons.mpr ⟨?_, earlier⟩, noted⟩
          rintro ⟨c', ev', ⟨⟩, failed⟩
          apply (noted c).mp failed
          apply sends c ev
          rw [sent]
          exact List.mem_singleton.mpr rfl

/-! ## Two trackers -/

theorem trail_twoTrackers : (torrentTrackers 1).Trail [] twoTrackers :=
  .start ⟨fun _ => ⟨nofun, fun _ => rfl, rfl, rfl, rfl, rfl, rfl, rfl, rfl, rfl⟩,
    fun _ => rfl, rfl, rfl⟩

/-- A reply with a failure reason. -/
def failureReply : Report := .http (.done ⟨.fail, [], -1⟩)

/-- The first tracker answers with a failure reason, and the second one is contacted. -/
theorem sparesFailed_of_trail_nextTracker : ∃ (steps : List (System.Taken (Trackers 1) (Event 1))),
    log 0 steps = [.sent 2 .started, .failed 1, .sent 1 .started, .begun] ∧
      SparesFailed (log 0 steps) := by
  rcases System.Trail.of_events (P := fun steps : List (System.Taken (Trackers 1) (Event 1)) =>
      log 0 steps = [.sent 2 .started, .failed 1, .sent 1 .started, .begun] ∧
        ∀ step ∈ steps, SparesHead step.before step.event)
    [.start, .others 10 10 20, .report 0 failureReply 0] trail_twoTrackers
    (by decide +kernel) with ⟨steps, s, trail, entries, spares⟩
  exact ⟨steps, entries, sparesFailed_of_trail trail spares 0⟩

/-- The second tracker refuses the connection as well, and the second round begins with the
first one. -/
theorem secondRound_failed : ∃ (steps : List (System.Taken (Trackers 1) (Event 1)))
    (s : Trackers 1), (torrentTrackers 1).Trail steps s ∧ ¬ SparesFailed (log 0 steps) := by
  rcases System.Trail.of_events (P := fun steps => log 0 steps =
      [.sent 1 .started, .sent 2 .started, .failed 1, .sent 1 .started, .begun])
    [.start, .others 10 10 20, .report 0 failureReply 0, .others 20 20 30,
      .report 1 (.connect true) 0] trail_twoTrackers (by decide +kernel) with
    ⟨steps, s, trail, entries⟩
  refine ⟨steps, s, trail, fun spares => ?_⟩
  apply spares [] _ _ entries
  exact ⟨1, .started, rfl, Or.inl rfl⟩

end Btpd.Tracker
