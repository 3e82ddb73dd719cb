import Btpd.Tracker.Failed

/-!
# The end of the download

A tier has one field for the event that its requests carry.  `tier_complete` writes the event
`completed` into it only when no other event is pending; a tier that is still starting learns
nothing of the end of the download.
-/

namespace Btpd.Tracker

open Prog

variable {n : Nat} {s s' : Trackers n} {i : Fin n} {e : Event n} {ev : TrEvent}
  {told older : List Entry} {t t' : Tier} {steps : List (System.Taken (Trackers n) (Event n))}

/-! ## The log -/

/-- Since the download was found complete no request with the event `completed` was sent;
`counts` selects the pending event, and whether a request was outstanding. -/
def Owed (counts : TrEvent → Bool → Prop) : List Entry → Prop
  | [] => False
  | .sent _ .completed :: _ => False
  | .completed event out :: older => counts event out ∨ Owed counts older
  | .sent _ .started :: older | .sent _ .stopped :: older | .sent _ .empty :: older
  | .begun :: older | .failed _ :: older | .round :: older => Owed counts older

/-- No regular request is sent while a request with the event `completed` is owed. -/
def Announces (counts : TrEvent → Bool → Prop) (entries : List Entry) : Prop :=
  System.Never (fun entry older => ∃ c, entry = .sent c .empty ∧ Owed counts older) entries

/-- Each round of requests with the event `completed` begins as the tier is told that the
download is complete. -/
def RoundsTold (entries : List Entry) : Prop :=
  System.Never (fun entry older => entry = .round ∧
    ¬ ∃ event out rest, older = .completed event out :: rest) entries

/-- The tier hears of the end of the download: no event is pending, or it is stopping, or
a request with the event `completed` has still to be sent. -/
def Hears (event : TrEvent) (out : Bool) : Prop :=
  event = .empty ∨ event = .stopped ∨ (event = .completed ∧ out = false)

/-! ## One step -/

/-- A tier that has still to announce the end of the download does so next, unless it is
stopped. -/
def Tier.Due (t : Tier) : Prop :=
  t.active = true → t.event = .stopped ∨ (t.event = .completed ∧ t.req = none)

theorem not_owed_sent {counts : TrEvent → Bool → Prop} {c : Nat} :
    ¬ Owed counts (.sent c .completed :: older) :=
  id

theorem owed_of_sent {counts : TrEvent → Bool → Prop} {c : Nat}
    (owed : Owed counts (.sent c ev :: older)) : Owed counts older := by
  cases ev with
  | completed => exact absurd owed not_owed_sent
  | started => exact owed
  | stopped => exact owed
  | empty => exact owed

theorem owed_of_failing {counts : TrEvent → Bool → Prop} {res : TrResponse}
    (owed : Owed counts (t.failing res ++ older)) : Owed counts older := by
  unfold Tier.failing at owed
  split at owed
  · cases cur : t.cur with
    | none =>
        rw [cur] at owed
        exact owed
    | some c =>
        rw [cur] at owed
        exact owed
  · exact owed

/-- A request that is left to the timer, or is a stop or announces the end of the download. -/
theorem Dispatch.due {busy : Prop} {x : Option Nat} (sends : Dispatch s busy x ev t t')
    (event : ev = .stopped ∨ (ev = .completed ∧ busy)) : t'.Due := by
  intro _
  rcases sends with ⟨timer, req, rfl, sent⟩
  rcases event with rfl | ⟨rfl, isBusy⟩
  · exact Or.inl rfl
  · rcases sent with ⟨-, rfl⟩ | ⟨idle, -⟩
    · exact Or.inr ⟨rfl, rfl⟩
    · exact absurd isBusy idle

theorem owed_of_completed {counts : TrEvent → Bool → Prop}
    (owed : Owed counts (t.completed ++ older)) :
    counts t.event t.req.isSome ∨ Owed counts older := by
  unfold Tier.completed at owed
  split at owed
  · exact owed
  · exact Or.inr owed

/-- What a step sends: no regular request, and if the end of the download is still to be
announced then, the tier is about to do so. -/
def Announcing (k : Nat) (t' : Tier) : Prop :=
  (∃ c, sentBy k t' = [.sent c .completed]) ∨ (t'.Due ∧ ∀ c, sentBy k t' ≠ [.sent c .empty])

theorem announcing_of_nil {k : Nat} (due : t'.Due) (nothing : sentBy k t' = []) :
    Announcing k t' := by
  refine Or.inr ⟨due, fun c => ?_⟩
  rw [nothing]
  exact List.cons_ne_nil _ _ ∘ Eq.symm

theorem Dispatch.announcing {busy : Prop} {x : Nat}
    (sends : Dispatch s busy (some x) ev t t') (event : ev = .stopped ∨ ev = .completed) :
    Announcing s.nextReq t' := by
  rcases event with rfl | rfl
  · have due : t'.Due := sends.due (Or.inl rfl)
    rcases sends.sentBy with ⟨-, -, nothing⟩ | ⟨-, sent⟩
    · exact announcing_of_nil due nothing
    · refine Or.inr ⟨due, fun c => ?_⟩
      rw [sent]
      simp
  · rcases sends.sentBy with ⟨isBusy, -, nothing⟩ | ⟨-, sent⟩
    · exact announcing_of_nil (sends.due (Or.inr ⟨rfl, isBusy⟩)) nothing
    · exact Or.inl ⟨x, sent⟩

/-- While the end of the download has to be announced, a tier whose request is answered is
stopping. -/
theorem Tier.Due.stopped (due : t.Due) (active : t.active = true)
    (out : t.req.isSome = true) : t.event = .stopped := by
  rcases due active with stopped | ⟨-, free⟩
  · exact stopped
  · rw [free] at out
    cases out

/-- A step while the end of the download has to be announced. -/
theorem Course.announcing (whole : s.Whole none) (running : s.starting = false)
    (course : Course s e i told t') (due : Owed Hears older → (s.tiers i).Due)
    (owed : Owed Hears (told ++ older)) : Announcing s.nextReq t' := by
  have sane := whole.parts.sane i
  have answered : ∀ {c res}, ((s.tiers i).answered c res).req = none := by
    intro c res
    unfold Tier.answered
    split <;> rfl
  cases course with
  | same => exact announcing_of_nil (due owed) (sentBy_of_old whole i)
  | missed active event =>
      apply announcing_of_nil _ (sentBy_of_old whole i)
      rcases owed_of_completed owed with (empty | stopped | ⟨completed, free⟩) | owed
      · exact absurd empty event
      · exact fun _ => Or.inl stopped
      · exact fun _ => Or.inr ⟨completed, Option.not_isSome_iff_eq_none.mp (by simp [free])⟩
      · exact due owed
  | completes _ _ _ sends =>
      rcases Tier.head_mem sane with ⟨x, head, -⟩
      rw [head] at sends
      exact sends.announcing (Or.inr rfl)
  | begins _ starting =>
      rw [running] at starting
      cases starting
  | ends _ event req active =>
      apply announcing_of_nil _ (sentBy_of_free req)
      intro isActive
      rcases due owed (active isActive) with stopped | ⟨completed, -⟩
      · exact Or.inl (event.trans stopped)
      · exact Or.inr ⟨event.trans completed, req⟩
  | stops _ _ sends => exact sends.announcing (Or.inl rfl)
  | fires active _ sends =>
      exact sends.announcing ((due owed active).imp id And.left)
  | next active out _ _ sends =>
      exact sends.announcing (Or.inl ((due (owed_of_failing owed)).stopped active out))
  | again _ active out _ _ _ _ sends =>
      rcases Tier.head_mem sane with ⟨x, head, -⟩
      rw [head] at sends
      exact sends.announcing (Or.inl ((due (owed_of_failing owed)).stopped active out))
  | waits _ active out _ _ req event =>
      have stopped := (due (owed_of_failing owed)).stopped active out
      apply announcing_of_nil _ (sentBy_of_free req)
      intro _
      rcases event with same | ⟨going, -⟩
      · exact Or.inl (same.trans stopped)
      · exact absurd stopped going

/-- A round of requests with the event `completed` begins when the tier is told so. -/
theorem Course.round (course : Course s e i told t') :
    roundOf (s.tiers i) t' = [] ∨
      ∃ out, roundOf (s.tiers i) t' = [.round] ∧ told = [.completed .empty out] := by
  have quiet : ∀ {t' : Tier}, t'.event = (s.tiers i).event ∨ t'.event ≠ .completed →
      roundOf (s.tiers i) t' = [] := by
    intro t' event
    unfold roundOf
    rw [if_neg]
    rintro ⟨other, completed⟩
    rcases event with same | different
    · exact other (same.symm.trans completed)
    · exact different completed
  have sent : ∀ {busy x ev t t'}, Dispatch s busy x ev t t' → t'.event = ev := by
    rintro busy x ev t t' ⟨timer, req, rfl, -⟩
    rfl
  cases course with
  | same => exact Or.inl (quiet (Or.inl rfl))
  | missed => exact Or.inl (quiet (Or.inl rfl))
  | completes _ active event sends =>
      refine Or.inr ⟨(s.tiers i).req.isSome, ?_, ?_⟩
      · unfold roundOf
        rw [event, sent sends]
        rfl
      · unfold Tier.completed
        rw [if_pos active, event]
  | begins _ _ sends =>
      refine Or.inl (quiet (Or.inr ?_))
      rw [sent sends]
      exact nofun
  | ends _ event => exact Or.inl (quiet (Or.inl event))
  | stops _ _ sends =>
      refine Or.inl (quiet (Or.inr ?_))
      rw [sent sends]
      exact nofun
  | fires _ _ sends => exact Or.inl (quiet (Or.inl (sent sends)))
  | next _ _ _ _ sends => exact Or.inl (quiet (Or.inl (sent sends)))
  | again _ _ _ _ _ _ _ sends => exact Or.inl (quiet (Or.inl (sent sends)))
  | waits _ _ _ _ _ _ event =>
      refine Or.inl (quiet ?_)
      rcases event with same | ⟨-, empty⟩
      · exact Or.inl same
      · refine Or.inr ?_
        rw [empty]
        exact nofun

/-! ## Runs -/

/-- A torrent leaves `T_STARTING` once. -/
theorem running_of_step (inv : s.Inv) (alive : s.killed = false) (running : s.starting = false)
    (step : (torrentTrackers n).Steps (fun _ => False) s e s') :
    s'.killed = true ∨ s'.starting = false := by
  have whole := inv.whole alive
  refine returned_of_steps (fun s' => s'.killed = true ∨ s'.starting = false) step alive ?_
  have same : ∀ {j} {s' : Trackers n}, Only j s s' → s'.killed = true ∨ s'.starting = false :=
    fun only => Or.inr (only.starting.trans running)
  cases e with
  | report id r random =>
      refine wp_bind.mpr (wp_get.mpr ?_)
      split
      case h_1 => exact wp_pure.mpr (Or.inr running)
      case h_2 treq live =>
        exact wp_mono (wp_of_strict (report_wp whole live)) fun _ _ kept => same kept.2
  | timer j =>
      refine wp_bind.mpr (wp_get.mpr ?_)
      rw [wp_when]
      split
      case isFalse => exact Or.inr running
      case isTrue pending =>
        exact wp_mono (wp_of_strict (tierTimerCb_wp whole pending)) fun _ _ kept => same kept.2.1
  | start =>
      refine wp_bind.mpr (wp_get.mpr ?_)
      rw [wp_when, if_neg (by simp [running])]
      exact Or.inr running
  | stop j => exact wp_mono (wp_of_strict (tierStop_wp whole)) fun _ _ kept => same kept.2.1
  | complete j =>
      exact wp_mono (wp_of_strict (tierComplete_wp whole)) fun _ _ kept => same kept.2.1
  | kill => exact whenReturns_seq fun _ _ => wp_modify.mpr (Or.inl rfl)
  | others mTlastReq mTnextReq btpdSeconds => exact wp_modify.mpr (Or.inr running)

/-- What a run knows of a tier that has to announce the end of the download. -/
structure Pending (s : Trackers n) (i : Fin n) : Prop where
  due : (s.tiers i).Due
  running : s.killed = true ∨ s.starting = false

/-- The end of the download is told to active tiers only. -/
theorem running_of_owed {counts : TrEvent → Bool → Prop} (inv : s.Inv)
    (course : Course s e i told t') (owed : Owed counts (told ++ older)) :
    Owed counts older ∨ s.starting = false := by
  have running : (s.tiers i).active = true → s.starting = false := by
    intro active
    by_contra starting
    have idle := inv.idle (by simpa using starting) i
    rw [active] at idle
    cases idle
  cases course with
  | same => exact Or.inl owed
  | missed active => exact Or.inr (running active)
  | completes _ active => exact Or.inr (running active)
  | begins => exact Or.inl owed
  | ends => exact Or.inl owed
  | stops => exact Or.inl owed
  | fires => exact Or.inl owed
  | next active => exact Or.inr (running active)
  | again _ active => exact Or.inr (running active)
  | waits _ active => exact Or.inr (running active)

theorem owed_round {counts : TrEvent → Bool → Prop} :
    Owed counts (roundOf t t' ++ older) ↔ Owed counts older := by
  unfold roundOf
  split
  · rfl
  · rfl

/-- One step of a run of which the steps before are as they must be. -/
theorem announces_step (inv : s.Inv) (killed : s.killed = false)
    (step : (torrentTrackers n).Steps (fun _ => False) s e s')
    (announces : Announces Hears older) (rounds : RoundsTold older)
    (pending : Owed Hears older → Pending s i) :
    let entries := sentBy s.nextReq (s'.tiers i) ++
      (roundOf (s.tiers i) (s'.tiers i) ++ (e.told s i ++ older))
    (Announces Hears entries ∧ RoundsTold entries) ∧ (Owed Hears entries → Pending s' i) := by
  have course := course_of_step inv killed step i
  have running : Owed Hears (e.told s i ++ older) → s.starting = false := by
    intro owed
    rcases running_of_owed inv course owed with owed | running
    · rcases (pending owed).running with gone | running
      · rw [killed] at gone
        cases gone
      · exact running
    · exact running
  have announcing : Owed Hears (e.told s i ++ older) → Announcing s.nextReq (s'.tiers i) :=
    fun owed => course.announcing (inv.whole killed) (running owed)
      (fun owed => (pending owed).due) owed
  have announcesNow : Announces Hears
      (roundOf (s.tiers i) (s'.tiers i) ++ (e.told s i ++ older)) := by
    rw [← List.append_assoc]
    exact System.never_append (fun entry mem _ ⟨c, sent, _⟩ =>
      sent_not_mem c .empty (sent ▸ mem)) announces
  have roundsTold : RoundsTold (e.told s i ++ older) :=
    System.never_append (fun entry mem _ ⟨isRound, _⟩ => (not_told e s i).1 (isRound ▸ mem)) rounds
  have roundsNow : RoundsTold
      (roundOf (s.tiers i) (s'.tiers i) ++ (e.told s i ++ older)) := by
    rcases course.round with nothing | ⟨out, begun, told⟩
    · rw [nothing]
      exact roundsTold
    · rw [begun]
      refine System.never_cons.mpr ⟨?_, roundsTold⟩
      rintro ⟨-, untold⟩
      apply untold
      rw [told]
      exact ⟨_, _, _, rfl⟩
  rcases sentBy_cases s.nextReq (s'.tiers i) with nothing | ⟨c, ev, sent⟩
  · rw [nothing]
    refine ⟨⟨announcesNow, roundsNow⟩, fun owed => ?_⟩
    have owed := owed_round.mp owed
    refine ⟨?_, running_of_step inv killed (running owed) step⟩
    rcases announcing owed with ⟨c, made⟩ | ⟨due, -⟩
    · rw [nothing] at made
      cases made
    · exact due
  · rw [sent]
    refine ⟨⟨System.never_cons.mpr ⟨?_, announcesNow⟩, System.never_cons.mpr ⟨?_, roundsNow⟩⟩,
      fun owed => ?_⟩
    · rintro ⟨c', ⟨⟩, owed⟩
      rcases announcing (owed_round.mp owed) with ⟨c', made⟩ | ⟨-, regular⟩
      · rw [sent] at made
        cases made
      · exact regular c sent
    · rintro ⟨isRound, -⟩
      cases isRound
    · have owedBefore := owed_round.mp (owed_of_sent owed)
      refine ⟨?_, running_of_step inv killed (running owedBefore) step⟩
      rcases announcing owedBefore with ⟨c', made⟩ | ⟨due, -⟩
      · rw [sent] at made
        cases made
        exact absurd owed not_owed_sent
      · exact due

/-- In every run a tier that hears of the end of the download makes a request with the event
`completed` before the next regular one, and each round of such requests begins as the tier
is told. -/
theorem announces_of_trail (trail : (torrentTrackers n).Trail steps s) (i : Fin n) :
    Announces Hears (log i steps) ∧ RoundsTold (log i steps) := by
  have kept : (Announces Hears (log i steps) ∧ RoundsTold (log i steps)) ∧
      (Owed Hears (log i steps) → Pending s i) := by
    refine trail.invariant (fun _ => True) (fun steps s =>
      (Announces Hears (log i steps) ∧ RoundsTold (log i steps)) ∧
        (Owed Hears (log i steps) → Pending s i)) ?_ ?_ fun _ _ => trivial
    · intro s begun
      exact ⟨⟨System.never_nil, System.never_nil⟩, False.elim⟩
    · rintro steps s e s' before ⟨⟨announces, rounds⟩, pending⟩ step -
      have inv := inv_of_reachable before.reachable
      have unfolded : log i (⟨s, e, s'⟩ :: steps) = entries i ⟨s, e, s'⟩ ++ log i steps := rfl
      rw [unfolded]
      unfold entries
      cases killed : s.killed with
      | true =>
          rw [if_pos rfl, eq_of_killed step killed]
          exact ⟨⟨announces, rounds⟩, pending⟩
      | false =>
          rw [if_neg Bool.false_ne_true, List.append_assoc, List.append_assoc]
          exact announces_step inv killed step announces rounds pending
  exact kept.1

/-! ## A tier that is starting -/

/-- A reply to a request. -/
def goodReply : Report := .http (.done ⟨.ok, [], 1800⟩)

/-- The download ends while another request was sent in the same second: the request with the
event `completed` is put off, and the next regular one follows it. -/
theorem announces_of_trail_postponed : ∃ (steps : List (System.Taken (Trackers 1) (Event 1))),
    log 0 steps = [.sent 1 .empty, .sent 1 .completed, .round, .completed .empty false,
      .sent 1 .started, .begun] ∧
        Announces Hears (log 0 steps) ∧ RoundsTold (log 0 steps) := by
  rcases System.Trail.of_events (P := fun steps : List (System.Taken (Trackers 1) (Event 1)) =>
      log 0 steps = [.sent 1 .empty, .sent 1 .completed, .round, .completed .empty false,
        .sent 1 .started, .begun])
    [.start, .report 0 goodReply 0, .complete 0, .others 10 20 30, .timer 0,
      .report 1 goodReply 0, .others 30 40 50, .timer 0] trail_twoTrackers
    (by decide +kernel) with ⟨steps, s, trail, entries⟩
  exact ⟨steps, entries, announces_of_trail trail 0⟩

/-- The download ends while the request that starts the tier is under way: the tier forgets
it, and a regular request follows. -/
theorem started_not_announced : ∃ (steps : List (System.Taken (Trackers 1) (Event 1)))
    (s : Trackers 1), (torrentTrackers 1).Trail steps s ∧
      ¬ Announces (fun _ _ => True) (log 0 steps) := by
  rcases System.Trail.of_events (P := fun steps : List (System.Taken (Trackers 1) (Event 1)) =>
      log 0 steps = [.sent 1 .empty, .completed .started true, .sent 1 .started, .begun])
    [.start, .complete 0, .report 0 goodReply 0, .others 10 20 30, .timer 0] trail_twoTrackers
    (by decide +kernel) with ⟨steps, s, trail, entries⟩
  refine ⟨steps, s, trail, fun announces => ?_⟩
  apply announces [] _ _ entries
  exact ⟨1, rfl, Or.inl trivial⟩

end Btpd.Tracker
