import Btpd.Content.Steady

/-!
# The queue of the tests

Which torrents wait in `m_startq` for the test of their pieces, and whether `m_workev`
goes on with it.  All routines but `startup_test_run` leave the queue in order and the
timer alone; that one does so too, unless a test fails.
-/

namespace Btpd.Content

open Prog
open Download (Torrent)

variable {t : Nat → Torrent} {n piece : Nat} {s s' : Contents} {e : CmEvent}
  {callers : List Fn} {k : Contract Contents Fn CmFault} {P : Contents → Prop}

/-! ## The timer -/

/-- While a torrent waits for its test, the timer is pending. -/
def Scheduled (s : Contents) : Prop := s.startq ≠ [] → s.workev = true

instance : Decidable (Scheduled s) := inferInstanceAs (Decidable (_ → _))

/-- The queue has kept its order; who has come since stands at its end. -/
def InOrder (q : List StartTestData) (s : Contents) : Prop :=
  ∃ kept new, kept.Sublist q ∧ s.startq = kept ++ new

theorem blind_scheduled : Blind Scheduled where
  mild _ _ _ _ held := held
  any _ _ _ held := held
  leave s n held some := by
    refine held fun none => some ?_
    dsimp only
    rw [none, List.eraseP_nil]
  join s std held _ := by
    cases queue : s.startq with
    | nil => simp
    | cons first rest => simp [held (by simp [queue])]

theorem blind_inOrder {q : List StartTestData} : Blind (InOrder q) where
  mild _ _ _ _ held := held
  any _ _ _ held := held
  leave s n := by
    rintro ⟨kept, new, sub, eq⟩
    dsimp only [InOrder]
    rw [eq]
    by_cases mem : ∃ std ∈ kept, std.tp = n
    · obtain ⟨std, mem, here⟩ := mem
      rw [List.eraseP_append_left (by simpa using here) _ mem]
      exact ⟨_, new, (List.eraseP_sublist ..).trans sub, rfl⟩
    · rw [List.eraseP_append_right _ fun std at_ => by simpa using fun here => mem ⟨std, at_, here⟩]
      exact ⟨kept, _, sub, rfl⟩
  join s std := by
    rintro ⟨kept, new, sub, eq⟩
    refine ⟨kept, new ++ [std], sub, ?_⟩
    dsimp only
    rw [eq, List.append_assoc]

variable (t) in
/-- The test of the piece of the first torrent in the queue meets an error. -/
def HeadFails (s : Contents) : Prop :=
  match s.startq with
  | [] => False
  | std :: _ =>
      match (testPiece t std.tp std.start [] s).2 with
      | .ok (.error _, _) => True
      | _ => False

variable (t) in
/-- The timer expires, the test meets an error, and another torrent waits. -/
def Stalls (s : Contents) : CmEvent → Prop
  | .work => s.workev = true ∧ HeadFails t { s with workev := false } ∧ 1 < s.startq.length
  | _ => False

instance : Decidable (HeadFails t s) := by
  unfold HeadFails
  split
  · infer_instance
  · split <;> infer_instance

instance : ∀ e : CmEvent, Decidable (Stalls t s e)
  | .work => inferInstanceAs (Decidable (_ ∧ _ ∧ _))
  | .start .. | .stop _ | .tick _ | .newPiece .. | .block .. | .read .. => .isFalse id

/-- The timer is added again whenever the test has ended. -/
theorem testedPiece_scheduled {std : StartTestData} {ok : Bool} :
    (testedPiece t std ok).wp whenReturns callers (fun _ s' => Scheduled s') s := by
  refine whenReturns_seq fun _ _ => whenReturns_seq fun _ _ => whenReturns_seq fun _ _ =>
    whenReturns_seq fun _ s' => ?_
  rw [wp_modify]
  intro some
  cases queue : s'.startq with
  | nil => exact absurd queue some
  | cons first rest => simp

/-- After a turn of the timer it is pending if torrents wait, unless the test has met an
error: then the first torrent is out of the queue and the timer is not added. -/
theorem startupTestRun_scheduled (sized : ∀ n, Sized (t n)) (inv : Inv t s) :
    (startupTestRun t).wp whenReturns [] (fun _ s' =>
      Scheduled s' ∧ ¬HeadFails t s ∨
      HeadFails t s ∧ s'.startq = s.startq.tail ∧ s'.workev = s.workev) s := by
  rcases queue : s.startq with - | ⟨std, rest⟩
  · unfold startupTestRun
    rw [wp_bind, wp_get, queue]
    refine wp_pure.mpr (.inl ⟨fun some => absurd queue some, ?_⟩)
    rw [HeadFails, queue]
    exact id
  have waiting := inv.waiting std (queue ▸ List.mem_cons_self)
  have fresh := waiting.fresh
  unfold startupTestRun
  rw [wp_bind, wp_get, queue]
  dsimp only
  have test : (testPiece t std.tp std.start).wp whenReturns []
      (On std.tp s fun _ x' => Tried (t std.tp) std.start (s.item std.tp) x') s := by
    refine wp_here (on_mono (testPiece_wp (sized std.tp) waiting.lt fresh.sound fresh.rds) ?_)
    exact fun _ _ => And.left
  have outcome : (testPiece t std.tp std.start).wp whenReturns []
      (fun r _ => HeadFails t s ↔ ∃ e, r = .error e) s := by
    refine wp_whenReturns_iff.mpr fun r s' ended => ?_
    unfold HeadFails
    rw [queue]
    dsimp only
    rw [ended]
    cases r with
    | ok ok => exact ⟨False.elim, nofun⟩
    | error e => exact ⟨fun _ => ⟨e, rfl⟩, fun _ => trivial⟩
  refine wp_seq (wp_and_whenReturns test outcome) ?_
  rintro r - ⟨⟨x₁, rfl, tried⟩, fails⟩
  have fresh₁ := tried.fresh fresh
  cases r with
  | ok ok =>
      have passes : ¬HeadFails t s := by
        rintro failed
        obtain ⟨e, eq⟩ := fails.mp failed
        cases eq
      exact wp_mono testedPiece_scheduled fun _ s' scheduled => .inl ⟨scheduled, passes⟩
  | error e =>
      have leaves : s.leave std.tp x₁.cm.state = { s with startq := rest } := by
        rw [fresh₁.state, Contents.leave, if_pos rfl, queue, List.eraseP_cons_of_pos (by simp)]
      refine wp_mono (cmOnError_wp fresh₁.sane fresh₁.error (.inr fun _ _ => trivial)) ?_
      rw [leaves]
      rintro - - ⟨x', rfl, -⟩
      exact .inr ⟨fails.mpr ⟨e, rfl⟩, rfl, rfl⟩

/-- The timer has worked on the first entry of the queue, and on nothing else: one piece of
its torrent has been tested, and either the entry goes on with a later piece, or it is gone
and its torrent has left the start. -/
structure Attended (s s' : Contents) (std : StartTestData) (rest : List StartTestData) :
    Prop where
  tested : ∀ i, (s'.item std.tp).cm.tested i =
    (s.item std.tp).cm.tested i + if i = std.start then 1 else 0
  others : ∀ n, n ≠ std.tp → s'.item n = s.item n
  queue : (∃ start, std.start < start ∧ s'.startq = { std with start := start } :: rest ∧
      (s'.item std.tp).cm.state = .starting) ∨
    s'.startq = rest ∧ (s'.item std.tp).cm.state ≠ .starting

theorem Tried.count {u : Torrent} {x x' : Item} (tried : Tried u piece x x') (i : Nat) :
    x'.cm.tested i = x.cm.tested i + if i = piece then 1 else 0 := by
  rw [tried.eq]
  dsimp only
  rw [Function.update_apply]
  split
  case isTrue here => rw [here]
  case isFalse => rfl

theorem Launched.tested {u : Torrent} {x x' : Item} (launched : Launched u x x') :
    x'.cm.tested = x.cm.tested := by
  cases launched with
  | active cm resd surveyed same eq =>
      rw [eq, surveyed.eq]
  | failed cm resd surveyed failed =>
      rw [failed.eq, surveyed.eq]

theorem startupTestRun_attends {std : StartTestData} {rest : List StartTestData}
    (sized : ∀ n, Sized (t n)) (inv : Inv t s) (queue : s.startq = std :: rest)
    (open_ : Contract.Open k) :
    (startupTestRun t).wp k callers (fun _ s' => Attended s s' std rest) s := by
  have waiting := inv.waiting std (queue ▸ List.mem_cons_self)
  have run : (startupTestRun t).wp k callers
      (fun _ s' => Probed (t std.tp) s std rest (s.item std.tp) s')
      (s.setItem std.tp (s.item std.tp)) :=
    startupTestRun_wp (sized std.tp) queue (inv.head_free queue) waiting open_
  rw [Contents.setItem_item] at run
  refine wp_mono run fun _ s' probed => ?_
  cases probed with
  | failed x₁ x' tried failed =>
      refine ⟨fun i => ?_, fun n other => Contents.setItem_of_ne other, .inr ⟨rfl, ?_⟩⟩
      · rw [Contents.setItem_self, failed.eq]
        exact tried.count i
      · rw [Contents.setItem_self, failed.eq]
        exact nofun
  | next x₁ ok w tried truth lt =>
      obtain ⟨later, -⟩ := nextPiece_spec (u := t std.tp) (s.item std.tp).cm std.start
      refine ⟨fun i => ?_, fun n other => Contents.setItem_of_ne other,
        .inl ⟨_, later, rfl, ?_⟩⟩
      · rw [Contents.setItem_self]
        exact tried.count i
      · rw [Contents.setItem_self]
        exact (tried.fresh waiting.fresh).state
  | last x₁ x' ok w tried truth le launched =>
      refine ⟨fun i => ?_, fun n other => Contents.setItem_of_ne other, .inr ⟨rfl, ?_⟩⟩
      · rw [Contents.setItem_self, launched.tested]
        exact tried.count i
      · rw [Contents.setItem_self]
        exact launched.calm

/-! ## Runs -/

theorem Blind.cmHandle (blind : Blind P) (other : e ≠ .work) (held : P s) :
    (cmHandle t e).wp whenReturns [] (fun _ s' => P s') s := by
  unfold Content.cmHandle
  rw [wp_bind, wp_get, wp_when]
  split
  · exact blind.act other [] s held
  · exact held

theorem Inv.expired (inv : Inv t s) : Inv t { s with workev := false } :=
  ⟨inv.good, inv.waiting, inv.queued, inv.nodup⟩

/-- Exactly the events that stall leave a queue without a timer. -/
theorem cmHandle_scheduled (sized : ∀ n, Sized (t n)) (inv : Inv t s) (scheduled : Scheduled s)
    (e : CmEvent) :
    (cmHandle t e).wp whenReturns [] (fun _ s' => Scheduled s' ↔ ¬Stalls t s e) s := by
  by_cases other : e ≠ .work
  · have free : ¬Stalls t s e := by
      cases e with
      | work => exact absurd rfl other
      | _ => exact id
    refine wp_mono (blind_scheduled.cmHandle other scheduled) fun _ s' held => ?_
    exact iff_of_true held free
  obtain rfl := not_not.mp other
  unfold cmHandle
  rw [wp_bind, wp_get, wp_when]
  split
  case isFalse idle => exact iff_of_true scheduled fun stalls => idle stalls.1
  case isTrue pending =>
    refine wp_bind.mpr (wp_modify.mpr ?_)
    refine wp_mono (startupTestRun_scheduled sized inv.expired) fun _ s' ended => ?_
    rcases ended with ⟨held, passes⟩ | ⟨fails, queue, timer⟩
    · exact iff_of_true held fun stalls => passes stalls.2.1
    · have alone : Scheduled s' ↔ s.startq.tail = [] := by
        unfold Scheduled
        rw [queue, timer]
        simp
      rw [alone, ← List.length_eq_zero_iff, List.length_tail]
      refine ⟨fun none stalls => ?_, fun free => ?_⟩
      · have more := stalls.2.2
        omega
      · by_contra some
        exact free ⟨pending, fails, by omega⟩

theorem cmHandle_attends {std : StartTestData} {rest : List StartTestData}
    (sized : ∀ n, Sized (t n)) (inv : Inv t s) (pending : s.workev = true)
    (queue : s.startq = std :: rest) :
    (cmHandle t .work).wp whenReturns [] (fun _ s' => Attended s s' std rest) s := by
  unfold cmHandle
  rw [wp_bind, wp_get, wp_when, if_pos (show CmEvent.work.Allowed t s from pending)]
  refine wp_bind.mpr (wp_modify.mpr ?_)
  refine wp_mono (startupTestRun_attends sized inv.expired queue (.inr fun _ _ => trivial)) ?_
  exact fun _ s' attended => ⟨attended.tested, attended.others, attended.queue⟩

/-- In a run of which no event stalls, the timer is pending between the events while a
torrent waits for its test. -/
theorem scheduled_of_within (sized : ∀ n, Sized (t n))
    (within : (daemon t).Within (fun s e => ¬Stalls t s e) s) : Scheduled s := by
  refine within.invariant Scheduled (fun s (init : s.Init t) some => absurd init.startq some) ?_
  intro s e s' before scheduled free steps
  have inv := inv_of_reachable sized before.reachable
  exact (steps.returned _ (cmHandle_scheduled sized inv scheduled e)).mpr free

/-- In every run: the timer works on the head of the queue, and each other event leaves
the queue in order; the torrents of the queue are those that wait for a test; and an event
leaves torrents waiting without a timer if and only if it stalls.  So in a run of which no
event stalls the timer is pending whenever a torrent waits. -/
theorem attended_of_reachable (sized : ∀ n, Sized (t n))
    (reached : (daemon t).Reachable (fun _ => False) s) :
    ((∀ std rest s', s.workev = true → s.startq = std :: rest →
        (daemon t).Steps (fun _ => False) s .work s' → Attended s s' std rest) ∧
      (∀ e s', e ≠ .work → (daemon t).Steps (fun _ => False) s e s' → InOrder s.startq s') ∧
      (∀ n, (s.item n).cm.state = .starting ↔ ∃ std ∈ s.startq, std.tp = n) ∧
      ∀ e, ¬(daemon t).Faults (fun _ => False) s e .emptyQueue) ∧
    (Scheduled s → ∀ e s', (daemon t).Steps (fun _ => False) s e s' →
      (Scheduled s' ↔ ¬Stalls t s e)) ∧
    ((daemon t).Within (fun s e => ¬Stalls t s e) s →
      Scheduled s ∧ ∀ n, (s.item n).cm.state = .starting → s.workev = true) := by
  have inv := inv_of_reachable sized reached
  have members (n : Nat) : (s.item n).cm.state = .starting ↔ ∃ std ∈ s.startq, std.tp = n := by
    refine ⟨inv.queued n, ?_⟩
    rintro ⟨std, mem, rfl⟩
    exact (inv.waiting std mem).fresh.state
  refine ⟨⟨fun std rest s' pending queue steps => ?_, fun e s' other steps => ?_, members,
    fun e faults => ?_⟩, fun scheduled e s' steps => ?_, fun within => ?_⟩
  · exact steps.returned (Attended s · std rest) (cmHandle_attends sized inv pending queue)
  · have start : InOrder s.startq s := ⟨s.startq, [], .refl _, (List.append_nil _).symm⟩
    exact steps.returned _ (blind_inOrder.cmHandle other start)
  · have expected := expected_of_faults sized (.inr trivial) reached faults
    simp [Expected, Misused] at expected
  · exact steps.returned _ (cmHandle_scheduled sized inv scheduled e)
  · have scheduled := scheduled_of_within sized within
    refine ⟨scheduled, fun n starting => scheduled fun none => ?_⟩
    obtain ⟨std, mem, -⟩ := (members n).mp starting
    rw [none] at mem
    cases mem

/-- Two torrents wait, and a piece of the first one has been tested. -/
theorem attended_of_reachable_twoTorrents :
    ∃ s, (daemon twoPieces).Within (fun s e => ¬Stalls twoPieces s e) s ∧
      ((s.item 1).cm.state = .starting ∧ (s.item 0).cm.tested 0 = 1) ∧ s.workev = true := by
  have start : (daemon twoPieces).Within (fun s e => ¬Stalls twoPieces s e)
      (.ofFile [1, 2, 1, 2] true 100) := .start (init_ofFile fun _ => rfl)
  obtain ⟨s, within, starting, tested⟩ := start.of_events
    (P := fun s => (s.item 1).cm.state = .starting ∧ (s.item 0).cm.tested 0 = 1)
    [.start 0 true, .start 1 true, .work] (by decide +kernel)
  have held := (attended_of_reachable sized_twoPieces within.reachable).2.2 within
  exact ⟨s, within, ⟨starting, tested⟩, held.2 1 starting⟩

/-- Two torrents wait, and the first one cannot be read: the second waits for ever. -/
theorem not_scheduled_of_reachable :
    ¬∀ t, (∀ n, Sized (t n)) → ∀ s, (daemon t).Reachable (fun _ => False) s → Scheduled s := by
  intro claim
  obtain ⟨s, reached, stuck⟩ := System.Reachable.of_after (P := fun s => ¬Scheduled s)
    [.start 0 true, .start 1 true, .work]
    (reachable_ofFile (fun _ => False) [1, 2, 1, 2] true 2) (by decide +kernel)
  exact stuck (claim twoPieces sized_twoPieces s reached)

end Btpd.Content
