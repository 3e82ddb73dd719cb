import Btpd.Names.Threads
import Mathlib

/-!
# Every lookup is called back

No wake-up is lost: as long as a lookup waits, one of the threads can go on, and in whatever
order they do, each of their steps brings the callbacks nearer.
-/

namespace Btpd.Names

open Prog

variable {s s' : Resolver} {ctx : Option Nat} {callers : List Empty}

/-! ## No wake-up is lost -/

/-- Whoever has work to do is awake or will be woken. -/
structure Awake (v : View) : Prop where
  worker : v.worker = .waiting → v.aiq ≠ [] → v.signalling = true
  main : v.tdCbs ≠ [] → 0 < v.pipe ∨ v.worker = .posted ∨ v.worker = .writing ∨
    v.main = .splicing
  loop : v.tmpq ≠ [] → v.main = .running ∨ ∃ nc ctx, v.main = .calling nc (some ctx)

namespace Awake

variable {v v' : View}

/-- The thread goes on, but not from where it owes a byte, and waits for an empty queue only. -/
theorem works {w : Worker} {aiq : List Nat} (awake : Awake v)
    (owes : v.worker ≠ .posted ∧ v.worker ≠ .writing) (waits : w = .waiting → aiq = []) :
    Awake { v with aiq := aiq, worker := w } where
  worker here queue := absurd (waits here) queue
  main queue := by
    rcases awake.main queue with bytes | posted | writing | splicing
    · exact .inl bytes
    · exact absurd posted owes.1
    · exact absurd writing owes.2
    · exact .inr (.inr (.inr splicing))
  loop := awake.loop

/-- The main thread goes on, but not from where it takes the callbacks. -/
theorem turns {m : Main} {tmpq : List Nat} (awake : Awake v) (busy : v.main ≠ .splicing)
    (loop : tmpq ≠ [] → m = .running ∨ ∃ nc ctx, m = .calling nc (some ctx)) :
    Awake { v with tmpq := tmpq, main := m } where
  worker := awake.worker
  main queue := by
    rcases awake.main queue with bytes | posted | writing | splicing
    · exact .inl bytes
    · exact .inr (.inl posted)
    · exact .inr (.inr (.inl writing))
    · exact absurd splicing busy
  loop := loop

theorem goes (awake : Awake v) (goes : Goes v v') : Awake v' := by
  cases goes with
  | signal set =>
      refine ⟨fun waits => ?_, fun queue => ?_, awake.loop⟩
      · dsimp only at waits
        split at waits
        · cases waits
        · rename_i other
          exact absurd waits other
      · rcases awake.main queue with bytes | posted | writing | splicing
        · exact .inl bytes
        · exact .inr (.inl (by rw [posted]; rfl))
        · exact .inr (.inr (.inl (by rw [writing]; rfl)))
        · exact .inr (.inr (.inr splicing))
  | read idle bytes =>
      refine ⟨awake.worker, fun _ => .inr (.inr (.inr rfl)), fun queue => ?_⟩
      rcases awake.loop queue with running | ⟨nc, ctx, calling⟩
      · rw [idle] at running
        cases running
      · rw [idle] at calling
        cases calling
  | splice splicing => exact ⟨awake.worker, fun queue => absurd rfl queue, fun _ => .inl rfl⟩
  | leave running queue =>
      apply awake.turns
      · rw [running]
        exact nofun
      · exact fun queue' => absurd queue queue'
  | next running queue goesOn =>
      apply awake.turns
      · rw [running]
        exact nofun
      · exact fun _ => goesOn.imp id fun ⟨nc, calling⟩ => ⟨nc, _, calling⟩
  | finish calling =>
      apply awake.turns
      · rw [calling]
        exact nofun
      · exact fun _ => .inl rfl
  | handled calling =>
      apply awake.turns
      · rw [calling]
        exact nofun
      · intro queue
        rcases awake.loop queue with running | ⟨nc, ctx, calling'⟩
        · rw [calling] at running
          cases running
        · rw [calling] at calling'
          cases calling'
  | lock locking =>
      apply awake.works
      · rw [locking]
        exact ⟨nofun, nofun⟩
      · exact nofun
  | wait testing empty =>
      apply awake.works
      · rw [testing]
        exact ⟨nofun, nofun⟩
      · exact fun _ => empty
  | take testing _ =>
      apply awake.works
      · rw [testing]
        exact ⟨nofun, nofun⟩
      · exact nofun
  | answer resolving =>
      apply awake.works
      · rw [resolving]
        exact ⟨nofun, nofun⟩
      · exact nofun
  | begin answered =>
      apply awake.works
      · rw [answered]
        exact ⟨nofun, nofun⟩
      · exact nofun
  | post posting => exact ⟨nofun, fun _ => .inr (.inl rfl), awake.loop⟩
  | release posted => exact ⟨nofun, fun _ => .inr (.inr (.inl rfl)), awake.loop⟩
  | write writing => exact ⟨nofun, fun _ => .inl (Nat.succ_pos _), awake.loop⟩

end Awake

/-- A handler runs or a connection is given up. -/
theorem Awake.idles (awake : Awake s.view) (idles : Idles ctx s s') (busy : s.main ≠ .splicing)
    (after : ctx.isSome = true ∨ s.main = .loop) : Awake s'.view := by
  have view : s'.view = { s.view with main := s'.main } := by
    unfold Resolver.view
    rw [idles.aiq, idles.tdCbs, idles.pipe, idles.worker, idles.signalling, idles.tmpq,
      idles.asked]
  rw [view]
  apply awake.turns busy
  intro queue
  have before := awake.loop queue
  rcases idles.main with same | ⟨nc, calling⟩
  · rw [same]
    exact before
  · rcases after with some_ | idle
    · rcases Option.isSome_iff_exists.mp some_ with ⟨i, rfl⟩
      exact .inr ⟨nc, i, calling⟩
    · have running : s.main = .running ∨ ∃ nc ctx, s.main = .calling nc (some ctx) := before
      rw [idle] at running
      simp at running

theorem nameHandle_awake (event : NameEvent) (awake : Awake s.view) :
    (nameHandle event).wp whenReturns callers (fun _ s' => Awake s'.view) s := by
  cases own : event.own with
  | true =>
      by_cases ready : s.Ready event
      · exact wp_mono (nameHandle_goes ready) fun _ s' goes => awake.goes goes
      · apply wp_mono (nameHandle_stays own ready)
        rintro _ _ rfl
        exact awake
  | false =>
      unfold nameHandle
      cases event with
      | connect =>
          rw [wp_bind, wp_get, wp_when]
          split
          · unfold btpdNameConnect btpdAddrinfo setConn
            simp only [wp_bind, wp_get, wp_modify, wp_pure]
            exact ⟨fun _ _ => rfl, awake.main, awake.loop⟩
          · exact awake
      | cancel nc =>
          rw [wp_bind, wp_get, wp_when]
          split
          · rename_i allowed
            have busy : s.main ≠ .splicing := by
              intro splicing
              rw [splicing] at allowed
              cases allowed.2.1
            apply wp_mono (leaves_btpdNameConnectCancel nc _ _ _ (.refl : Idles (some 0) s s))
            exact fun _ s' idles => awake.idles idles busy (.inl rfl)
          · exact awake
      | writable nc error connects =>
          rw [wp_bind, wp_get, wp_when]
          split
          · rename_i allowed
            have busy : s.main ≠ .splicing := by simp [allowed.2.1]
            apply wp_mono (leaves_ncWriteCb nc error connects _ _ _ Idles.refl)
            exact fun _ s' idles => awake.idles idles busy (.inr allowed.2.1)
          · exact awake
      | spurious =>
          rw [wp_bind, wp_get, wp_when]
          split
          · rename_i waits
            rw [wp_modify]
            apply awake.works
            · show s.worker ≠ .posted ∧ s.worker ≠ .writing
              simp [waits]
            · simp
          · exact awake
      | signal => cases own
      | read => cases own
      | splice => cases own
      | next connects => cases own
      | callbackReturns => cases own
      | thread answer => cases own

/-! ## The threads come to rest -/

/-- The steps that the thread makes until it waits, without those for other lookups. -/
def Worker.left : Worker → Nat
  | .waiting => 0
  | .testing => 1
  | .locking => 2
  | .writing => 6
  | .posted => 7
  | .posting _ => 10
  | .answered _ => 11
  | .resolving _ => 12

/-- The steps that the main thread makes until it is back in its loop, without those for other
lookups. -/
def Main.left : Main → Nat
  | .loop => 0
  | .running => 1
  | .splicing => 2
  | .calling _ none => 1
  | .calling _ (some _) => 2

/-- The steps that are left at most. -/
def View.left (v : View) : Nat :=
  12 * v.aiq.length + v.worker.left + 2 * v.tdCbs.length + 3 * v.pipe + 2 * v.tmpq.length +
    v.main.left + if v.signalling then 3 else 0

theorem Goes.left {v v' : View} (goes : Goes v v') : v'.left < v.left := by
  unfold View.left
  cases goes with
  | signal set =>
      rw [set]
      by_cases waits : v.worker = .waiting
      · simp only [waits, Worker.left, if_true, if_neg Bool.false_ne_true]
        omega
      · simp [waits]
  | read idle bytes =>
      have fewer : 0 < min v.pipe tdBufSize := Nat.lt_min.mpr ⟨bytes, by decide⟩
      simp only [idle, Main.left]
      omega
  | splice splicing =>
      simp only [splicing, Main.left, List.length_append, List.length_nil]
      omega
  | leave running queue =>
      simp [running, Main.left]
  | next running queue goesOn =>
      rcases goesOn with rfl | ⟨nc, rfl⟩
      · simp only [running, queue, Main.left, List.length_cons]
        omega
      · simp only [running, queue, Main.left, List.length_cons]
        omega
  | finish calling => simp [calling, Main.left]
  | handled calling => simp [calling, Main.left]
  | lock locking => simp [locking, Worker.left]
  | wait testing queue => simp [testing, Worker.left]
  | take testing queue =>
      simp only [testing, queue, Worker.left, List.length_cons]
      omega
  | answer resolving => simp [resolving, Worker.left]
  | begin answered => simp [answered, Worker.left]
  | post posting =>
      simp only [posting, Worker.left, List.length_append, List.length_singleton]
      omega
  | release posted => simp [posted, Worker.left]
  | write writing =>
      simp only [writing, Worker.left]
      omega

theorem Goes.asked {v v' : View} (goes : Goes v v') : v'.asked = v.asked := by
  cases goes <;> rfl

/-- Steps of the threads themselves, in whatever order, of which each changes the state. -/
inductive Advances : Nat → Resolver → Resolver → Prop
  | rest {s : Resolver} : Advances 0 s s
  | step {s s' s'' : Resolver} {n : Nat} {event : NameEvent} (own : event.own = true)
      (steps : names.Steps (fun _ => False) s event s') (changes : s' ≠ s)
      (rest : Advances n s' s'') : Advances (n + 1) s s''

/-- No thread can go on by itself. -/
def Resolver.Rests (s : Resolver) : Prop :=
  ∀ event s', event.own = true → names.Steps (fun _ => False) s event s' → s' = s

theorem awake_of_reachable (reached : names.Reachable (fun _ => False) s) : Awake s.view := by
  apply reached.invariant (fun s => Awake s.view) (fun _ => True)
  · rintro s rfl
    exact ⟨nofun, fun queue => absurd rfl queue, fun queue => absurd rfl queue⟩
  · exact fun s event _ awake =>
      wp_of_whenReturns (fun _ => trivial) (nameHandle_awake event awake)

/-- A step of the threads that changes the state. -/
theorem goes_of_steps {event : NameEvent} (own : event.own = true)
    (steps : names.Steps (fun _ => False) s event s') (changes : s' ≠ s) :
    Goes s.view s'.view := by
  by_cases ready : s.Ready event
  · exact steps.returned (fun s' => Goes s.view s'.view) (nameHandle_goes ready)
  · exact absurd (steps.returned (fun s' => s' = s) (nameHandle_stays own ready)) changes

/-- A thread that rests cannot go on. -/
theorem Resolver.Rests.unready (rests : s.Rests) (reached : names.Reachable (fun _ => False) s)
    (event : NameEvent) (own : event.own = true) : ¬ s.Ready event := by
  intro ready
  have inv := inv_of_reachable reached
  have met : (nameHandle event).wp strict [] (fun _ s' => Inv s') s := nameHandle_inv event inv
  rcases returned_of_strict met with ⟨_, s', ok, -⟩
  have steps : names.Steps (fun _ => False) s event s' := ⟨ok, fun _ _ bad => bad⟩
  have goes := steps.returned (fun s' => Goes s.view s'.view) (nameHandle_goes ready)
  rw [rests event s' own steps] at goes
  exact Nat.lt_irrefl _ goes.left

/-- When the threads rest no lookup waits. -/
theorem Resolver.Rests.pending (rests : s.Rests) (reached : names.Reachable (fun _ => False) s) :
    s.pending = [] := by
  have awake := awake_of_reachable reached
  have unready := rests.unready reached
  have unset : s.signalling = false := by
    cases set : s.signalling with
    | false => rfl
    | true => exact absurd set (unready .signal rfl)
  -- the thread waits, or for the main thread
  have thread : s.worker = .waiting ∨ s.worker = .writing ∧ pipeSize ≤ s.pipe := by
    by_contra other
    rcases not_or.mp other with ⟨awake', room⟩
    apply unready (.thread (.failed 0)) rfl
    exact ⟨awake', fun writing => Nat.lt_of_not_le fun full => room ⟨writing, full⟩⟩
  have idle : s.main = .loop := by
    cases at_ : s.main with
    | loop => rfl
    | splicing =>
        have free : s.worker.holdsTd = false := by
          rcases thread with waits | ⟨writing, -⟩
          · rw [waits]
            rfl
          · rw [writing]
            rfl
        exact absurd ⟨at_, free⟩ (unready .splice rfl)
    | running => exact absurd at_ (unready (.next fun _ => .done) rfl)
    | calling nc ctx => exact absurd ⟨unset, nc, ctx, at_⟩ (unready .callbackReturns rfl)
  have empty : s.pipe = 0 := by
    by_contra bytes
    exact unready .read rfl ⟨unset, idle, Nat.pos_of_ne_zero bytes⟩
  have waits : s.worker = .waiting := by
    rcases thread with waits | ⟨-, full⟩
    · exact waits
    · rw [empty] at full
      cases full
  have aiq : s.aiq = [] := by
    by_contra queue
    have set : s.signalling = true := awake.worker waits queue
    rw [unset] at set
    cases set
  have tdCbs : s.tdCbs = [] := by
    by_contra queue
    have cause : 0 < s.pipe ∨ s.worker = .posted ∨ s.worker = .writing ∨ s.main = .splicing :=
      awake.main queue
    rw [empty, waits, idle] at cause
    simp at cause
  have tmpq : s.tmpq = [] := by
    by_contra queue
    have cause : s.main = .running ∨ ∃ nc ctx, s.main = .calling nc (some ctx) :=
      awake.loop queue
    rw [idle] at cause
    simp at cause
  unfold Resolver.pending
  rw [tmpq, tdCbs, waits, aiq]
  rfl

/-- How far the threads come, and what has been called back when they rest. -/
theorem Advances.ends {n : Nat} (advances : Advances n s s')
    (reached : names.Reachable (fun _ => False) s) :
    n ≤ s.view.left ∧ (s'.Rests → s'.called = s.asked) := by
  induction advances with
  | rest =>
      refine ⟨Nat.zero_le _, fun rests => ?_⟩
      have inOrder := (inv_of_reachable reached).conserved
      rw [rests.pending reached, List.append_nil] at inOrder
      exact inOrder.symm
  | @step s s' s'' n event own steps changes rest ih =>
      have goes := goes_of_steps own steps changes
      rcases ih (.step reached steps) with ⟨bound, ends⟩
      constructor
      · exact Nat.lt_of_le_of_lt bound goes.left
      · intro rests
        have asked : s'.asked = s.asked := goes.asked
        rw [ends rests, asked]

/-- The threads do come to rest. -/
theorem exists_rests (s : Resolver) : ∃ n s', Advances n s s' ∧ s'.Rests := by
  generalize leftEq : s.view.left = left
  induction left using Nat.strong_induction_on generalizing s with
  | h left ih =>
      by_cases rests : s.Rests
      · exact ⟨0, s, .rest, rests⟩
      · unfold Resolver.Rests at rests
        push Not at rests
        rcases rests with ⟨event, s', own, steps, changes⟩
        have goes := goes_of_steps own steps changes
        rcases ih s'.view.left (leftEq ▸ goes.left) s' rfl with ⟨n, s'', advances, rests⟩
        exact ⟨n + 1, s'', .step own steps changes advances, rests⟩

/-- Every lookup that has been asked for is called back, in whatever order the threads make their
steps: they make no more of them than the queues tell, and do not come to rest before. -/
theorem calledBack_of_reachable (reached : names.Reachable (fun _ => False) s) :
    (∀ n s', Advances n s s' → n ≤ s.view.left ∧ (s'.Rests → s'.called = s.asked)) ∧
    ∃ n s', Advances n s s' ∧ s'.Rests ∧ s'.called = s.asked := by
  refine ⟨fun n s' advances => advances.ends reached, ?_⟩
  rcases exists_rests s with ⟨n, s', advances, rests⟩
  exact ⟨n, s', advances, rests, (advances.ends reached).2 rests⟩

/-- Two names are asked for while the thread is on its way to wait. -/
theorem calledBack_of_reachable_twoNames :
    ∃ s, names.Reachable (fun _ => False) s ∧
      (s.asked = [0, 1] ∧ s.called = [] ∧ s.worker = .testing) ∧
      (∀ n s', Advances n s s' → n ≤ s.view.left ∧ (s'.Rests → s'.called = s.asked)) ∧
      ∃ n s', Advances n s s' ∧ s'.Rests ∧ s'.called = s.asked := by
  have start : names.Reachable (fun _ => False) Resolver.init := .start rfl
  rcases start.of_after (P := fun s => s.asked = [0, 1] ∧ s.called = [] ∧ s.worker = .testing)
    [.connect, .signal, .connect, .thread (.failed 0)] (by decide) with ⟨s, reached, busy⟩
  exact ⟨s, reached, busy, calledBack_of_reachable reached⟩

end Btpd.Names
