import Btpd.Library.Program

/-!
# Runs with their steps

A trail is a run together with the steps that it has taken, the newest first, so that what
a run must never do can be said of a log of its steps.
-/

namespace Btpd.System

variable {σ φ ε η ι : Type} {sys : System σ φ ε η} {s s' : σ} {e : η}

/-- A step that was taken. -/
structure Taken (σ η : Type) where
  before : σ
  event : η
  after : σ

/-- The steps of a run, the newest first, and the state that it has reached. -/
inductive Trail (sys : System σ φ ε η) : List (Taken σ η) → σ → Prop
  | start {s : σ} : sys.start s → Trail sys [] s
  | step {s s' : σ} {e : η} {steps : List (Taken σ η)} : Trail sys steps s →
      sys.Steps (fun _ => False) s e s' → Trail sys (⟨s, e, s'⟩ :: steps) s'

variable {steps : List (Taken σ η)}

theorem Trail.reachable (trail : sys.Trail steps s) : sys.Reachable (fun _ => False) s := by
  induction trail with
  | start begun => exact .start begun
  | step _ step ih => exact .step ih step

/-- What holds at the start of a run and is kept by the steps that meet a condition holds
behind every run of which each step meets it. -/
theorem Trail.invariant (ok : Taken σ η → Prop) (inv : List (Taken σ η) → σ → Prop)
    (atStart : ∀ s, sys.start s → inv [] s)
    (kept : ∀ steps s e s', sys.Trail steps s → inv steps s →
      sys.Steps (fun _ => False) s e s' → ok ⟨s, e, s'⟩ → inv (⟨s, e, s'⟩ :: steps) s')
    (trail : sys.Trail steps s) (all : ∀ step ∈ steps, ok step) : inv steps s := by
  induction trail with
  | start begun => exact atStart _ begun
  | @step s s' e steps before step ih =>
      have earlier : ∀ step ∈ steps, ok step := fun _ mem => all _ (List.mem_cons_of_mem _ mem)
      exact kept steps s e s' before (ih earlier) step (all _ List.mem_cons_self)

/-- The trail of the events, if none of them ends in a fault. -/
def follow (sys : System σ φ ε η) : List η → List (Taken σ η) → σ →
    Option (List (Taken σ η))
  | [], steps, _ => some steps
  | e :: events, steps, s =>
      match (sys.handle e [] s).2 with
      | .ok (_, s') => follow sys events (⟨s, e, s'⟩ :: steps) s'
      | .error _ => none

/-- A trail with a property that can be checked. -/
theorem Trail.of_events {P : List (Taken σ η) → Prop} [DecidablePred P] (events : List η)
    (trail : sys.Trail steps s)
    (found : (sys.follow events steps s).any (fun steps' => decide (P steps')) = true) :
    ∃ steps' s', sys.Trail steps' s' ∧ P steps' := by
  induction events generalizing steps s with
  | nil => exact ⟨steps, s, trail, of_decide_eq_true found⟩
  | cons e events ih =>
      unfold follow at found
      split at found
      · rename_i s' stepped
        exact ih (.step trail ⟨stepped, fun _ _ bad => bad⟩) found
      · cases found

/-! ## Logs -/

/-- No entry of a log, the newest one first, is bad behind the entries before it. -/
def Never (bad : ι → List ι → Prop) (log : List ι) : Prop :=
  ∀ newer entry older, log = newer ++ entry :: older → ¬ bad entry older

section Never

variable {bad : ι → List ι → Prop} {entry : ι} {older : List ι}

theorem never_nil : Never bad [] := by
  intro newer entry older split
  cases newer <;> cases split

theorem never_cons : Never bad (entry :: older) ↔ ¬ bad entry older ∧ Never bad older := by
  constructor
  · intro never
    constructor
    · exact never [] entry older rfl
    · intro newer x rest split
      exact never (entry :: newer) x rest (by rw [split]; rfl)
  · rintro ⟨now, before⟩ newer x rest split
    cases newer with
    | nil =>
        cases split
        exact now
    | cons first newer =>
        injection split with _ split
        exact before newer x rest split

/-- Entries that are not bad behind whatever was before them. -/
theorem never_append {entries : List ι} (good : ∀ entry ∈ entries, ∀ older, ¬ bad entry older)
    (never : Never bad older) : Never bad (entries ++ older) := by
  induction entries with
  | nil => exact never
  | cons entry entries ih =>
      apply never_cons.mpr
      constructor
      · exact good entry List.mem_cons_self _
      · exact ih fun later mem => good later (List.mem_cons_of_mem _ mem)

end Never

end Btpd.System
