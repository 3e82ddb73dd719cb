import Btpd.Library.Program
import Mathlib

/-!
# A routine in two models

Two routines on different states do the same where a view says which states belong
together: whenever the first returns, so does the second, with related values and
states.  The rules follow the way in which routines are put together.
-/

namespace Btpd.Prog

variable {σ τ φ ψ ε δ α β γ γ' : Type}

/-- Whenever `m` returns, `m'` returns from every state that is seen there. -/
def Simulates (view : σ → τ → Prop) (rel : α → β → Prop) (m : Prog σ φ ε α)
    (m' : Prog τ ψ δ β) : Prop :=
  ∀ callers callers' s t, view s t → m.wp whenReturns callers
    (fun a s' => m'.wp strict callers' (fun b t' => rel a b ∧ view s' t') t) s

variable {view : σ → τ → Prop} {rel : α → β → Prop} {m : Prog σ φ ε α} {m' : Prog τ ψ δ β}

/-- What a routine that returns says of the other one. -/
theorem Simulates.returns (simulates : Simulates view rel m m') {callers : List φ}
    {callers' : List ψ} {s s' : σ} {t : τ} {a : α} (seen : view s t)
    (returned : (m callers s).2 = .ok (a, s')) :
    ∃ b t', (m' callers' t).2 = .ok (b, t') ∧ rel a b ∧ view s' t' :=
  returned_of_strict (wp_whenReturns_iff.mp (simulates callers callers' s t seen) a s' returned)

theorem simulates_pure {a : α} {b : β} (related : rel a b) :
    Simulates view rel (pure a : Prog σ φ ε α) (pure b : Prog τ ψ δ β) := by
  intro callers callers' s t seen
  simp [related, seen]

/-- The rule of composition. -/
theorem simulates_seq {rel' : γ → γ' → Prop} {f : α → Prog σ φ ε γ} {f' : β → Prog τ ψ δ γ'}
    (first : Simulates view rel m m')
    (second : ∀ a b, rel a b → Simulates view rel' (f a) (f' b)) :
    Simulates view rel' (m >>= f) (m' >>= f') := by
  intro callers callers' s t seen
  refine wp_seq (first callers callers' s t seen) fun a s' ran => ?_
  obtain ⟨b, t', returned, related, seen'⟩ := returned_of_strict ran
  refine wp_mono (second a b related callers callers' s' t' seen') fun c s'' ran' => ?_
  rw [wp_bind]
  exact wp_of_ok returned ran'

/-- The first model does something that the second one does not see. -/
theorem simulates_left {rel' : γ → β → Prop} {f : α → Prog σ φ ε γ}
    (unseen : ∀ callers s t, view s t → m.wp whenReturns callers (fun _ s' => view s' t) s)
    (rest : ∀ a, Simulates view rel' (f a) m') : Simulates view rel' (m >>= f) m' := by
  intro callers callers' s t seen
  refine wp_seq (unseen callers s t seen) fun a s' seen' => ?_
  exact rest a callers callers' s' t seen'

/-- What the first model asserts may be used. -/
theorem simulates_assert {c : Prop} [Decidable c] {e : ε} {f : Unit → Prog σ φ ε α}
    (rest : c → Simulates view rel (f ()) m') : Simulates view rel (assert c e >>= f) m' := by
  intro callers callers' s t seen
  rw [wp_bind, wp_assert]
  split
  case isTrue holds => exact rest holds callers callers' s t seen
  case isFalse => trivial

/-- The second model asserts what is known. -/
theorem simulates_assert_right {c : Prop} [Decidable c] {e : δ} {f' : Unit → Prog τ ψ δ β}
    (holds : c) (rest : Simulates view rel m (f' ())) :
    Simulates view rel m (assert c e >>= f') := by
  intro callers callers' s t seen
  refine wp_mono (rest callers callers' s t seen) fun a s' ran => ?_
  rw [wp_bind, wp_assert, if_pos holds]
  exact ran

/-- The first model goes on where the second one is done. -/
theorem simulates_last {rel' : γ → β → Prop} {f : α → Prog σ φ ε γ}
    (first : Simulates view rel m m')
    (unseen : ∀ a b, rel a b → ∀ callers s t, view s t →
      (f a).wp whenReturns callers (fun c s' => rel' c b ∧ view s' t) s) :
    Simulates view rel' (m >>= f) m' := by
  intro callers callers' s t seen
  refine wp_seq (first callers callers' s t seen) fun a s' ran => ?_
  obtain ⟨b, t', returned, related, seen'⟩ := returned_of_strict ran
  refine wp_mono (unseen a b related callers s' t' seen') fun c s'' held => ?_
  exact wp_of_ok returned held

theorem simulates_ite {c c' : Prop} [Decidable c] [Decidable c'] {n : Prog σ φ ε α}
    {n' : Prog τ ψ δ β} (same : c ↔ c') (yes : c → Simulates view rel m m')
    (no : ¬c → Simulates view rel n n') :
    Simulates view rel (if c then m else n) (if c' then m' else n') := by
  by_cases holds : c
  · rw [if_pos holds, if_pos (same.mp holds)]
    exact yes holds
  · rw [if_neg holds, if_neg fun holds' => holds (same.mpr holds')]
    exact no holds

theorem simulates_when {c c' : Prop} [Decidable c] [Decidable c'] {m : Prog σ φ ε Unit}
    {m' : Prog τ ψ δ Unit} {rel : Unit → Unit → Prop} (same : c ↔ c')
    (body : c → Simulates view rel m m') (idle : rel () ()) :
    Simulates view rel (when c m) (when c' m') :=
  simulates_ite same body fun _ => simulates_pure idle

/-- It does not matter which calls are recorded. -/
theorem simulates_call {fn : φ} (body : Simulates view rel m m') :
    Simulates view rel (call fn m) m' := by
  intro callers callers' s t seen
  exact wp_call.mpr (.inr (body (fn :: callers) callers' s t seen))

theorem simulates_call_right {fn : ψ} (body : Simulates view rel m m') :
    Simulates view rel m (call fn m') := by
  intro callers callers' s t seen
  refine wp_mono (body callers (fn :: callers') s t seen) fun a s' ran => ?_
  exact wp_call.mpr (.inr ran)

end Btpd.Prog
