import Mathlib

/-!
# Routines that call each other on a shared state

A routine runs from the routines that called it and a state.  It leaves the
list of the calls it made and either a value with a new state or a fault, after
which nothing runs any more.  The calls are recorded with their callers and the
state they found, so that a condition on a run can speak of what happens inside
an event and not only of its two ends.

`wp` is the weakest precondition for a contract, which names the calls that
void a promise and the faults the promise leaves open.  A system is a set of
starting states with a routine for each event; an invariant that every event
keeps holds in every state a run reaches.
-/

namespace Btpd

/-- A call: the routine, the routines it was called from with the innermost
first, and the state at its entry. -/
structure Call (σ φ : Type) where
  fn : φ
  callers : List φ
  entry : σ

/-- A routine over states `σ`, with the marks `φ` for recorded calls and the
faults `ε`. -/
def Prog (σ φ ε α : Type) : Type :=
  List φ → σ → List (Call σ φ) × Except ε (α × σ)

/-- The calls that void a promise and the faults it does not exclude. -/
structure Contract (σ φ ε : Type) where
  bad : Call σ φ → Prop
  allowed : ε → Prop

namespace Prog

variable {σ φ ε α β γ : Type}

/-- Return a value at once. -/
def ret (a : α) : Prog σ φ ε α := fun _ s => ([], .ok (a, s))

/-- Run one routine and then another on its result. -/
def seq (m : Prog σ φ ε α) (f : α → Prog σ φ ε β) : Prog σ φ ε β := fun callers s =>
  match m callers s with
  | (calls, .error e) => (calls, .error e)
  | (calls, .ok (a, s')) => (calls ++ (f a callers s').1, (f a callers s').2)

instance : Monad (Prog σ φ ε) where
  pure := ret
  bind := seq

/-- Read the state. -/
def get : Prog σ φ ε σ := fun _ s => ([], .ok (s, s))

/-- Change the state. -/
def modify (f : σ → σ) : Prog σ φ ε Unit := fun _ s => ([], .ok ((), f s))

/-- End in a fault. -/
def fault (e : ε) : Prog σ φ ε α := fun _ _ => ([], .error e)

/-- Stop unless the condition holds. -/
def assert (c : Prop) [Decidable c] (e : ε) : Prog σ φ ε Unit :=
  if c then ret () else fault e

/-- Run `m` if the condition holds. -/
def when (c : Prop) [Decidable c] (m : Prog σ φ ε Unit) : Prog σ φ ε Unit :=
  if c then m else ret ()

/-- Use the result of a computation without state. -/
def ofExcept : Except ε α → Prog σ φ ε α
  | .ok a => ret a
  | .error e => fault e

/-- Run `body` as the routine `fn`: the call is recorded, and `body` runs with
`fn` as its innermost caller. -/
def call (fn : φ) (body : Prog σ φ ε α) : Prog σ φ ε α := fun callers s =>
  (⟨fn, callers, s⟩ :: (body (fn :: callers) s).1, (body (fn :: callers) s).2)

/-- Run `f` on the elements in order. -/
def forEach : List β → (β → Prog σ φ ε Unit) → Prog σ φ ε Unit
  | [], _ => pure ()
  | x :: xs, f => do f x; forEach xs f

/-! ## Weakest preconditions -/

/-- A computation without state ends in an allowed fault or in a value with the
postcondition. -/
def Ends (allowed : ε → Prop) (x : Except ε α) (post : α → Prop) : Prop :=
  match x with
  | .ok a => post a
  | .error e => allowed e

section Ends

variable {allowed : ε → Prop} {post : α → Prop}

@[simp]
theorem ends_ok {a : α} : Ends allowed (.ok a : Except ε α) post ↔ post a :=
  Iff.rfl

@[simp]
theorem ends_error {e : ε} : Ends allowed (.error e : Except ε α) post ↔ allowed e :=
  Iff.rfl

@[simp]
theorem ends_bind {x : Except ε α} {f : α → Except ε β} {post : β → Prop} :
    Ends allowed (x >>= f) post ↔ Ends allowed x (fun a => Ends allowed (f a) post) := by
  cases x <;> rfl

theorem ends_mono {x : Except ε α} {post' : α → Prop} (ended : Ends allowed x post)
    (weaker : ∀ a, post a → post' a) : Ends allowed x post' := by
  cases x with
  | error e => exact ended
  | ok a => exact weaker a ended

/-- More faults are allowed. -/
theorem ends_allow {allowed' : ε → Prop} {x : Except ε α} (ended : Ends allowed x post)
    (more : ∀ e, allowed e → allowed' e) : Ends allowed' x post := by
  cases x with
  | error e => exact more e ended
  | ok a => exact ended

/-- The rule of composition. -/
theorem ends_seq {x : Except ε α} {f : α → Except ε β} {post : β → Prop}
    {between : α → Prop} (first : Ends allowed x between)
    (second : ∀ a, between a → Ends allowed (f a) post) : Ends allowed (x >>= f) post :=
  ends_bind.mpr (ends_mono first second)

/-- The rule of composition, with the condition given first. -/
theorem ends_between {x : Except ε α} {f : α → Except ε β} {post : β → Prop}
    (between : α → Prop) (first : Ends allowed x between)
    (second : ∀ a, between a → Ends allowed (f a) post) : Ends allowed (x >>= f) post :=
  ends_seq first second

/-- What holds of every value that is returned. -/
def Returns (x : Except ε α) (post : α → Prop) : Prop := Ends (fun _ => True) x post

theorem Returns.of_ends {x : Except ε α} (ended : Ends allowed x post) : Returns x post :=
  ends_allow ended fun _ _ => trivial

theorem Returns.of_ok {x : Except ε α} {a : α} (returned : Returns x post) (ok : x = .ok a) :
    post a := by
  rw [ok] at returned
  exact returned

theorem returns_of_forall {x : Except ε α} (each : ∀ a, x = .ok a → post a) :
    Returns x post := by
  cases x with
  | error e => trivial
  | ok a => exact each a rfl

/-- What is returned adds to any other promise. -/
theorem ends_and_returns {x : Except ε α} {post' : α → Prop} (ended : Ends allowed x post)
    (returned : Returns x post') : Ends allowed x (fun a => post a ∧ post' a) := by
  cases x with
  | error e => exact ended
  | ok a => exact ⟨ended, returned⟩

end Ends

/-- Run from `s`, the routine makes a bad call, ends in an allowed fault, or
returns with the postcondition. -/
def wp (k : Contract σ φ ε) (callers : List φ) (m : Prog σ φ ε α) (post : α → σ → Prop)
    (s : σ) : Prop :=
  (∃ c ∈ (m callers s).1, k.bad c) ∨
    match (m callers s).2 with
    | .ok (a, s') => post a s'
    | .error e => k.allowed e

variable {k : Contract σ φ ε} {callers : List φ} {post post' : α → σ → Prop} {s : σ}

@[simp]
theorem wp_pure {a : α} : wp k callers (pure a) post s ↔ post a s := by
  simp [wp, pure, ret]

@[simp]
theorem wp_get {post : σ → σ → Prop} : wp k callers get post s ↔ post s s := by
  simp [wp, get]

@[simp]
theorem wp_modify {f : σ → σ} {post : Unit → σ → Prop} :
    wp k callers (modify f) post s ↔ post () (f s) := by
  simp [wp, modify]

@[simp]
theorem wp_fault {e : ε} : wp k callers (fault e) post s ↔ k.allowed e := by
  simp [wp, fault]

@[simp]
theorem wp_assert {c : Prop} [Decidable c] {e : ε} {post : Unit → σ → Prop} :
    wp k callers (assert c e) post s ↔ if c then post () s else k.allowed e := by
  unfold assert
  split
  · exact wp_pure
  · exact wp_fault

@[simp]
theorem wp_when {c : Prop} [Decidable c] {m : Prog σ φ ε Unit} {post : Unit → σ → Prop} :
    wp k callers (when c m) post s ↔ if c then wp k callers m post s else post () s := by
  unfold when
  split
  · rfl
  · exact wp_pure

@[simp]
theorem wp_ofExcept {x : Except ε α} :
    wp k callers (ofExcept x) post s ↔ Ends k.allowed x fun a => post a s := by
  cases x with
  | ok a => exact wp_pure
  | error e => exact wp_fault

/-- The state between two routines meets the precondition of the second. -/
@[simp]
theorem wp_bind {m : Prog σ φ ε α} {f : α → Prog σ φ ε β} {post : β → σ → Prop} :
    wp k callers (m >>= f) post s ↔
      wp k callers m (fun a s' => wp k callers (f a) post s') s := by
  have bindEq : (m >>= f) callers s = seq m f callers s := rfl
  simp only [wp, bindEq, seq]
  rcases m callers s with ⟨calls, e | ⟨a, s'⟩⟩
  · rfl
  · simp only [List.mem_append, or_and_right, exists_or]
    exact or_assoc

@[simp]
theorem wp_call {fn : φ} {body : Prog σ φ ε α} :
    wp k callers (call fn body) post s ↔
      k.bad ⟨fn, callers, s⟩ ∨ wp k (fn :: callers) body post s := by
  simp only [wp, call, List.mem_cons, or_and_right, exists_or, exists_eq_left]
  exact or_assoc

theorem wp_ite {c : Prop} [Decidable c] {m m' : Prog σ φ ε α} :
    wp k callers (if c then m else m') post s ↔
      if c then wp k callers m post s else wp k callers m' post s := by
  split <;> rfl

/-- A weaker postcondition is met as well. -/
theorem wp_mono {m : Prog σ φ ε α} (met : wp k callers m post s)
    (weaker : ∀ a s', post a s' → post' a s') : wp k callers m post' s := by
  unfold wp at met ⊢
  refine met.imp_right fun ended => ?_
  rcases outcome : (m callers s).2 with e | ⟨a, s'⟩
  · rw [outcome] at ended
    exact ended
  · rw [outcome] at ended
    exact weaker a s' ended

/-- The rule of composition: a condition of the state in between. -/
theorem wp_seq {m : Prog σ φ ε α} {f : α → Prog σ φ ε β} {post : β → σ → Prop}
    {between : α → σ → Prop} (first : wp k callers m between s)
    (second : ∀ a s', between a s' → wp k callers (f a) post s') :
    wp k callers (m >>= f) post s :=
  wp_bind.mpr (wp_mono first second)

/-- The rule of composition, with the condition given first. -/
theorem wp_between {m : Prog σ φ ε α} {f : α → Prog σ φ ε β} {post : β → σ → Prop}
    (between : α → σ → Prop) (first : wp k callers m between s)
    (second : ∀ a s', between a s' → wp k callers (f a) post s') :
    wp k callers (m >>= f) post s :=
  wp_seq first second

/-- Two promises about one routine are one promise. -/
theorem wp_and {k' : Contract σ φ ε} {m : Prog σ φ ε α} (met : wp k callers m post s)
    (met' : wp k' callers m post' s) :
    wp ⟨fun c => k.bad c ∨ k'.bad c, fun e => k.allowed e ∧ k'.allowed e⟩ callers m
      (fun a s' => post a s' ∧ post' a s') s := by
  unfold wp at met met' ⊢
  rcases met with ⟨c, mem, bad⟩ | ended
  · exact .inl ⟨c, mem, .inl bad⟩
  rcases met' with ⟨c, mem, bad⟩ | ended'
  · exact .inl ⟨c, mem, .inr bad⟩
  right
  rcases outcome : (m callers s).2 with e | ⟨a, s'⟩
  · rw [outcome] at ended ended'
    exact ⟨ended, ended'⟩
  · rw [outcome] at ended ended'
    exact ⟨ended, ended'⟩

/-- The contract that excludes no fault and is voided by no call: what is met
under it holds whenever the routine returns. -/
def whenReturns : Contract σ φ ε := ⟨fun _ => False, fun _ => True⟩

/-- A promise about returning is one about the value and the state that are returned. -/
theorem wp_whenReturns_iff {m : Prog σ φ ε α} : wp whenReturns callers m post s ↔
    ∀ a s', (m callers s).2 = .ok (a, s') → post a s' := by
  unfold wp whenReturns
  rcases (m callers s).2 with e | ⟨a, s'⟩
  · simp
  · simp

/-- A routine that is known to return. -/
theorem wp_of_ok {m : Prog σ φ ε α} {a : α} {s' : σ} (ended : (m callers s).2 = .ok (a, s'))
    (held : post a s') : wp k callers m post s := by
  right
  rw [ended]
  exact held

/-- What the last routine promises in whatever state. -/
theorem whenReturns_seq {m : Prog σ φ ε α} {f : α → Prog σ φ ε β} {post : β → σ → Prop}
    (last : ∀ a s', wp whenReturns callers (f a) post s') :
    wp whenReturns callers (m >>= f) post s :=
  wp_seq (wp_whenReturns_iff.mpr fun _ _ _ => trivial) fun a s' (_ : True) => last a s'

/-- What holds whenever a routine returns adds to any other promise. -/
theorem wp_and_whenReturns {m : Prog σ φ ε α} (met : wp k callers m post s)
    (returned : wp whenReturns callers m post' s) :
    wp k callers m (fun a s' => post a s' ∧ post' a s') s := by
  have both := wp_and met returned
  simpa [whenReturns] using both

/-- What holds whenever a routine returns holds under every contract that
excludes no fault. -/
theorem wp_of_whenReturns {m : Prog σ φ ε α} (open_ : ∀ e, k.allowed e)
    (returned : wp whenReturns callers m post s) : wp k callers m post s := by
  unfold wp at returned ⊢
  rcases returned with ⟨c, mem, bad⟩ | ended
  · exact bad.elim
  right
  rcases outcome : (m callers s).2 with e | ⟨a, s'⟩
  · exact open_ e
  · rw [outcome] at ended
    exact ended

/-- The contract that excludes every fault. -/
def strict : Contract σ φ ε := ⟨fun _ => False, fun _ => False⟩

/-- What is met without any fault is met under every contract. -/
theorem wp_of_strict {m : Prog σ φ ε α} (met : wp strict callers m post s) :
    wp k callers m post s := by
  rcases met with ⟨c, -, bad⟩ | ended
  · exact bad.elim
  right
  rcases outcome : (m callers s).2 with e | ⟨a, s'⟩
  · rw [outcome] at ended
    exact ended.elim
  · rw [outcome] at ended
    exact ended

/-- A routine that excludes every fault returns. -/
theorem returned_of_strict {m : Prog σ φ ε α} (met : wp strict callers m post s) :
    ∃ a s', (m callers s).2 = .ok (a, s') ∧ post a s' := by
  rcases met with ⟨c, -, bad⟩ | ended
  · exact bad.elim
  rcases outcome : (m callers s).2 with e | ⟨a, s'⟩
  · rw [outcome] at ended
    exact ended.elim
  · rw [outcome] at ended
    exact ⟨a, s', rfl, ended⟩

/-! ## Routines on a part of the state -/

section Zoom

variable {τ φ' ε' : Type}

/-- Run a routine on a part of the state; none of its calls is recorded. -/
def zoom (part : τ → σ) (put : τ → σ → τ) (wrap : ε → ε') (m : Prog σ Empty ε α) :
    Prog τ φ' ε' α := fun _ s =>
  match (m [] (part s)).2 with
  | .error e => ([], .error (wrap e))
  | .ok (a, x) => ([], .ok (a, put s x))

/-- A promise of the routine on the part is one about the whole. -/
theorem wp_zoom {part : τ → σ} {put : τ → σ → τ} {wrap : ε → ε'} {m : Prog σ Empty ε α}
    {k : Contract τ φ' ε'} {callers : List φ'} {post : α → τ → Prop} {s : τ}
    (met : wp ⟨fun _ => False, fun e => k.allowed (wrap e)⟩ [] m
      (fun a x => post a (put s x)) (part s)) :
    wp k callers (zoom part put wrap m) post s := by
  rcases met with ⟨c, -, bad⟩ | ended
  · exact bad.elim
  right
  unfold zoom
  rcases outcome : (m [] (part s)).2 with e | ⟨a, x⟩
  · rw [outcome] at ended
    exact ended
  · rw [outcome] at ended
    exact ended

/-- Run a routine without recording its calls. -/
def unrecorded (m : Prog σ φ ε α) : Prog σ Empty ε α := fun _ s => ([], (m [] s).2)

/-- What holds whenever a routine returns holds when its calls are not recorded. -/
theorem wp_unrecorded {m : Prog σ φ ε α} {post : α → σ → Prop} {s : σ}
    (met : wp whenReturns [] m post s) {callers : List Empty} :
    wp whenReturns callers (unrecorded m) post s :=
  wp_whenReturns_iff.mpr fun a s' returned => wp_whenReturns_iff.mp met a s' returned

end Zoom

/-! ## Loops over a list -/

/-- The loop rule: `inv` speaks of the elements still to come, and one turn
takes it from a nonempty rest to its tail. -/
theorem wp_forEach {f : β → Prog σ φ ε Unit} {xs : List β} (inv : List β → σ → Prop)
    (turn : ∀ x rest s, x :: rest <:+ xs → inv (x :: rest) s →
      wp k callers (f x) (fun _ s' => inv rest s') s)
    (before : inv xs s) : wp k callers (forEach xs f) (fun _ s' => inv [] s') s := by
  induction xs generalizing s with
  | nil => exact wp_pure.mpr before
  | cons x xs ih =>
      refine wp_seq (turn x xs s List.suffix_rfl before) fun _ s' held => ?_
      exact ih (fun y rest s suffix => turn y rest s (suffix.trans (List.suffix_cons x xs))) held

/-- A loop keeps what each of its turns keeps. -/
theorem wp_forEach_keeps {f : β → Prog σ φ ε Unit} {xs : List β} (inv : σ → Prop)
    (turn : ∀ x ∈ xs, ∀ s, inv s → wp k callers (f x) (fun _ s' => inv s') s)
    (before : inv s) : wp k callers (forEach xs f) (fun _ s' => inv s') s :=
  wp_forEach (fun _ => inv)
    (fun x _ s suffix held => turn x (suffix.subset List.mem_cons_self) s held) before

/-! ## Kept invariants -/

/-- The routine keeps the invariant, whoever calls it. -/
def Keeps (k : Contract σ φ ε) (inv : σ → Prop) (m : Prog σ φ ε α) : Prop :=
  ∀ callers s, inv s → wp k callers m (fun _ s' => inv s') s

section Keeps

variable {inv : σ → Prop} {m : Prog σ φ ε α}

theorem keeps_pure {a : α} : Keeps k inv (pure a) :=
  fun _ _ held => wp_pure.mpr held

theorem keeps_seq {f : α → Prog σ φ ε β} (first : Keeps k inv m)
    (second : ∀ a, Keeps k inv (f a)) : Keeps k inv (m >>= f) :=
  fun callers s held => wp_seq (first callers s held) fun a s' held' => second a callers s' held'

theorem keeps_call {fn : φ} (body : Keeps k inv m) : Keeps k inv (call fn m) :=
  fun _ s held => wp_call.mpr (.inr (body _ s held))

theorem keeps_when {c : Prop} [Decidable c] {m : Prog σ φ ε Unit} (kept : Keeps k inv m) :
    Keeps k inv (when c m) := by
  intro callers s held
  rw [wp_when]
  split
  · exact kept callers s held
  · exact held

theorem keeps_forEach {f : β → Prog σ φ ε Unit} {xs : List β}
    (each : ∀ x ∈ xs, Keeps k inv (f x)) : Keeps k inv (forEach xs f) :=
  fun callers _ held => wp_forEach_keeps _ (fun x mem s held => each x mem callers s held) held

/-- A routine that starts by reading the state. -/
theorem keeps_get {f : σ → Prog σ φ ε α}
    (body : ∀ callers s, inv s → wp k callers (f s) (fun _ s' => inv s') s) :
    Keeps k inv (get >>= f) :=
  fun callers s held => wp_bind.mpr (wp_get.mpr (body callers s held))

theorem keeps_modify {f : σ → σ} (kept : ∀ s, inv s → inv (f s)) : Keeps k inv (modify f) :=
  fun _ s held => wp_modify.mpr (kept s held)

theorem keeps_fault {e : ε} (open_ : k.allowed e) : Keeps k inv (fault e : Prog σ φ ε α) :=
  fun _ _ _ => wp_fault.mpr open_

theorem keeps_assert {c : Prop} [Decidable c] {e : ε} (open_ : k.allowed e) :
    Keeps k inv (assert c e) := by
  intro callers s held
  rw [wp_assert]
  split
  · exact held
  · exact open_

end Keeps

end Prog

/-! ## Systems and their runs -/

/-- A system: where it can start and what it does on each event. -/
structure System (σ φ ε η : Type) where
  start : σ → Prop
  handle : η → Prog σ φ ε Unit

namespace System

variable {σ φ ε η : Type} {sys : System σ φ ε η} {bad : Call σ φ → Prop} {s : σ}

/-- The event `e` takes `s` to `s'` without a bad call. -/
def Steps (sys : System σ φ ε η) (bad : Call σ φ → Prop) (s : σ) (e : η) (s' : σ) : Prop :=
  (sys.handle e [] s).2 = .ok ((), s') ∧ ∀ c ∈ (sys.handle e [] s).1, ¬ bad c

/-- The event `e` ends in the fault at `s`, without a bad call. -/
def Faults (sys : System σ φ ε η) (bad : Call σ φ → Prop) (s : σ) (e : η) (fault : ε) : Prop :=
  (sys.handle e [] s).2 = .error fault ∧ ∀ c ∈ (sys.handle e [] s).1, ¬ bad c

/-- The states of the runs in which no event makes a bad call. -/
inductive Reachable (sys : System σ φ ε η) (bad : Call σ φ → Prop) : σ → Prop
  | start {s : σ} : sys.start s → Reachable sys bad s
  | step {s s' : σ} {e : η} : Reachable sys bad s → sys.Steps bad s e s' →
      Reachable sys bad s'

/-- What an event leaves behind when it makes no bad call. -/
theorem Steps.of_wp {e : η} {s' : σ} {allowed : ε → Prop} {post : σ → Prop}
    (met : (sys.handle e).wp ⟨bad, allowed⟩ [] (fun _ s' => post s') s)
    (step : sys.Steps bad s e s') : post s' := by
  rcases met with ⟨c, mem, isBad⟩ | ended
  · exact absurd isBad (step.2 c mem)
  · rw [step.1] at ended
    exact ended

/-- What an event leaves behind when it returns. -/
theorem Steps.returned {e : η} {s' : σ} (step : sys.Steps bad s e s') (post : σ → Prop)
    (met : (sys.handle e).wp Prog.whenReturns [] (fun _ s' => post s') s) : post s' :=
  Prog.wp_whenReturns_iff.mp met () s' step.1

/-- What holds at the start and is kept by every event holds on every run. -/
theorem Reachable.invariant (inv : σ → Prop) (allowed : ε → Prop)
    (atStart : ∀ s, sys.start s → inv s)
    (kept : ∀ s e, sys.Reachable bad s → inv s →
      (sys.handle e).wp ⟨bad, allowed⟩ [] (fun _ s' => inv s') s)
    (reached : sys.Reachable bad s) : inv s := by
  induction reached with
  | start begun => exact atStart _ begun
  | @step s s' e before step ih =>
      exact step.of_wp (kept s e before ih)

/-- A run that avoids more calls avoids fewer. -/
theorem Reachable.mono {bad' : Call σ φ → Prop} (fewer : ∀ c, bad' c → bad c)
    (reached : sys.Reachable bad s) : sys.Reachable bad' s := by
  induction reached with
  | start begun => exact .start begun
  | step _ step ih => exact .step ih ⟨step.1, fun c mem isBad => step.2 c mem (fewer c isBad)⟩

/-- On a run that keeps the invariant, an event without a bad call ends only in
the faults that its contract allows. -/
theorem Reachable.fault_allowed {inv : σ → Prop} {allowed : ε → Prop} {e : η} {fault : ε}
    (atStart : ∀ s, sys.start s → inv s)
    (kept : ∀ s e, sys.Reachable bad s → inv s →
      (sys.handle e).wp ⟨bad, allowed⟩ [] (fun _ s' => inv s') s)
    (reached : sys.Reachable bad s) (faults : sys.Faults bad s e fault) : allowed fault := by
  rcases kept s e reached (reached.invariant inv allowed atStart kept) with ⟨c, mem, isBad⟩ | ended
  · exact absurd isBad (faults.2 c mem)
  · rw [faults.1] at ended
    exact ended

/-- The states of the runs of which every event meets the condition in the state that it
finds. -/
inductive Within (sys : System σ φ ε η) (ok : σ → η → Prop) : σ → Prop
  | start {s : σ} : sys.start s → Within sys ok s
  | step {s s' : σ} {e : η} : Within sys ok s → ok s e → sys.Steps (fun _ => False) s e s' →
      Within sys ok s'

/-- The state after the events, if each meets the condition and none ends in a fault. -/
def checked (sys : System σ φ ε η) (ok : σ → η → Prop) [∀ s e, Decidable (ok s e)] :
    List η → σ → Option σ
  | [], s => some s
  | e :: events, s =>
      if ok s e then
        match (sys.handle e [] s).2 with
        | .ok (_, s') => checked sys ok events s'
        | .error _ => none
      else none

section Within

variable {ok : σ → η → Prop}

theorem Within.reachable (within : sys.Within ok s) : sys.Reachable (fun _ => False) s := by
  induction within with
  | start begun => exact .start begun
  | step _ _ step ih => exact .step ih step

/-- What holds at the start and is kept by the events that meet the condition. -/
theorem Within.invariant (inv : σ → Prop) (atStart : ∀ s, sys.start s → inv s)
    (kept : ∀ s e s', sys.Within ok s → inv s → ok s e → sys.Steps (fun _ => False) s e s' →
      inv s')
    (within : sys.Within ok s) : inv s := by
  induction within with
  | start begun => exact atStart _ begun
  | @step s s' e before met step ih => exact kept s e s' before ih met step

/-- A run over events that meet the condition, which can be checked. -/
theorem Within.of_events [∀ s e, Decidable (ok s e)] {P : σ → Prop} [DecidablePred P]
    (within : sys.Within ok s) (events : List η)
    (found : (sys.checked ok events s).any (fun s' => decide (P s')) = true) :
    ∃ s', sys.Within ok s' ∧ P s' := by
  induction events generalizing s with
  | nil => exact ⟨s, within, of_decide_eq_true found⟩
  | cons e events ih =>
      unfold checked at found
      split at found
      · rename_i met
        split at found
        · rename_i s' stepped
          exact ih (.step within met ⟨stepped, fun _ _ bad => bad⟩) found
        · cases found
      · cases found

/-- One event that can be checked. -/
theorem checked_singleton [∀ s e, Decidable (ok s e)] {e : η} {s' : σ}
    (found : sys.checked ok [e] s = some s') : ok s e ∧ sys.Steps (fun _ => False) s e s' := by
  unfold checked at found
  split at found
  · rename_i met
    split at found
    · rename_i stepped
      cases found
      exact ⟨met, stepped, fun _ _ bad => bad⟩
    · cases found
  · cases found

end Within

/-- The states of a run without bad calls, the newest first. -/
inductive Run (sys : System σ φ ε η) (bad : Call σ φ → Prop) : List σ → Prop
  | start {s : σ} : sys.start s → Run sys bad [s]
  | step {s s' : σ} {earlier : List σ} {e : η} : Run sys bad (s :: earlier) →
      sys.Steps bad s e s' → Run sys bad (s' :: s :: earlier)

theorem Run.reachable {earlier : List σ} (run : sys.Run bad (s :: earlier)) :
    sys.Reachable bad s := by
  generalize states : s :: earlier = visited at run
  induction run generalizing s earlier with
  | start begun =>
      cases states
      exact .start begun
  | step _ step ih =>
      cases states
      exact .step (ih rfl) step

/-- Every state that is reached ends a run. -/
theorem Reachable.run (reached : sys.Reachable bad s) :
    ∃ earlier, sys.Run bad (s :: earlier) := by
  induction reached with
  | start begun => exact ⟨[], .start begun⟩
  | step _ step ih =>
      obtain ⟨earlier, run⟩ := ih
      exact ⟨_, .step run step⟩

/-- An invariant that may speak of the states visited before. -/
theorem Run.invariant (inv : List σ → σ → Prop) (allowed : ε → Prop) {earlier : List σ}
    (atStart : ∀ s, sys.start s → inv [s] s)
    (kept : ∀ s e earlier, sys.Run bad (s :: earlier) → inv (s :: earlier) s →
      (sys.handle e).wp ⟨bad, allowed⟩ [] (fun _ s' => inv (s' :: s :: earlier) s') s)
    (run : sys.Run bad (s :: earlier)) : inv (s :: earlier) s := by
  generalize states : s :: earlier = visited at run ⊢
  induction run generalizing s earlier with
  | start begun =>
      cases states
      exact atStart _ begun
  | @step s s' earlier e before step ih =>
      cases states
      rcases kept s e earlier before (ih rfl) with ⟨c, mem, isBad⟩ | ended
      · exact absurd isBad (step.2 c mem)
      · rw [step.1] at ended
        exact ended

/-- The fault in which the run over the events ends, if it ends in one. -/
def outcome (sys : System σ φ ε η) : List η → σ → Option ε
  | [], _ => none
  | e :: events, s =>
      match (sys.handle e [] s).2 with
      | .ok (_, s') => outcome sys events s'
      | .error fault => some fault

/-- A run that ends in a fault does so at a state that it reaches. -/
theorem Reachable.of_outcome {fault : ε} (events : List η)
    (reached : sys.Reachable (fun _ => False) s) (ended : sys.outcome events s = some fault) :
    ∃ s' e, sys.Reachable (fun _ => False) s' ∧ sys.Faults (fun _ => False) s' e fault := by
  induction events generalizing s with
  | nil => cases ended
  | cons e events ih =>
      unfold outcome at ended
      split at ended
      · rename_i s' stepped
        exact ih (.step reached ⟨stepped, fun _ _ bad => bad⟩) ended
      · rename_i fault' stepped
        cases ended
        exact ⟨s, e, reached, stepped, fun _ _ bad => bad⟩

/-- The state after the events, if no event ends in a fault or makes a call with
the flag `bad`. -/
def after (sys : System σ φ ε η) (bad : Call σ φ → Prop) [DecidablePred bad] :
    List η → σ → Option σ
  | [], s => some s
  | e :: events, s =>
      match sys.handle e [] s with
      | (calls, .ok (_, s')) =>
          if ∀ c ∈ calls, ¬ bad c then after sys bad events s' else none
      | (_, .error _) => none

/-- A state that a run without bad calls reaches, with a property that can be
checked. -/
theorem Reachable.of_after [DecidablePred bad] {P : σ → Prop} [DecidablePred P]
    (events : List η) (reached : sys.Reachable bad s)
    (found : (sys.after bad events s).any (fun s' => decide (P s')) = true) :
    ∃ s', sys.Reachable bad s' ∧ P s' := by
  induction events generalizing s with
  | nil => exact ⟨s, reached, of_decide_eq_true found⟩
  | cons e events ih =>
      unfold after at found
      split at found
      · rename_i calls s' ran
        split at found
        · rename_i good
          have stepped : sys.Steps bad s e s' := ⟨by rw [ran], by rw [ran]; exact good⟩
          exact ih (.step reached stepped) found
        · cases found
      · cases found

/-- An event of a run, with a property of the states before and after it that can be
checked. -/
theorem Reachable.of_after_step [DecidablePred bad] {P : σ → σ → Prop}
    [∀ s s', Decidable (P s s')] (events : List η) (e : η) (reached : sys.Reachable bad s)
    (found : (sys.after bad events s).any (fun s₁ =>
      (sys.after bad [e] s₁).any fun s' => decide (P s₁ s')) = true) :
    ∃ s₁ s', sys.Reachable bad s₁ ∧ sys.Steps bad s₁ e s' ∧ P s₁ s' := by
  obtain ⟨s₁, reached₁, next⟩ := of_after (P := fun s₁ => (sys.after bad [e] s₁).any
    (fun s' => decide (P s₁ s')) = true) events reached (by simpa using found)
  unfold after at next
  split at next
  · rename_i calls s' ran
    split at next
    · rename_i good
      exact ⟨s₁, s', reached₁, ⟨by rw [ran], by rw [ran]; exact good⟩, of_decide_eq_true next⟩
    · cases next
  · cases next

end System

end Btpd
