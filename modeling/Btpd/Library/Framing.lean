import Mathlib

/-!
# Reading units from a stream that comes in pieces

A reader waits for a unit of some length, and when it has one it goes to its next
state, which may wait for a unit of another length.  The stream comes in pieces
that are cut anywhere.  A reader that takes whole units straight from a piece and
keeps only the beginning of a unit for the next piece ends in the state in which
one ends that is given the elements one by one.
-/

namespace Btpd

/-- A reader of units: how many elements it needs, how it goes on with a unit,
and when it has stopped.  Before that it is told of elements as they come. -/
structure Framing (σ α : Type) where
  need : σ → Nat
  progress : σ → Nat → σ
  next : σ → List α → σ
  stopped : σ → Bool

namespace Framing

variable {σ α : Type}

/-- What a reader does: it is told of elements in any portions, and needs an
element at the latest after a unit of none. -/
structure Lawful (m : Framing σ α) : Prop where
  progress_zero : ∀ s, m.progress s 0 = s
  progress_add : ∀ s j k, m.progress (m.progress s j) k = m.progress s (j + k)
  need_progress : ∀ s k, m.need (m.progress s k) = m.need s
  stopped_progress : ∀ s k, m.stopped (m.progress s k) = m.stopped s
  awake : ∀ s, m.need s = 0 → m.stopped (m.next s []) = false → 0 < m.need (m.next s [])

variable (m : Framing σ α)

/-- The reader with the beginning of a unit that it keeps. -/
abbrev Held (σ α : Type) : Type := σ × List α

/-- A unit of no elements is there at once. -/
def settle (s : σ) : Held σ α :=
  if m.stopped s = false ∧ m.need s = 0 then (m.next s [], []) else (s, [])

/-- Give the reader one element. -/
def push (r : Held σ α) (x : α) : Held σ α :=
  if m.stopped r.1 then r
  else if r.2.length + 1 < m.need r.1 then (m.progress r.1 1, r.2 ++ [x])
  else m.settle (m.next (m.progress r.1 1) (r.2 ++ [x]))

/-- Give the reader elements one by one. -/
def pushes (r : Held σ α) (xs : List α) : Held σ α := xs.foldl m.push r

/-- Take whole units from the elements, as long as there are any. -/
def drain : (fuel : Nat) → σ → List α → Option (Held σ α)
  | 0, _, _ => none
  | fuel + 1, s, xs =>
      if m.stopped s then some (s, [])
      else if m.need s ≤ xs.length then
        drain fuel (m.next (m.progress s (m.need s)) (xs.take (m.need s))) (xs.drop (m.need s))
      else some (m.progress s xs.length, xs)

/-- The reader waits for more than it keeps, or has stopped. -/
def Waits (r : Held σ α) : Prop :=
  r.2.length < m.need r.1 ∨ m.stopped r.1 = true ∧ r.2 = []

variable {m} {s : σ} {held xs : List α}

/-- A reader that has stopped leaves the rest. -/
theorem drain_stopped {fuel : Nat} {r : Held σ α} (stopped : m.stopped s = true)
    (drained : m.drain fuel s xs = some r) : r = (s, []) := by
  cases fuel with
  | zero => cases drained
  | succ fuel =>
      unfold drain at drained
      rw [if_pos stopped] at drained
      exact (Option.some.inj drained).symm

theorem pushes_append {r : Held σ α} {ys : List α} :
    m.pushes r (xs ++ ys) = m.pushes (m.pushes r xs) ys :=
  List.foldl_append

theorem pushes_stopped {r : Held σ α} (stopped : m.stopped r.1 = true) : m.pushes r xs = r := by
  induction xs with
  | nil => rfl
  | cons x xs ih =>
      show m.pushes (m.push r x) xs = r
      rw [push, if_pos stopped, ih]

section

variable (lawful : m.Lawful)

include lawful

/-- Too few elements for a unit are kept. -/
theorem pushes_short (alive : m.stopped s = false) (short : held.length + xs.length < m.need s) :
    m.pushes (s, held) xs = (m.progress s xs.length, held ++ xs) := by
  induction xs generalizing s held with
  | nil =>
      rw [List.append_nil, List.length_nil, lawful.progress_zero]
      rfl
  | cons x xs ih =>
      rw [List.length_cons] at short
      show m.pushes (m.push (s, held) x) xs = _
      have pushed : m.push (s, held) x = (m.progress s 1, held ++ [x]) := by
        rw [push, if_neg (by rw [alive]; decide), if_pos (show held.length + 1 < m.need s by omega)]
      rw [pushed, ih ((lawful.stopped_progress s 1).trans alive)
        (by rw [lawful.need_progress, List.length_append, List.length_singleton]; omega),
        lawful.progress_add, List.length_cons, Nat.add_comm 1, List.append_assoc]
      rfl

/-- The last element of a unit completes it. -/
theorem pushes_exact (alive : m.stopped s = false) (some : held.length < m.need s)
    (exact : held.length + xs.length = m.need s) :
    m.pushes (s, held) xs = m.settle (m.next (m.progress s xs.length) (held ++ xs)) := by
  obtain ⟨first, x, rfl⟩ : ∃ first x, xs = first ++ [x] :=
    (List.eq_nil_or_concat' xs).resolve_left fun empty => by
      rw [empty, List.length_nil] at exact
      omega
  rw [List.length_append, List.length_singleton] at exact
  rw [pushes_append, pushes_short lawful alive (by omega)]
  show m.push (m.progress s first.length, held ++ first) x = _
  rw [push, if_neg (by rw [lawful.stopped_progress, alive]; decide), if_neg ?_]
  · rw [lawful.progress_add, List.length_append, List.append_assoc]
    rfl
  · rw [lawful.need_progress, List.length_append]
    omega

omit lawful in
theorem settle_of_awake (awake : m.stopped s = false → 0 < m.need s) :
    m.settle s = (s, []) := by
  unfold settle
  split
  · rename_i both
    exact absurd both.2 (Nat.pos_iff_ne_zero.mp (awake both.1))
  · rfl

/-- Taking whole units is the same as taking element by element. -/
theorem drain_eq (fuel : Nat)
    (enough : 2 * xs.length + (if m.stopped s = false ∧ m.need s = 0 then 1 else 0) < fuel) :
    m.drain fuel s xs = some (m.pushes (m.settle s) xs) := by
  induction fuel generalizing s xs with
  | zero => exact absurd enough (Nat.not_lt_zero _)
  | succ fuel ih =>
      unfold drain
      split
      · rename_i stopped
        rw [settle_of_awake fun alive => absurd (stopped.symm.trans alive) (by decide),
          pushes_stopped stopped]
      rename_i alive
      rw [Bool.not_eq_true] at alive
      split
      · rename_i whole
        rcases Nat.eq_zero_or_pos (m.need s) with zero | some
        · -- a unit of no elements is followed by one of some
          rw [if_pos ⟨alive, zero⟩] at enough
          have awake := lawful.awake s zero
          rw [zero, lawful.progress_zero, List.take_zero, List.drop_zero]
          rw [settle, if_pos ⟨alive, zero⟩, ← settle_of_awake awake]
          refine ih ?_
          rw [if_neg fun both => absurd both.2 (Nat.pos_iff_ne_zero.mp (awake both.1))]
          omega
        · have cut : (xs.take (m.need s)).length = m.need s := List.length_take_of_le whole
          have first : m.pushes (s, []) (xs.take (m.need s)) =
              m.settle (m.next (m.progress s (m.need s)) (xs.take (m.need s))) := by
            have exact := pushes_exact lawful alive (show ([] : List α).length < m.need s from some)
              ((Nat.zero_add (xs.take (m.need s)).length).trans cut)
            rwa [cut, List.nil_append] at exact
          rw [settle_of_awake fun _ => some]
          conv_rhs => rw [← List.take_append_drop (m.need s) xs]
          rw [pushes_append, first]
          refine ih ?_
          rw [List.length_drop]
          split <;> omega
      · rename_i short
        rw [settle_of_awake fun _ => by omega,
          pushes_short lawful alive (by rw [List.length_nil]; omega), List.nil_append]

omit lawful in
variable (m) in
/-- Give the reader a piece of the stream: complete the unit that has begun, take
whole units, and keep the rest. -/
def read (fuel : Nat) (r : Held σ α) (xs : List α) : Option (Held σ α) :=
  if m.stopped r.1 then some r
  else if r.2 = [] then m.drain fuel r.1 xs
  else
    let rest := m.need r.1 - r.2.length
    if xs.length < rest then some (m.progress r.1 xs.length, r.2 ++ xs)
    else m.drain fuel (m.next (m.progress r.1 rest) (r.2 ++ xs.take rest)) (xs.drop rest)

/-- A piece is read as its elements are one by one. -/
theorem read_eq {r : Held σ α} (waits : m.Waits r) {fuel : Nat}
    (enough : 2 * xs.length + 1 < fuel) : m.read fuel r xs = some (m.pushes r xs) := by
  obtain ⟨s, held⟩ := r
  unfold read
  split
  · rename_i stopped
    rw [pushes_stopped stopped]
  rename_i alive
  rw [Bool.not_eq_true] at alive
  have short : held.length < m.need s :=
    waits.resolve_right fun both => absurd (both.1.symm.trans alive) (by decide)
  dsimp only
  split
  · rename_i empty
    obtain rfl : held = [] := empty
    have some : 0 < m.need s := short
    rw [drain_eq lawful fuel (by split <;> omega), settle_of_awake fun _ => some]
  · split
    · rename_i few
      rw [pushes_short lawful alive (show held.length + xs.length < m.need s by omega)]
    · rename_i many
      have cut : (xs.take (m.need s - held.length)).length = m.need s - held.length :=
        List.length_take_of_le (Nat.not_lt.mp many)
      have fills : held.length + (xs.take (m.need s - held.length)).length = m.need s := by
        omega
      have first := pushes_exact lawful alive short fills
      rw [cut] at first
      conv_rhs => rw [← List.take_append_drop (m.need s - held.length) xs]
      rw [pushes_append, first]
      refine drain_eq lawful fuel ?_
      rw [List.length_drop]
      split <;> omega

/-- A reader that has taken what is there waits for more. -/
theorem waits_settle : m.Waits (m.settle s) := by
  unfold settle
  split
  · rename_i both
    cases stopped : m.stopped (m.next s []) with
    | false => exact .inl (lawful.awake s both.2 stopped)
    | true => exact .inr ⟨stopped, rfl⟩
  · rename_i other
    cases stopped : m.stopped s with
    | false => exact .inl (Nat.pos_of_ne_zero fun zero => other ⟨stopped, zero⟩)
    | true => exact .inr ⟨stopped, rfl⟩

theorem waits_push {r : Held σ α} {x : α} (waits : m.Waits r) : m.Waits (m.push r x) := by
  unfold push
  split
  · exact waits
  split
  · rename_i short
    refine .inl ?_
    rw [List.length_append, List.length_singleton, lawful.need_progress]
    exact short
  · exact waits_settle lawful

variable (xs) in
theorem waits_pushes {r : Held σ α} (waits : m.Waits r) : m.Waits (m.pushes r xs) := by
  induction xs generalizing r with
  | nil => exact waits
  | cons x xs ih => exact ih (waits_push lawful waits)

variable (xs) in
/-- What holds of a reader and goes on to hold as it is told of elements and takes
units holds after any elements. -/
theorem pushes_invariant (inv : σ → Prop) (progress : ∀ s k, inv s → inv (m.progress s k))
    (next : ∀ s xs, inv s → m.stopped s = false → xs.length = m.need s → inv (m.next s xs))
    {r : Held σ α} (waits : m.Waits r) (start : inv r.1) : inv (m.pushes r xs).1 := by
  induction xs generalizing r with
  | nil => exact start
  | cons x xs ih =>
      refine ih (waits_push lawful waits) ?_
      have settled : ∀ s, inv s → inv (m.settle s).1 := by
        intro s good
        unfold settle
        split
        · rename_i both
          exact next s [] good both.1 both.2.symm
        · exact good
      unfold push
      split
      · exact start
      rename_i alive
      rw [Bool.not_eq_true] at alive
      have short : r.2.length < m.need r.1 :=
        waits.resolve_right fun both => absurd (both.1.symm.trans alive) (by decide)
      split
      · exact progress r.1 1 start
      · refine settled _ (next _ _ (progress r.1 1 start) ?_ ?_)
        · rw [lawful.stopped_progress, alive]
        · rw [List.length_append, List.length_singleton, lawful.need_progress]
          omega

omit lawful in
variable (xs) in
/-- What a reader has taken and what it keeps is what it was given, up to where it
stopped. -/
theorem pushes_log (log : σ → List α) (progress : ∀ s k, log (m.progress s k) = log s)
    (next : ∀ s xs, log (m.next s xs) = log s ++ xs) {r : Held σ α} :
    ∃ left, log r.1 ++ r.2 ++ xs = log (m.pushes r xs).1 ++ (m.pushes r xs).2 ++ left ∧
      (m.stopped (m.pushes r xs).1 = false → left = []) := by
  induction xs generalizing r with
  | nil => exact ⟨[], rfl, fun _ => rfl⟩
  | cons x xs ih =>
      have settled : ∀ s, log (m.settle s).1 ++ (m.settle s).2 = log s := by
        intro s
        unfold settle
        split
        · exact (List.append_nil _).trans ((next s []).trans (List.append_nil _))
        · exact List.append_nil _
      cases stopped : m.stopped r.1 with
      | true =>
          rw [pushes_stopped stopped]
          exact ⟨x :: xs, rfl, fun alive => absurd (stopped.symm.trans alive) (by decide)⟩
      | false =>
          obtain ⟨left, same, none⟩ := ih (r := m.push r x)
          refine ⟨left, Eq.trans ?_ same, none⟩
          have pushed : log (m.push r x).1 ++ (m.push r x).2 = log r.1 ++ r.2 ++ [x] := by
            unfold push
            rw [if_neg (by rw [stopped]; decide)]
            split
            · show log (m.progress r.1 1) ++ (r.2 ++ [x]) = _
              rw [progress, List.append_assoc]
            · rw [settled, next, progress, List.append_assoc]
          rw [pushed, List.append_assoc _ [x], List.singleton_append]

end

end Framing

end Btpd
