import Mathlib

/-!
# Windows and queues

A block of memory is a list; a part of it is read through a window and written by
overwriting.  A queue is what remains of the elements that were put in when those that were
taken out are gone, in the order in which they came.
-/

namespace Btpd

variable {α : Type} {xs ys zs : List α} {p q n : Nat}

/-- `n` elements from `p` on. -/
def window (xs : List α) (p n : Nat) : List α := (xs.drop p).take n

/-- The list with `ys` written from `p` on. -/
def overwrite (xs : List α) (p : Nat) (ys : List α) : List α :=
  xs.take p ++ (ys ++ xs.drop (p + ys.length))

/-- What begins at `p` is what the window of its length shows. -/
theorem window_of_prefix (begins : zs <+: xs.drop p) : window xs p zs.length = zs :=
  (List.prefix_iff_eq_take.mp begins).symm

/-- What remains of a prefix is a prefix of what remains. -/
theorem prefix_drop (begins : xs <+: ys) : xs.drop n <+: ys.drop n := by
  rcases begins with ⟨rest, rfl⟩
  rw [List.drop_append]
  exact List.prefix_append _ _

theorem length_overwrite (room : p + ys.length ≤ xs.length) :
    (overwrite xs p ys).length = xs.length := by
  rw [overwrite, List.length_append, List.length_append, List.length_take, List.length_drop]
  omega

/-- What was written begins where it was written. -/
theorem prefix_overwrite (room : p + ys.length ≤ xs.length) :
    ys <+: (overwrite xs p ys).drop p := by
  have start : (xs.take p).length = p := List.length_take_of_le (by omega)
  rw [overwrite, List.drop_left' start]
  exact List.prefix_append _ _

/-- Writing behind what begins at `q` makes it longer. -/
theorem prefix_append_overwrite (begins : zs <+: xs.drop q) (next : q + zs.length = p)
    (room : p + ys.length ≤ xs.length) : zs ++ ys <+: (overwrite xs p ys).drop q := by
  have kept : (xs.take p).drop q = zs := by
    rw [List.drop_take, ← next, Nat.add_sub_cancel_left]
    exact window_of_prefix begins
  have start : (xs.take p).length = p := List.length_take_of_le (by omega)
  rw [overwrite, List.drop_append_of_le_length (by omega), kept, ← List.append_assoc]
  exact List.prefix_append _ _

/-! ## Queues -/

/-- A queue that takes no more elements once it has failed. -/
structure Queue (α : Type) where
  pending : List α
  failed : Bool

/-- What can happen to a queue. -/
inductive Queue.Change (α : Type)
  | put (xs : List α)
  | take (n : Nat)
  | fail

namespace Queue

/-- The queue after a change. -/
def change (queue : Queue α) : Change α → Queue α
  | .put xs => { queue with pending := queue.pending ++ xs }
  | .take n => { queue with pending := queue.pending.drop n }
  | .fail => { queue with failed := true }

/-- The elements that were put in. -/
def putIn : List (Change α) → List α
  | [] => []
  | .put xs :: cs => xs ++ putIn cs
  | .take _ :: cs => putIn cs
  | .fail :: cs => putIn cs

/-- The number of elements that were taken out. -/
def takenOut : List (Change α) → Nat
  | [] => 0
  | .put _ :: cs => takenOut cs
  | .take n :: cs => n + takenOut cs
  | .fail :: cs => takenOut cs

variable {queue : Queue α} {c : Change α} {cs cs' : List (Change α)}

theorem putIn_append : putIn (cs ++ cs') = putIn cs ++ putIn cs' := by
  induction cs with
  | nil => rfl
  | cons c cs ih =>
      cases c with
      | put xs => rw [List.cons_append, putIn, putIn, ih, List.append_assoc]
      | take n => exact ih
      | fail => exact ih

theorem takenOut_append : takenOut (cs ++ cs') = takenOut cs + takenOut cs' := by
  induction cs with
  | nil => exact (Nat.zero_add _).symm
  | cons c cs ih =>
      cases c with
      | put xs => exact ih
      | take n => rw [List.cons_append, takenOut, takenOut, ih, Nat.add_assoc]
      | fail => exact ih

/-- The queue holds what was put in without what was taken out. -/
structure Remains (queue : Queue α) (cs : List (Change α)) : Prop where
  pending : queue.pending = (putIn cs).drop (takenOut cs)
  taken : takenOut cs ≤ (putIn cs).length

theorem remains_nil (failed : Bool) : Remains (⟨[], failed⟩ : Queue α) [] :=
  ⟨rfl, Nat.le_refl 0⟩

/-- A change that can happen is accounted for. -/
theorem Remains.change (remains : queue.Remains cs)
    (allowed : ∀ n, c = .take n → n ≤ queue.pending.length) :
    (queue.change c).Remains (cs ++ [c]) := by
  rcases remains with ⟨pending, taken⟩
  constructor
  · rw [putIn_append, takenOut_append]
    cases c with
    | put xs => simp [Queue.change, putIn, takenOut, pending, List.drop_append_of_le_length taken]
    | take n => simp [Queue.change, putIn, takenOut, pending, Nat.add_comm]
    | fail => simp [Queue.change, putIn, takenOut, pending]
  · rw [putIn_append, takenOut_append, List.length_append]
    cases c with
    | put xs => exact Nat.le_trans taken (Nat.le_add_right _ _)
    | take n =>
        have within := allowed n rfl
        rw [pending, List.length_drop] at within
        simp only [takenOut, putIn, List.length_nil]
        omega
    | fail => exact taken

end Queue

end Btpd
