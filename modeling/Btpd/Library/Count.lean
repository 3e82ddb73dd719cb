import Mathlib

/-!
# Counting the elements of a list with a property

A list without repetitions counts one more element when the property becomes
true of exactly one more of its elements, and its sum grows by what one element
grows.
-/

namespace Btpd.Count

variable {α : Type} [DecidableEq α] {f g : α → Bool} {a : α}

/-- Elements outside the list do not count. -/
theorem countP_update_of_notMem {xs : List α} {b : Bool} (notMem : a ∉ xs) :
    xs.countP (Function.update f a b) = xs.countP f := by
  refine List.countP_congr fun x mem => ?_
  have other : x ≠ a := fun same => notMem (same ▸ mem)
  rw [Function.update_of_ne other]

/-- One element more has the property. -/
theorem countP_update {xs : List α} (nodup : xs.Nodup) (mem : a ∈ xs) (unset : f a = false) :
    xs.countP (Function.update f a true) = xs.countP f + 1 := by
  induction xs with
  | nil => cases mem
  | cons x xs ih =>
      obtain ⟨notMem, nodup⟩ := List.nodup_cons.mp nodup
      rw [List.countP_cons, List.countP_cons]
      rcases List.mem_cons.mp mem with here | later
      · subst here
        rw [countP_update_of_notMem notMem, Function.update_self, unset]
        rfl
      · have other : x ≠ a := fun same => notMem (same ▸ later)
        rw [ih nodup later, Function.update_of_ne other]
        omega

/-- Two properties that differ only in that `a` has the second. -/
theorem countP_succ {xs : List α} (nodup : xs.Nodup) (mem : a ∈ xs) (unset : f a = false)
    (set : g a = true) (same : ∀ x ∈ xs, x ≠ a → g x = f x) :
    xs.countP g = xs.countP f + 1 := by
  rw [← countP_update nodup mem unset]
  refine List.countP_congr fun x xMem => ?_
  by_cases here : x = a
  · rw [here, set, Function.update_self]
  · rw [same x xMem here, Function.update_of_ne here]

omit [DecidableEq α] in
/-- A sum grows by what one of its terms grows. -/
theorem sum_map_add {f g : α → Nat} {d : Nat} {xs : List α} (nodup : xs.Nodup) (mem : a ∈ xs)
    (more : g a = f a + d) (same : ∀ x ∈ xs, x ≠ a → g x = f x) :
    (xs.map g).sum = (xs.map f).sum + d := by
  induction xs with
  | nil => cases mem
  | cons x xs ih =>
      obtain ⟨notMem, nodup⟩ := List.nodup_cons.mp nodup
      rw [List.forall_mem_cons] at same
      rw [List.map_cons, List.map_cons, List.sum_cons, List.sum_cons]
      rcases List.mem_cons.mp mem with here | later
      · subst here
        have rest : xs.map g = xs.map f :=
          List.map_congr_left fun y yMem => same.2 y yMem fun here => notMem (here ▸ yMem)
        rw [rest, more]
        omega
      · have other : x ≠ a := fun here => notMem (here ▸ later)
        rw [ih nodup later same.2, same.1 other]
        omega

/-- The first element with a property, and the others. -/
theorem perm_cons_eraseP {β : Type} {xs : List β} {x : β} {q : β → Bool}
    (found : xs.find? q = some x) : xs.Perm (x :: xs.eraseP q) := by
  induction xs with
  | nil => cases found
  | cons y ys ih =>
      cases here : q y with
      | true =>
          rw [List.find?_cons_of_pos here] at found
          rw [List.eraseP_cons_of_pos here, Option.some.inj found]
      | false =>
          have other : ¬ q y = true := Bool.eq_false_iff.mp here
          rw [List.find?_cons_of_neg other] at found
          rw [List.eraseP_cons_of_neg other]
          exact ((ih found).cons y).trans (List.Perm.swap ..)

end Btpd.Count
