import Mathlib

/-!
# Linked lists in a memory

`next` is the link of each cell.  A list of cells is `Linked` from a link when it is what
one meets on the way to the end; there is only one such list, so no cell stands in it twice
and a cell of its own can be changed without any effect on other lists.
-/

namespace Btpd

variable {α : Type} {next next' : α → Option α} {p : Option α} {l l' a b : List α} {x y : α}

/-- The cells from a link on, up to the end. -/
def Linked (next : α → Option α) : Option α → List α → Prop
  | p, [] => p = none
  | p, x :: xs => p = some x ∧ Linked next (next x) xs

@[simp]
theorem linked_nil : Linked next p [] ↔ p = none := Iff.rfl

@[simp]
theorem linked_cons : Linked next p (x :: l) ↔ p = some x ∧ Linked next (next x) l := Iff.rfl

theorem Linked.of_none (linked : Linked next none l) : l = [] := by
  cases l with
  | nil => rfl
  | cons x l => exact absurd linked.1 nofun

theorem Linked.of_some (linked : Linked next (some x) l) :
    ∃ rest, l = x :: rest ∧ Linked next (next x) rest := by
  cases l with
  | nil => exact absurd linked nofun
  | cons y l =>
      obtain ⟨here, rest⟩ := linked
      cases here
      exact ⟨l, rfl, rest⟩

/-- The links decide what the list is. -/
theorem Linked.unique (linked : Linked next p l) (linked' : Linked next p l') : l = l' := by
  induction l generalizing p l' with
  | nil =>
      rw [linked_nil] at linked
      subst linked
      exact linked'.of_none.symm
  | cons x l ih =>
      obtain ⟨rfl, rest⟩ := linked
      obtain ⟨l'', rfl, rest'⟩ := linked'.of_some
      rw [ih rest rest']

/-- What follows a cell. -/
theorem Linked.drop (linked : Linked next p (a ++ x :: b)) : Linked next (next x) b := by
  induction a generalizing p with
  | nil => exact linked.2
  | cons y a ih => exact ih linked.2

/-- No cell stands in the list twice. -/
theorem Linked.nodup (linked : Linked next p l) : l.Nodup := by
  induction l generalizing p with
  | nil => exact List.nodup_nil
  | cons x l ih =>
      refine List.nodup_cons.mpr ⟨fun again => ?_, ih linked.2⟩
      obtain ⟨a, b, rfl⟩ := List.append_of_mem again
      -- the rest after the second occurrence would be the rest after the first
      have same := linked.2.unique linked.2.drop
      have lengths := congrArg List.length same
      simp only [List.length_append, List.length_cons] at lengths
      omega

/-- Links elsewhere do not matter. -/
theorem Linked.frame (linked : Linked next p l) (same : ∀ x ∈ l, next' x = next x) :
    Linked next' p l := by
  induction l generalizing p with
  | nil => exact linked
  | cons x l ih =>
      obtain ⟨here, rest⟩ := linked
      refine ⟨here, ?_⟩
      rw [same x List.mem_cons_self]
      exact ih rest fun y mem => same y (List.mem_cons_of_mem x mem)

section Update

variable [DecidableEq α] {v : Option α}

theorem Linked.update (linked : Linked next p l) (other : x ∉ l) :
    Linked (Function.update next x v) p l := by
  refine linked.frame fun y mem => Function.update_of_ne ?_ ..
  rintro rfl
  exact other mem

/-- A cell in front. -/
theorem Linked.cons (linked : Linked next p l) (other : x ∉ l) :
    Linked (Function.update next x p) (some x) (x :: l) := by
  refine ⟨rfl, ?_⟩
  rw [Function.update_self]
  exact linked.update other

/-- The link to a cell in the middle is replaced by the link after it. -/
theorem Linked.skip (linked : Linked next p (a ++ y :: x :: b)) :
    Linked (Function.update next y (next x)) p (a ++ y :: b) := by
  have nodup := linked.nodup
  induction a generalizing p with
  | nil =>
      refine ⟨linked.1, ?_⟩
      rw [Function.update_self]
      refine linked.2.2.update fun mem => ?_
      exact (List.nodup_cons.mp nodup).1 (List.mem_cons_of_mem x mem)
  | cons z a ih =>
      obtain ⟨here, rest⟩ := linked
      obtain ⟨other, nodup⟩ := List.nodup_cons.mp nodup
      refine ⟨here, ?_⟩
      rw [Function.update_of_ne]
      · exact ih rest nodup
      · rintro rfl
        exact other (List.mem_append_right a List.mem_cons_self)

end Update

end Btpd
