import Mathlib

/-!
# Arrays put end to end

Places in a sequence of arrays, of which only the lengths matter here: where each
array starts, and which array holds a place of the whole.
-/

namespace Btpd.Segments

variable {ls : List Nat} {i j k o : Nat}

/-- Where the array `i` starts. -/
def start (ls : List Nat) (i : Nat) : Nat := (ls.take i).sum

/-- The array that holds a place, with the place in it. -/
def locate : List Nat → Nat → Option (Nat × Nat)
  | [], _ => none
  | l :: ls, o => if o < l then some (0, o) else (locate ls (o - l)).map fun x => (x.1 + 1, x.2)

@[simp]
theorem start_zero : start ls 0 = 0 := rfl

@[simp]
theorem start_cons {l : Nat} : start (l :: ls) (i + 1) = l + start ls i := by
  simp [start]

theorem start_succ : start ls (i + 1) = start ls i + ls.getD i 0 := by
  induction ls generalizing i with
  | nil => simp [start]
  | cons l ls ih =>
      cases i with
      | zero => simp
      | succ i =>
          rw [start_cons, start_cons, ih, List.getD_cons_succ, Nat.add_assoc]

theorem start_of_length_le (le : ls.length ≤ i) : start ls i = ls.sum := by
  rw [start, List.take_of_length_le le]

theorem start_mono (le : i ≤ j) : start ls i ≤ start ls j := by
  induction le with
  | refl => exact Nat.le_refl _
  | step _ ih => exact Nat.le_trans ih (start_succ ▸ Nat.le_add_right _ _)

theorem start_le_sum : start ls i ≤ ls.sum := by
  rcases Nat.le_total i ls.length with le | le
  · exact Nat.le_trans (start_mono le) (Nat.le_of_eq (start_of_length_le (Nat.le_refl _)))
  · exact Nat.le_of_eq (start_of_length_le le)

theorem lt_length (lt : j < ls.getD i 0) : i < ls.length := by
  rcases Nat.lt_or_ge i ls.length with here | beyond
  · exact here
  · rw [List.getD_eq_default _ _ beyond] at lt
    cases lt

/-- The array that holds a place is the one that starts before it and ends after it. -/
theorem locate_eq_some :
    locate ls o = some (i, j) ↔ j < ls.getD i 0 ∧ o = start ls i + j := by
  induction ls generalizing i o with
  | nil => simp [locate]
  | cons l ls ih =>
      unfold locate
      by_cases here : o < l
      · rw [if_pos here]
        cases i with
        | zero =>
            rw [List.getD_cons_zero, start_zero, Nat.zero_add]
            constructor
            · rintro ⟨⟩
              exact ⟨here, rfl⟩
            · rintro ⟨-, rfl⟩
              rfl
        | succ i =>
            refine iff_of_false nofun ?_
            rintro ⟨-, rfl⟩
            rw [start_cons, Nat.add_assoc] at here
            exact absurd here (Nat.not_lt.mpr (Nat.le_add_right _ _))
      · rw [if_neg here]
        cases i with
        | zero =>
            refine iff_of_false ?_ ?_
            · cases locate ls (o - l) <;> simp
            · rw [List.getD_cons_zero, start_zero, Nat.zero_add]
              rintro ⟨lt, rfl⟩
              exact here lt
        | succ i =>
            have inner : (locate ls (o - l)).map (fun x => (x.1 + 1, x.2)) = some (i + 1, j) ↔
                locate ls (o - l) = some (i, j) := by
              cases locate ls (o - l) <;> simp [Prod.ext_iff]
            rw [inner, ih, List.getD_cons_succ, start_cons]
            refine and_congr_right fun _ => ?_
            omega

/-- Every place of the whole is in one of the arrays. -/
theorem exists_locate (lt : o < ls.sum) : ∃ i j, locate ls o = some (i, j) := by
  induction ls generalizing o with
  | nil => cases lt
  | cons l ls ih =>
      rw [List.sum_cons] at lt
      unfold locate
      by_cases here : o < l
      · exact ⟨0, o, if_pos here⟩
      · obtain ⟨i, j, found⟩ := ih (o := o - l) (by omega)
        refine ⟨i + 1, j, ?_⟩
        rw [if_neg here, found]
        rfl

/-- A place in an array is that place of the whole. -/
theorem locate_start (lt : j < ls.getD i 0) : locate ls (start ls i + j) = some (i, j) :=
  locate_eq_some.mpr ⟨lt, rfl⟩

end Btpd.Segments
