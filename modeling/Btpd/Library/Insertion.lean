import Mathlib

/-!
# Lists sorted by a key

An element is put behind all that have no larger key.  A list stays sorted when elements
whose keys have changed are taken out and put in again, whatever their new keys are.
-/

namespace Btpd

variable {α κ : Type} [LinearOrder κ] {key key' : α → κ} {x : α} {xs ys : List α}

/-- The keys do not decrease. -/
def SortedBy (key : α → κ) (xs : List α) : Prop := xs.Pairwise fun x y => key x ≤ key y

/-- Put an element before the first one with a larger key. -/
def insertBy (key : α → κ) (x : α) (xs : List α) : List α :=
  xs.takeWhile (fun y => decide (key y ≤ key x)) ++
    x :: xs.dropWhile fun y => decide (key y ≤ key x)

/-- Put elements in, one after the other. -/
def insertAllBy (key : α → κ) (ys xs : List α) : List α :=
  ys.foldl (fun xs y => insertBy key y xs) xs

/-- Only the keys of the elements matter. -/
theorem SortedBy.congr (sorted : SortedBy key xs) (same : ∀ x ∈ xs, key' x = key x) :
    SortedBy key' xs := by
  apply List.Pairwise.imp_of_mem _ sorted
  intro x y memX memY le
  rw [same x memX, same y memY]
  exact le

theorem SortedBy.sublist (sorted : SortedBy key xs) (sublist : ys.Sublist xs) :
    SortedBy key ys :=
  List.Pairwise.sublist sublist sorted

/-- Whoever has a smaller key than one in front is in front too. -/
theorem SortedBy.mem_of_front (sorted : SortedBy key xs) (front : ys <+: xs) {y : α}
    (memX : x ∈ ys) (memY : y ∈ xs) (less : key y < key x) : y ∈ ys := by
  obtain ⟨rest, rfl⟩ := front
  rcases List.mem_append.mp memY with inside | after
  · exact inside
  · have le := (List.pairwise_append.mp sorted).2.2 x memX y after
    exact absurd less (not_lt_of_ge le)

theorem insertBy_perm : (insertBy key x xs).Perm (x :: xs) := by
  apply List.perm_middle.trans
  rw [List.takeWhile_append_dropWhile]

/-- Behind the place of an element all keys are larger. -/
theorem lt_of_mem_dropWhile (sorted : SortedBy key xs) {y : α}
    (mem : y ∈ xs.dropWhile fun y => decide (key y ≤ key x)) : key x < key y := by
  induction xs with
  | nil => exact absurd mem List.not_mem_nil
  | cons z xs ih =>
      rcases List.pairwise_cons.mp sorted with ⟨first, rest⟩
      by_cases le : key z ≤ key x
      · rw [List.dropWhile_cons_of_pos (by simpa using le)] at mem
        exact ih rest mem
      · rw [List.dropWhile_cons_of_neg (by simpa using le)] at mem
        rcases List.mem_cons.mp mem with rfl | later
        · exact lt_of_not_ge le
        · exact lt_of_lt_of_le (lt_of_not_ge le) (first y later)

theorem SortedBy.insertBy (sorted : SortedBy key xs) : SortedBy key (insertBy key x xs) := by
  apply List.pairwise_append.mpr
  refine ⟨sorted.sublist (List.takeWhile_sublist _), ?_, ?_⟩
  · apply List.pairwise_cons.mpr
    constructor
    · intro y mem
      exact le_of_lt (lt_of_mem_dropWhile sorted mem)
    · exact sorted.sublist (List.dropWhile_sublist _)
  · intro y memY z memZ
    have small : key y ≤ key x := by
      simpa using List.mem_takeWhile_imp memY
    rcases List.mem_cons.mp memZ with rfl | later
    · exact small
    · exact le_of_lt (lt_of_le_of_lt small (lt_of_mem_dropWhile sorted later))

theorem insertAllBy_perm : (insertAllBy key ys xs).Perm (ys ++ xs) := by
  induction ys generalizing xs with
  | nil => exact List.Perm.refl _
  | cons y ys ih => exact ih.trans ((insertBy_perm.append_left ys).trans List.perm_middle)

theorem SortedBy.insertAllBy (sorted : SortedBy key xs) :
    SortedBy key (insertAllBy key ys xs) := by
  induction ys generalizing xs with
  | nil => exact sorted
  | cons y ys ih => exact ih sorted.insertBy

/-- Elements with new keys that are taken out and put in again leave the list sorted. -/
theorem SortedBy.reinsert [DecidableEq α] (sorted : SortedBy key xs)
    (same : ∀ x ∈ xs, x ∉ ys → key' x = key x) :
    SortedBy key' (Btpd.insertAllBy key' ys (xs.filter (· ∉ ys))) := by
  apply SortedBy.insertAllBy
  apply (sorted.sublist List.filter_sublist).congr
  intro x mem
  rcases List.mem_filter.mp mem with ⟨memX, outside⟩
  exact same x memX (by simpa using outside)

/-- They are the elements that were there. -/
theorem reinsert_perm [DecidableEq α] (distinct : xs.Nodup) (distinct' : ys.Nodup)
    (inside : ∀ y ∈ ys, y ∈ xs) :
    (insertAllBy key ys (xs.filter (· ∉ ys))).Perm xs := by
  apply insertAllBy_perm.trans
  apply (List.perm_ext_iff_of_nodup _ distinct).mpr
  · intro x
    rw [List.mem_append, List.mem_filter]
    by_cases mem : x ∈ ys
    · simp [mem, inside x mem]
    · simp [mem]
  · apply List.nodup_append.mpr
    refine ⟨distinct', distinct.filter _, ?_⟩
    rintro x mem y kept rfl
    exact absurd mem (by simpa using (List.mem_filter.mp kept).2)

end Btpd
