import Mathlib

/-!
# Joined lists that are read up to a terminator

A join of parts with a separator, cut off at the first terminator, is again a
join: of the parts before the first one that contains the terminator, and of
that part cut off.
-/

namespace Btpd.Join

variable {α : Type} [DecidableEq α]

/-- The elements before the first `z`. -/
def cutAt (z : α) (xs : List α) : List α := xs.takeWhile fun x => x ≠ z

/-- The parts up to the first one that contains `z`, which is cut off there. -/
def cutParts (z : α) : List (List α) → List (List α)
  | [] => []
  | part :: parts => if z ∈ part then [cutAt z part] else part :: cutParts z parts

variable {z sep : α} {xs ys : List α} {part : List α} {parts : List (List α)}

@[simp]
theorem cutAt_nil : cutAt z [] = [] :=
  rfl

@[simp]
theorem cutAt_cons (x : α) : cutAt z (x :: xs) = if x = z then [] else x :: cutAt z xs := by
  by_cases same : x = z <;> simp [cutAt, same]

theorem cutAt_append (free : z ∉ xs) : cutAt z (xs ++ ys) = xs ++ cutAt z ys := by
  induction xs with
  | nil => rfl
  | cons x xs ih =>
      simp only [List.mem_cons, not_or] at free
      rw [List.cons_append, cutAt_cons, if_neg (Ne.symm free.1), ih free.2, List.cons_append]

theorem cutAt_of_not_mem (free : z ∉ xs) : cutAt z xs = xs := by
  have appended : cutAt z (xs ++ []) = xs ++ cutAt z [] := cutAt_append free
  simpa using appended

theorem cutAt_append_of_mem (mem : z ∈ xs) : cutAt z (xs ++ ys) = cutAt z xs := by
  induction xs with
  | nil => cases mem
  | cons x xs ih =>
      rw [List.cons_append, cutAt_cons, cutAt_cons]
      by_cases same : x = z
      · rw [if_pos same, if_pos same]
      · have later : z ∈ xs := (List.mem_cons.mp mem).resolve_left (Ne.symm same)
        rw [if_neg same, if_neg same, ih later]

theorem mem_of_mem_cutAt {x : α} (mem : x ∈ cutAt z xs) : x ∈ xs :=
  (List.takeWhile_sublist _).subset mem

theorem cutParts_ne_nil (nonempty : parts ≠ []) : cutParts z parts ≠ [] := by
  cases parts with
  | nil => exact absurd rfl nonempty
  | cons part parts =>
      rw [cutParts]
      split <;> simp

/-- What is left after the cut contains no separator either. -/
theorem sep_not_mem_cutParts (free : ∀ part ∈ parts, sep ∉ part) :
    ∀ part ∈ cutParts z parts, sep ∉ part := by
  induction parts with
  | nil => simp [cutParts]
  | cons part parts ih =>
      rw [cutParts]
      split
      · simp only [List.mem_singleton, forall_eq]
        exact fun mem => free part (by simp) (mem_of_mem_cutAt mem)
      · exact List.forall_mem_cons.mpr ⟨free part (by simp),
          ih fun part mem => free part (List.mem_cons_of_mem _ mem)⟩

/-- Cutting a join is joining what is left of the parts. -/
theorem cutAt_intercalate (different : sep ≠ z) (parts : List (List α)) :
    cutAt z ([sep].intercalate parts) = [sep].intercalate (cutParts z parts) := by
  induction parts with
  | nil => simp [cutAt, cutParts]
  | cons part parts ih =>
      rw [cutParts]
      cases parts with
      | nil =>
          split
          · simp
          · rename_i free
            simp [cutParts, cutAt_of_not_mem free]
      | cons next parts =>
          rw [List.intercalate_cons_cons]
          split
          · rename_i mem
            rw [List.append_assoc, cutAt_append_of_mem mem, List.intercalate_singleton]
          · rename_i free
            rw [List.intercalate_cons_of_ne_nil (cutParts_ne_nil (by simp)), ← ih,
              cutAt_append]
            simp only [List.mem_append, List.mem_singleton, not_or]
            exact ⟨free, different.symm⟩

/-- Parts without the separator are determined by their join. -/
theorem eq_of_intercalate_eq {parts' : List (List α)} (nonempty : parts ≠ [])
    (nonempty' : parts' ≠ []) (free : ∀ part ∈ parts, sep ∉ part)
    (free' : ∀ part ∈ parts', sep ∉ part)
    (equal : [sep].intercalate parts = [sep].intercalate parts') : parts = parts' := by
  rw [← List.splitOn_intercalate sep free nonempty, equal,
    List.splitOn_intercalate sep free' nonempty']

/-- A property of all parts survives the cut when the part that is cut still
has it. -/
theorem forall_cutParts_iff {P : List α → Prop} (each : ∀ part ∈ parts, P part) :
    (∀ part ∈ cutParts z parts, P part) ↔
      ∀ part, parts.find? (fun part => z ∈ part) = some part → P (cutAt z part) := by
  induction parts with
  | nil => simp [cutParts]
  | cons part parts ih =>
      have later := ih fun part mem => each part (List.mem_cons_of_mem _ mem)
      by_cases mem : z ∈ part
      · simp [cutParts, mem]
      · simp [cutParts, mem, each part (by simp), later]

omit [DecidableEq α] in
/-- A join of one part more, with the separator in front of each later part. -/
theorem intercalate_cons_eq (part : List α) (parts : List (List α)) :
    [sep].intercalate (part :: parts) = part ++ parts.flatMap fun part => sep :: part := by
  induction parts generalizing part with
  | nil => simp
  | cons next parts ih =>
      rw [List.intercalate_cons_cons, ih]
      simp

end Btpd.Join
