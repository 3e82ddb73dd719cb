import Mathlib

/-!
# Text in memory

Searching for a word in a piece of memory, and the number scanners of the C
library.  A number is scanned from the bytes at hand; a scanner that has not
found the end of the number when they end says so, and what it finds otherwise
does not depend on the bytes that follow.
-/

namespace Btpd.Text

/-- The line feed. -/
abbrev lf : UInt8 := 10

/-- The carriage return. -/
abbrev cr : UInt8 := 13

/-! ## Searching -/

section Search

variable {α : Type} [DecidableEq α]

/-- Where the word first stands. -/
def search (sub : List α) : List α → Option Nat
  | [] => if sub = [] then some 0 else none
  | x :: xs => if sub.isPrefixOf (x :: xs) then some 0 else (search sub xs).map (· + 1)

/-- A word that is found stands there. -/
theorem prefix_of_search {sub xs : List α} {i : Nat} (found : search sub xs = some i) :
    sub <+: xs.drop i := by
  induction xs generalizing i with
  | nil =>
      by_cases empty : sub = []
      · subst empty
        exact List.nil_prefix
      · simp [search, empty] at found
  | cons x xs ih =>
      simp only [search] at found
      split at found
      · rename_i here
        cases found
        exact List.isPrefixOf_iff_prefix.mp here
      · rcases Option.map_eq_some_iff.mp found with ⟨j, later, rfl⟩
        exact ih later

/-- It stands nowhere before. -/
theorem not_prefix_of_search {sub xs : List α} {i j : Nat} (found : search sub xs = some i)
    (before : j < i) : ¬ sub <+: xs.drop j := by
  induction xs generalizing i j with
  | nil =>
      by_cases empty : sub = []
      · simp only [search, empty, if_true, Option.some.injEq] at found
        omega
      · simp [search, empty] at found
  | cons x xs ih =>
      simp only [search] at found
      split at found
      · cases found
        omega
      · rename_i elsewhere
        rcases Option.map_eq_some_iff.mp found with ⟨k, later, rfl⟩
        cases j with
        | zero => exact fun stands => elsewhere (List.isPrefixOf_iff_prefix.mpr stands)
        | succ j => exact ih later (by omega)

/-- A word that is not found stands nowhere. -/
theorem not_prefix_of_search_none {sub xs : List α} (missing : search sub xs = none) (j : Nat) :
    ¬ sub <+: xs.drop j := by
  induction xs generalizing j with
  | nil =>
      by_cases empty : sub = []
      · simp [search, empty] at missing
      · intro stands
        rw [List.drop_nil] at stands
        exact empty (List.prefix_nil.mp stands)
  | cons x xs ih =>
      simp only [search] at missing
      split at missing
      · cases missing
      · rename_i elsewhere
        cases j with
        | zero => exact fun stands => elsewhere (List.isPrefixOf_iff_prefix.mpr stands)
        | succ j => exact ih (Option.map_eq_none_iff.mp missing) j

/-- The place of a word that stands at `i` and nowhere before. -/
theorem search_eq_some {sub xs : List α} {i : Nat} (stands : sub <+: xs.drop i)
    (first : ∀ j < i, ¬ sub <+: xs.drop j) (inside : i ≤ xs.length) :
    search sub xs = some i := by
  cases found : search sub xs with
  | none => exact absurd stands (not_prefix_of_search_none found i)
  | some k =>
      rcases Nat.lt_trichotomy k i with before | rfl | after
      · exact absurd (prefix_of_search found) (first k before)
      · rfl
      · exact absurd stands (not_prefix_of_search found after)

theorem search_eq_none {sub xs : List α} (nowhere : ∀ j, ¬ sub <+: xs.drop j) :
    search sub xs = none := by
  cases found : search sub xs with
  | none => rfl
  | some i => exact absurd (prefix_of_search found) (nowhere i)

theorem search_le {sub xs : List α} {i : Nat} (found : search sub xs = some i) :
    i + sub.length ≤ xs.length ∨ sub = [] := by
  have stands := (prefix_of_search found).length_le
  rw [List.length_drop] at stands
  by_cases empty : sub = []
  · exact Or.inr empty
  · have : 0 < sub.length := List.length_pos_iff.mpr empty
    exact Or.inl (by omega)

omit [DecidableEq α] in
/-- A word stands where it stood when more follows. -/
theorem prefix_drop_append {sub xs ys : List α} {i : Nat} (stands : sub <+: xs.drop i) :
    sub <+: (xs ++ ys).drop i := by
  rw [List.drop_append]
  exact stands.trans (List.prefix_append _ _)

omit [DecidableEq α] in
/-- What stands early enough in a longer text stands in the shorter one. -/
theorem prefix_drop_of_append {sub xs ys : List α} {i : Nat}
    (stands : sub <+: (xs ++ ys).drop i) (early : i + sub.length ≤ xs.length) :
    sub <+: xs.drop i := by
  rw [List.drop_append_of_le_length (by omega)] at stands
  exact List.prefix_of_prefix_length_le stands (List.prefix_append _ _)
    (by rw [List.length_drop]; omega)

/-- The first place of a word does not change when more follows. -/
theorem search_append {sub xs : List α} {i : Nat} (found : search sub xs = some i)
    (word : sub ≠ []) (ys : List α) : search sub (xs ++ ys) = some i := by
  have fits : i + sub.length ≤ xs.length := (search_le found).resolve_right word
  apply search_eq_some
  · exact prefix_drop_append (prefix_of_search found)
  · intro j before stands
    exact not_prefix_of_search found before (prefix_drop_of_append stands (by omega))
  · rw [List.length_append]
    omega

/-- A word that is found only when more follows reaches into what follows. -/
theorem lt_of_search_append {sub xs ys : List α} {i : Nat} (missing : search sub xs = none)
    (found : search sub (xs ++ ys) = some i) : xs.length < i + sub.length := by
  by_contra early
  exact not_prefix_of_search_none missing i
    (prefix_drop_of_append (prefix_of_search found) (by omega))

/-- A word that is found early enough is found in the shorter text. -/
theorem search_of_append {sub xs ys : List α} {i : Nat} (found : search sub (xs ++ ys) = some i)
    (early : i + sub.length ≤ xs.length) : search sub xs = some i := by
  apply search_eq_some
  · exact prefix_drop_of_append (prefix_of_search found) early
  · intro j before stands
    exact not_prefix_of_search found before (prefix_drop_append stands)
  · omega

theorem search_cons {sub xs : List α} {x : α} (elsewhere : ¬ sub <+: x :: xs) :
    search sub (x :: xs) = (search sub xs).map (· + 1) := by
  rw [search, if_neg fun here => elsewhere (List.isPrefixOf_iff_prefix.mp here)]

/-- The search goes past a byte with which the word does not begin. -/
theorem search_cons_of_ne {a x : α} (other : x ≠ a) (sub xs : List α) :
    search (a :: sub) (x :: xs) = (search (a :: sub) xs).map (· + 1) := by
  apply search_cons
  rw [List.cons_prefix_cons]
  exact fun stands => other stands.1.symm

/-- The search goes past bytes with which the word does not begin. -/
theorem search_append_of_not_mem {a : α} {l : List α} (none : a ∉ l) (sub xs : List α) :
    search (a :: sub) (l ++ xs) = (search (a :: sub) xs).map (· + l.length) := by
  induction l with
  | nil => simp
  | cons x l ih =>
      have other : x ≠ a := fun same => none (by simp [same])
      have rest : a ∉ l := fun mem => none (List.mem_cons_of_mem _ mem)
      rw [List.cons_append, search_cons_of_ne other, ih rest, Option.map_map]
      rfl

end Search

/-! ## Bytes -/

/-- `isspace` in the C locale. -/
def isspace (c : UInt8) : Bool := c == 32 || (9 ≤ c && c ≤ 13)

/-- `isblank`. -/
def isblank (c : UInt8) : Bool := c == 32 || c == 9

/-- `tolower` in the C locale. -/
def tolower (c : UInt8) : UInt8 := if 65 ≤ c && c ≤ 90 then c + 32 else c

/-- `strcasecmp(s, t) == 0`. -/
def strcaseeq (s t : List UInt8) : Bool := s.map tolower == t.map tolower

/-- What a byte counts for as a digit. -/
def digitValue (c : UInt8) : Option Nat :=
  if 48 ≤ c && c ≤ 57 then some (c.toNat - 48)
  else if 97 ≤ tolower c && tolower c ≤ 122 then some ((tolower c).toNat - 87)
  else none

/-- A digit of the base. -/
def isDigit (base : Nat) (c : UInt8) : Bool :=
  match digitValue c with
  | some d => d < base
  | none => false

/-- The number the digits write. -/
def ofDigits (base : Nat) (digits : List UInt8) : Nat :=
  digits.foldl (fun n c => n * base + (digitValue c).getD 0) 0

/-- The bytes of an ASCII text. -/
def ascii (text : String) : List UInt8 := text.toList.map fun c => c.toNat.toUInt8

/-- The bytes end with a line feed. -/
def EndsLine (s : List UInt8) : Prop := ∃ u, s = u ++ [lf]

/-- What is left of such bytes is empty or ends the same way. -/
theorem EndsLine.of_append {u v : List UInt8} (ends : EndsLine (u ++ v)) (left : v ≠ []) :
    EndsLine v := by
  rcases ends with ⟨w, same⟩
  rcases List.append_eq_append_iff.mp same with ⟨a, rfl, rfl⟩ | ⟨b, rfl, rest⟩
  · exact ⟨a, rfl⟩
  · cases b with
    | nil => exact ⟨[], by simpa using rest.symm⟩
    | cons x b =>
        simp only [List.cons_append, List.cons.injEq, List.nil_eq, List.append_eq_nil_iff] at rest
        exact absurd rest.2.2 left

theorem EndsLine.mem {s : List UInt8} (ends : EndsLine s) : lf ∈ s := by
  rcases ends with ⟨u, rfl⟩
  simp

theorem EndsLine.ne_nil {s : List UInt8} (ends : EndsLine s) : s ≠ [] := by
  rcases ends with ⟨u, rfl⟩
  simp

/-! ## Runs of bytes -/

section Runs

variable {α : Type} {p : α → Bool}

/-- A run that has ended before the bytes do is not longer when more follows. -/
theorem takeWhile_append_of_ended {s : List α} (ended : s.dropWhile p ≠ []) (ys : List α) :
    (s ++ ys).takeWhile p = s.takeWhile p := by
  induction s with
  | nil => exact absurd rfl ended
  | cons x s ih =>
      by_cases hx : p x
      · simp only [List.cons_append, List.takeWhile_cons, hx, if_true]
        rw [ih (by simpa [List.dropWhile_cons, hx] using ended)]
      · simp [hx]

theorem dropWhile_append_of_ended {s : List α} (ended : s.dropWhile p ≠ []) (ys : List α) :
    (s ++ ys).dropWhile p = s.dropWhile p ++ ys := by
  induction s with
  | nil => exact absurd rfl ended
  | cons x s ih =>
      by_cases hx : p x
      · simp only [List.cons_append, List.dropWhile_cons, hx, if_true]
        exact ih (by simpa [List.dropWhile_cons, hx] using ended)
      · simp [hx]

/-- A run ends before a byte that is not of its kind. -/
theorem dropWhile_ne_nil_of_mem {s : List α} {x : α} (mem : x ∈ s) (other : p x = false) :
    s.dropWhile p ≠ [] := by
  intro all
  have each : ∀ y ∈ s, p y = true := List.dropWhile_eq_nil_iff.mp all
  rw [each x mem] at other
  cases other

end Runs

end Btpd.Text
