import Mathlib

/-!
# Binary heaps in level order

An array is ordered when no element is before its parent.  When one element may be out
of place the array is `Rising` or `Sinking` there; an exchange with the parent or with
the least child moves the place, and where no exchange is due the array is ordered.
-/

namespace Btpd.Heap

variable {β : Type} [LinearOrder β] {a : Nat → β} {n i j c : Nat} {x : β}

/-- The parent of a place that is not the root. -/
def parent (i : Nat) : Nat := (i - 1) / 2

theorem parent_lt (pos : 0 < i) : parent i < i := by
  unfold parent
  omega

theorem parent_left : parent (2 * i + 1) = i := by
  unfold parent
  omega

theorem parent_right : parent (2 * i + 2) = i := by
  unfold parent
  omega

/-- The two children of a place. -/
theorem eq_of_parent (pos : 0 < j) (child : parent j = i) : j = 2 * i + 1 ∨ j = 2 * i + 2 := by
  unfold parent at child
  omega

/-- No element is before its parent. -/
def Ordered (a : Nat → β) (n : Nat) : Prop :=
  ∀ j, 0 < j → j < n → a (parent j) ≤ a j

/-- The element at `i` may be before its parent. -/
structure Rising (a : Nat → β) (n i : Nat) : Prop where
  others : ∀ j, 0 < j → j < n → j ≠ i → a (parent j) ≤ a j
  grand : ∀ j, 0 < j → j < n → parent j = i → 0 < i → a (parent i) ≤ a j

/-- The element at `i` may be after its children. -/
structure Sinking (a : Nat → β) (n i : Nat) : Prop where
  others : ∀ j, 0 < j → j < n → parent j ≠ i → a (parent j) ≤ a j
  grand : ∀ j, 0 < j → j < n → parent j = i → 0 < i → a (parent i) ≤ a j

/-- Two elements change their places. -/
def exchange {α : Type} (a : Nat → α) (i j : Nat) : Nat → α :=
  Function.update (Function.update a i (a j)) j (a i)

section Exchange

variable {α : Type} {e : Nat → α} {k : Nat}

theorem exchange_right : exchange e i j j = e i := Function.update_self ..

theorem exchange_left (ne : i ≠ j) : exchange e i j i = e j :=
  (Function.update_of_ne ne ..).trans (Function.update_self ..)

theorem exchange_of_ne (left : k ≠ i) (right : k ≠ j) : exchange e i j k = e k :=
  (Function.update_of_ne right ..).trans (Function.update_of_ne left ..)

theorem map_exchange {γ : Type} (f : α → γ) :
    (fun k => f (exchange e i j k)) = exchange (fun k => f (e k)) i j := by
  funext k
  unfold exchange
  rw [Function.update_apply, Function.update_apply, Function.update_apply, Function.update_apply,
    apply_ite f, apply_ite f]

end Exchange

/-- The root is the least element. -/
theorem Ordered.root_le (ordered : Ordered a n) (lt : i < n) : a 0 ≤ a i := by
  induction i using Nat.strongRecOn with
  | ind i ih =>
      rcases Nat.eq_zero_or_pos i with rfl | pos
      · exact le_refl _
      · have up := parent_lt pos
        exact (ih (parent i) up (Nat.lt_trans up lt)).trans (ordered i pos lt)

theorem Ordered.mono (ordered : Ordered a n) {m : Nat} (le : m ≤ n) : Ordered a m :=
  fun j pos lt => ordered j pos (Nat.lt_of_lt_of_le lt le)

/-! ## Replacing an element -/

theorem Ordered.rising (ordered : Ordered a n) (lt : i < n) (le : x ≤ a i) :
    Rising (Function.update a i x) n i where
  others j pos less ne := by
    rw [Function.update_of_ne ne]
    by_cases child : parent j = i
    · rw [child, Function.update_self]
      exact le.trans (child ▸ ordered j pos less)
    · rw [Function.update_of_ne child]
      exact ordered j pos less
  grand j pos less child above := by
    have down := parent_lt pos
    rw [Function.update_of_ne (Nat.ne_of_lt (parent_lt above)),
      Function.update_of_ne (Nat.ne_of_gt (child ▸ down))]
    exact (ordered i above lt).trans (child ▸ ordered j pos less)

theorem Ordered.sinking (ordered : Ordered a n) (lt : i < n) (le : a i ≤ x) :
    Sinking (Function.update a i x) n i where
  others j pos less ne := by
    rw [Function.update_of_ne ne]
    by_cases here : j = i
    · subst here
      rw [Function.update_self]
      exact (ordered j pos less).trans le
    · rw [Function.update_of_ne here]
      exact ordered j pos less
  grand j pos less child above := by
    have down := parent_lt pos
    rw [Function.update_of_ne (Nat.ne_of_lt (parent_lt above)),
      Function.update_of_ne (Nat.ne_of_gt (child ▸ down))]
    exact (ordered i above lt).trans (child ▸ ordered j pos less)

/-- An element is put behind the last one. -/
theorem Ordered.append (ordered : Ordered a n) : Rising (Function.update a n x) (n + 1) n where
  others j pos less ne := by
    have inner : j < n := Nat.lt_of_le_of_ne (Nat.le_of_lt_succ less) ne
    rw [Function.update_of_ne ne,
      Function.update_of_ne (Nat.ne_of_lt (Nat.lt_trans (parent_lt pos) inner))]
    exact ordered j pos inner
  grand j pos less child _ := by
    have down := parent_lt pos
    omega

/-! ## Up -/

/-- The element is before its parent, and they are exchanged. -/
theorem Rising.exchange (rising : Rising a n i) (pos : 0 < i) (lt : i < n)
    (before : a i < a (parent i)) : Rising (exchange a i (parent i)) n (parent i) := by
  have up := parent_lt pos
  have ne : i ≠ parent i := Nat.ne_of_gt up
  have here : Heap.exchange a i (parent i) i = a (parent i) := exchange_left ne
  have there : Heap.exchange a i (parent i) (parent i) = a i := exchange_right
  refine ⟨fun j posj less other => ?_, fun j posj less child above => ?_⟩
  · have down := parent_lt posj
    by_cases same : j = i
    · subst same
      rw [here, there]
      exact before.le
    rw [exchange_of_ne same other]
    by_cases child : parent j = i
    · rw [child, here]
      exact rising.grand j posj less child pos
    by_cases sibling : parent j = parent i
    · rw [sibling, there]
      exact before.le.trans (sibling ▸ rising.others j posj less same)
    · rw [exchange_of_ne child sibling]
      exact rising.others j posj less same
  · have further := parent_lt above
    have down := parent_lt posj
    have first : a (parent (parent i)) ≤ a (parent i) :=
      rising.others (parent i) above (Nat.lt_trans up lt) ne.symm
    rw [exchange_of_ne (Nat.ne_of_lt (Nat.lt_trans further up)) (Nat.ne_of_lt further)]
    by_cases same : j = i
    · rw [same, here]
      exact first
    · rw [exchange_of_ne same (by omega)]
      exact first.trans (child ▸ rising.others j posj less same)

theorem Rising.ordered (rising : Rising a n i) (done : 0 < i → a (parent i) ≤ a i) :
    Ordered a n := by
  intro j pos less
  by_cases same : j = i
  · subst same
    exact done pos
  · exact rising.others j pos less same

/-! ## Down -/

/-- The element is after its least child, and they are exchanged. -/
theorem Sinking.exchange (sinking : Sinking a n i) (pos : 0 < c) (lt : c < n)
    (child : parent c = i) (least : ∀ j, 0 < j → j < n → parent j = i → a c ≤ a j)
    (after : a c < a i) : Sinking (exchange a i c) n c := by
  have up := parent_lt pos
  have ne : i ≠ c := by
    rw [← child]
    exact Nat.ne_of_lt up
  have here : Heap.exchange a i c i = a c := exchange_left ne
  have there : Heap.exchange a i c c = a i := exchange_right
  refine ⟨fun j posj less other => ?_, fun j posj less below _ => ?_⟩
  · have down := parent_lt posj
    by_cases same : j = i
    · subst same
      rw [here, exchange_of_ne (Nat.ne_of_lt down) other]
      exact sinking.grand c pos lt child posj
    by_cases first : j = c
    · subst first
      rw [child, here, there]
      exact after.le
    rw [exchange_of_ne same first]
    by_cases sibling : parent j = i
    · rw [sibling, here]
      exact least j posj less sibling
    · rw [exchange_of_ne sibling other]
      exact sinking.others j posj less sibling
  · have down := parent_lt posj
    have apart : parent j ≠ i := fun eq => ne (eq.symm.trans below)
    rw [child, here, exchange_of_ne (by omega) (by omega)]
    exact below ▸ sinking.others j posj less apart

theorem Sinking.ordered (sinking : Sinking a n i)
    (done : ∀ j, 0 < j → j < n → parent j = i → a i ≤ a j) : Ordered a n := by
  intro j pos less
  by_cases child : parent j = i
  · rw [child]
    exact done j pos less child
  · exact sinking.others j pos less child

end Btpd.Heap
