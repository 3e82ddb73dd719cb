import Btpd.Evloop.Timers
import Mathlib

/-!
# The heap of the timers

What the routines of `timeheap.c` do to the entries, and that every entry's timer knows
its place.
-/

namespace Btpd.Evloop

open Heap

variable {s s' s'' : Timers} {a b c : Timespec} {i j k h n turns : Nat} {e : ThEntry}

/-! ## Times -/

theorem cmptimeLt_iff : cmptimeLt a b ↔ a.nanos < b.nanos := by
  have := a.lt
  have := b.lt
  unfold cmptimeLt Timespec.nanos
  split <;> omega

theorem nanos_subtime : (subtime a b).nanos = a.nanos - b.nanos := by
  have := a.lt
  have := b.lt
  unfold subtime Timespec.nanos
  split <;> dsimp only <;> omega

/-- A deadline has come when it is less than a millisecond ahead. -/
theorem due_iff : due a b ↔ a.nanos < b.nanos + 1000000 := by
  have diff := nanos_subtime (a := a) (b := b)
  have := (subtime a b).lt
  unfold due
  unfold Timespec.nanos at diff ⊢
  omega

/-! ## Entries and handles -/

/-- The deadlines in the heap. -/
def Timers.keys (s : Timers) : Nat → Int := fun i => (s.heap i).t.nanos

theorem cmpentryLt_iff : s.cmpentryLt i j ↔ s.keys i < s.keys j := cmptimeLt_iff

/-- An entry is among the first ones of the heap. -/
def Timers.Has (s : Timers) (n : Nat) (e : ThEntry) : Prop := ∃ k < n, s.heap k = e

/-- The timers of the first entries know their places. -/
def Timers.Backed (s : Timers) (n : Nat) : Prop := ∀ k < n, s.handle (s.heap k).h = k

theorem Timers.Backed.mono (backed : s.Backed n) {m : Nat} (le : m ≤ n) : s.Backed m :=
  fun k lt => backed k (Nat.lt_of_lt_of_le lt le)

/-- Two entries are of two timers. -/
theorem Timers.Backed.ne (backed : s.Backed n) (lti : i < n) (ltj : j < n) (ne : i ≠ j) :
    (s.heap i).h ≠ (s.heap j).h := by
  intro same
  have first := backed i lti
  rw [same, backed j ltj] at first
  exact ne (Int.ofNat.inj first).symm

/-- The first entries have changed their places, and their timers know it. -/
structure Shuffled (n : Nat) (s s' : Timers) : Prop where
  backed : s'.Backed n
  has : ∀ e, s'.Has n e ↔ s.Has n e
  idle : ∀ h, (∀ e, s.Has n e → e.h ≠ h) → s'.handle h = s.handle h
  eq : s' = { s with heap := s'.heap, handle := s'.handle }

theorem Shuffled.refl (backed : s.Backed n) : Shuffled n s s :=
  ⟨backed, fun _ => Iff.rfl, fun _ _ => rfl, rfl⟩

theorem Shuffled.trans (first : Shuffled n s s') (second : Shuffled n s' s'') :
    Shuffled n s s'' where
  backed := second.backed
  has e := (second.has e).trans (first.has e)
  idle h free := (second.idle h fun e has => free e ((first.has e).mp has)).trans
    (first.idle h free)
  eq := by rw [second.eq, first.eq]

theorem swap_heap : (s.swap i j).heap = exchange s.heap i j := rfl

theorem keys_swap : (s.swap i j).keys = exchange s.keys i j :=
  map_exchange fun e : ThEntry => e.t.nanos

theorem shuffled_swap (backed : s.Backed n) (lti : i < n) (ltj : j < n) (ne : i ≠ j) :
    Shuffled n s (s.swap i j) := by
  have apart := backed.ne lti ltj ne
  have handle : ∀ h, (s.swap i j).handle h =
      if h = (s.heap i).h then (j : Int) else if h = (s.heap j).h then (i : Int)
        else s.handle h := by
    intro h
    unfold Timers.swap Timers.put
    dsimp only
    rw [Function.update_apply, Function.update_apply]
  refine ⟨fun k lt => ?_, fun e => ⟨?_, ?_⟩, fun h free => ?_, rfl⟩
  · rw [swap_heap]
    by_cases right : k = j
    · rw [right, exchange_right, handle, if_pos rfl]
    by_cases left : k = i
    · rw [left, exchange_left ne, handle, if_neg apart.symm, if_pos rfl]
    rw [exchange_of_ne left right, handle, if_neg (backed.ne lt lti left),
      if_neg (backed.ne lt ltj right)]
    exact backed k lt
  · rintro ⟨k, lt, rfl⟩
    rw [swap_heap]
    by_cases right : k = j
    · rw [right, exchange_right]
      exact ⟨i, lti, rfl⟩
    by_cases left : k = i
    · rw [left, exchange_left ne]
      exact ⟨j, ltj, rfl⟩
    rw [exchange_of_ne left right]
    exact ⟨k, lt, rfl⟩
  · rintro ⟨k, lt, rfl⟩
    unfold Timers.Has
    rw [swap_heap]
    by_cases right : k = j
    · exact ⟨i, lti, (exchange_left ne).trans (congrArg s.heap right.symm)⟩
    by_cases left : k = i
    · exact ⟨j, ltj, exchange_right.trans (congrArg s.heap left.symm)⟩
    exact ⟨k, lt, exchange_of_ne left right⟩
  · rw [handle, if_neg (free _ ⟨i, lti, rfl⟩).symm, if_neg (free _ ⟨j, ltj, rfl⟩).symm]

/-! ## The loops -/

theorem bubbleUpLoop_spec (rising : Rising s.keys n i) (backed : s.Backed n) (lt : i < n)
    (enough : i ≤ turns) :
    Shuffled n s (s.bubbleUpLoop turns i) ∧ Ordered (s.bubbleUpLoop turns i).keys n := by
  induction turns generalizing s i with
  | zero =>
      obtain rfl := Nat.le_zero.mp enough
      exact ⟨.refl backed, rising.ordered fun pos => absurd pos (Nat.lt_irrefl 0)⟩
  | succ turns ih =>
      unfold Timers.bubbleUpLoop
      split
      case isFalse root =>
        obtain rfl := not_not.mp root
        exact ⟨.refl backed, rising.ordered fun pos => absurd pos (Nat.lt_irrefl 0)⟩
      case isTrue inner =>
        have pos := Nat.pos_of_ne_zero inner
        have up := parent_lt pos
        dsimp only
        split
        case isTrue before =>
          rw [cmpentryLt_iff] at before
          have swapped := shuffled_swap backed lt (Nat.lt_trans up lt) (Nat.ne_of_gt up)
          have rising' : Rising (s.swap i (parent i)).keys n (parent i) := by
            rw [keys_swap]
            exact rising.exchange pos lt before
          obtain ⟨rest, ordered⟩ := ih rising' swapped.backed (Nat.lt_trans up lt) (by omega)
          exact ⟨swapped.trans rest, ordered⟩
        case isFalse after =>
          rw [cmpentryLt_iff] at after
          exact ⟨.refl backed, rising.ordered fun _ => not_lt.mp after⟩

theorem bubbleUp_spec (rising : Rising s.keys n i) (backed : s.Backed n) (lt : i < n) :
    Shuffled n s (s.bubbleUp i) ∧ Ordered (s.bubbleUp i).keys n :=
  bubbleUpLoop_spec rising backed lt (Nat.le_refl i)

/-- `bubble_down` looks at the least child. -/
theorem child_spec : match s.child i with
    | none => ∀ j, 0 < j → j < s.heapUse → parent j ≠ i
    | some c => 0 < c ∧ c < s.heapUse ∧ parent c = i ∧
        ∀ j, 0 < j → j < s.heapUse → parent j = i → s.keys c ≤ s.keys j := by
  have children {j : Nat} (pos : 0 < j) (child : parent j = i) := eq_of_parent pos child
  unfold Timers.child
  dsimp only
  by_cases right : 2 * i + 2 < s.heapUse
  · rw [if_pos right]
    dsimp only
    split
    case isTrue before =>
      rw [cmpentryLt_iff] at before
      refine ⟨Nat.succ_pos _, by omega, parent_left, fun j pos _ child => ?_⟩
      rcases children pos child with rfl | rfl
      · exact le_refl _
      · exact before.le
    case isFalse after =>
      rw [cmpentryLt_iff] at after
      refine ⟨Nat.succ_pos _, right, parent_right, fun j pos _ child => ?_⟩
      rcases children pos child with rfl | rfl
      · exact not_lt.mp after
      · exact le_refl _
  rw [if_neg right]
  by_cases left : 2 * i + 1 < s.heapUse
  · rw [if_pos left]
    refine ⟨Nat.succ_pos _, left, parent_left, fun j pos lt child => ?_⟩
    rcases children pos child with rfl | rfl
    · exact le_refl _
    · exact absurd lt right
  · rw [if_neg left]
    intro j pos lt child
    rcases children pos child with rfl | rfl
    · exact left lt
    · exact right lt

theorem bubbleDownLoop_spec (sinking : Sinking s.keys s.heapUse i) (backed : s.Backed s.heapUse)
    (enough : s.heapUse ≤ i + turns) :
    Shuffled s.heapUse s (s.bubbleDownLoop turns i) ∧
      Ordered (s.bubbleDownLoop turns i).keys s.heapUse := by
  induction turns generalizing s i with
  | zero =>
      refine ⟨.refl backed, sinking.ordered fun j pos lt child => ?_⟩
      have down := parent_lt pos
      omega
  | succ turns ih =>
      have spec := child_spec (s := s) (i := i)
      unfold Timers.bubbleDownLoop
      split
      case h_1 none =>
        rw [none] at spec
        exact ⟨.refl backed, sinking.ordered fun j pos lt child => absurd child (spec j pos lt)⟩
      case h_2 c some =>
        rw [some] at spec
        obtain ⟨pos, lt, child, least⟩ := spec
        have down := parent_lt pos
        rw [child] at down
        split
        case isTrue before =>
          rw [cmpentryLt_iff] at before
          have swapped := shuffled_swap backed (Nat.lt_trans down lt) lt (Nat.ne_of_lt down)
          have use : (s.swap i c).heapUse = s.heapUse := rfl
          have sinking' : Sinking (s.swap i c).keys s.heapUse c := by
            rw [keys_swap]
            exact sinking.exchange pos lt child least before
          obtain ⟨rest, ordered⟩ := ih (use ▸ sinking') (use ▸ swapped.backed) (by omega)
          exact ⟨swapped.trans rest, ordered⟩
        case isFalse after =>
          rw [cmpentryLt_iff] at after
          refine ⟨.refl backed, sinking.ordered fun j posj ltj childj => ?_⟩
          exact (not_lt.mp after).trans (least j posj ltj childj)

theorem bubbleDown_spec (sinking : Sinking s.keys s.heapUse i) (backed : s.Backed s.heapUse) :
    Shuffled s.heapUse s (s.bubbleDown i) ∧ Ordered (s.bubbleDown i).keys s.heapUse :=
  bubbleDownLoop_spec sinking backed (by omega)

end Btpd.Evloop
