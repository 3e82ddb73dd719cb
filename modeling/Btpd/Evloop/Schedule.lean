import Btpd.Evloop.Timeheap

/-!
# The timers as a map

The timers that are pending with their deadlines are a map, and every event does to the
heap what it would do to the map.
-/

namespace Btpd.Evloop

open Prog Heap

variable {s s' s'' : Timers} {h h' i k n : Nat} {e : ThEntry} {t d : Timespec} {mem : Bool}

/-! ## The heap between two events -/

/-- The heap is in order, the timers in it know their places, and the others have the
index -1. -/
structure Timers.Valid (s : Timers) : Prop where
  ordered : Ordered s.keys s.heapUse
  backed : s.Backed s.heapUse
  idle : ∀ h, (∀ e, s.Has s.heapUse e → e.h ≠ h) → s.handle h = -1
  le : s.heapUse ≤ s.heapCap
  cap : 0 < s.heapCap

/-- A timer with an index has its entry there. -/
theorem Timers.Valid.found (valid : s.Valid) (pending : s.handle h ≠ -1) :
    ∃ k < s.heapUse, s.handle h = k ∧ (s.heap k).h = h := by
  by_contra none
  refine pending (valid.idle h ?_)
  rintro e ⟨k, lt, rfl⟩ rfl
  exact none ⟨k, lt, valid.backed k lt, rfl⟩

theorem Timers.Valid.free (valid : s.Valid) (idle : s.handle h = -1) :
    ∀ e, s.Has s.heapUse e → e.h ≠ h := by
  rintro e ⟨k, lt, rfl⟩ rfl
  have back := valid.backed k lt
  omega

/-- The heap after the first entries have been shuffled into order. -/
theorem Shuffled.valid (shuffled : Shuffled s.heapUse s s')
    (ordered : Ordered s'.keys s.heapUse)
    (idle : ∀ h, (∀ e, s.Has s.heapUse e → e.h ≠ h) → s.handle h = -1)
    (le : s.heapUse ≤ s.heapCap) (cap : 0 < s.heapCap) : s'.Valid := by
  have use : s'.heapUse = s.heapUse := by rw [shuffled.eq]
  have size : s'.heapCap = s.heapCap := by rw [shuffled.eq]
  refine ⟨use ▸ ordered, use ▸ shuffled.backed, fun h free => ?_, ?_, ?_⟩
  · rw [use] at free
    have free' : ∀ e, s.Has s.heapUse e → e.h ≠ h := fun e has =>
      free e ((shuffled.has e).mpr has)
    exact (shuffled.idle h free').trans (idle h free')
  · rw [use, size]
    exact le
  · rw [size]
    exact cap

/-! ## `timeheap_insert` -/

/-- What changes when entries are moved or put into the heap. -/
structure Changed (s s' : Timers) (has : ThEntry → Prop) : Prop where
  valid : s'.Valid
  has : ∀ e, s'.Has s'.heapUse e ↔ has e
  eq : s' = { s with
    heap := s'.heap
    handle := s'.handle
    heapUse := s'.heapUse
    heapCap := s'.heapCap }

theorem Changed.rest {has : ThEntry → Prop} (changed : Changed s s' has) :
    s'.clock = s.clock ∧ s'.now = s.now ∧ s'.fired = s.fired := by
  rw [changed.eq]
  exact ⟨rfl, rfl, rfl⟩

/-- An entry is put behind the last one. -/
theorem insert_changed (valid : s.Valid) (idle : s.handle h = -1) (room : s.heapUse < s.heapCap) :
    Changed s (({ s.put s.heapUse ⟨t, h⟩ with heapUse := s.heapUse + 1 } : Timers).bubbleUp
      s.heapUse) fun e => e = ⟨t, h⟩ ∨ s.Has s.heapUse e := by
  generalize put : ({ s.put s.heapUse ⟨t, h⟩ with heapUse := s.heapUse + 1 } : Timers) = s₁
  have use : s₁.heapUse = s.heapUse + 1 := by rw [← put]
  have heap : s₁.heap = Function.update s.heap s.heapUse ⟨t, h⟩ := by rw [← put]; rfl
  have handle : s₁.handle = Function.update s.handle h s.heapUse := by rw [← put]; rfl
  have cap : s₁.heapCap = s.heapCap := by rw [← put]; rfl
  have free := valid.free idle
  have keys : s₁.keys = Function.update s.keys s.heapUse t.nanos := by
    funext k
    unfold Timers.keys
    rw [heap, Function.update_apply, Function.update_apply]
    split <;> rfl
  have has : ∀ e, s₁.Has s₁.heapUse e ↔ e = ⟨t, h⟩ ∨ s.Has s.heapUse e := by
    intro e
    unfold Timers.Has
    rw [use, heap]
    constructor
    · rintro ⟨k, lt, rfl⟩
      by_cases last : k = s.heapUse
      · rw [last, Function.update_self]
        exact .inl rfl
      · rw [Function.update_of_ne last]
        exact .inr ⟨k, by omega, rfl⟩
    · rintro (rfl | ⟨k, lt, rfl⟩)
      · exact ⟨s.heapUse, Nat.lt_succ_self _, Function.update_self ..⟩
      · exact ⟨k, Nat.lt_succ_of_lt lt, Function.update_of_ne (Nat.ne_of_lt lt) ..⟩
  have backed : s₁.Backed s₁.heapUse := by
    intro k lt
    rw [use] at lt
    rw [heap, handle]
    by_cases last : k = s.heapUse
    · rw [last, Function.update_self, Function.update_self]
    · have inner : k < s.heapUse := by omega
      rw [Function.update_of_ne last, Function.update_of_ne (free _ ⟨k, inner, rfl⟩)]
      exact valid.backed k inner
  have rising : Rising s₁.keys s₁.heapUse s.heapUse := by
    rw [keys, use]
    exact valid.ordered.append
  obtain ⟨shuffled, ordered⟩ := bubbleUp_spec rising backed (by omega)
  refine ⟨shuffled.valid ordered (fun h' free' => ?_) (by omega) (by have := valid.cap; omega),
    fun e => ?_, ?_⟩
  · have other : h' ≠ h := fun same => free' ⟨t, h⟩ ((has _).mpr (.inl rfl)) same.symm
    rw [handle, Function.update_of_ne other]
    exact valid.idle h' fun e old => free' e ((has e).mpr (.inr old))
  · have same : (s₁.bubbleUp s.heapUse).heapUse = s₁.heapUse := by rw [shuffled.eq]
    rw [same, shuffled.has, has]
  · rw [shuffled.eq, ← put]
    rfl

theorem timeheapInsert_wp (valid : s.Valid) (idle : s.handle h = -1) :
    (timeheapInsert h t mem).wp strict [] (fun r s' => r = -1 ∧ mem = false ∧ s' = s ∨
      Changed s s' fun e => e = ⟨t, h⟩ ∨ s.Has s.heapUse e) s := by
  have le := valid.le
  have cap := valid.cap
  have place : ∀ s : Timers, (({ s.put s.heapUse ⟨t, h⟩ with
      heapUse := s.heapUse + 1 } : Timers).handle h).toNat = s.heapUse := by
    intro s
    unfold Timers.put
    dsimp only
    rw [Function.update_self, Int.toNat_natCast]
  unfold timeheapInsert
  rw [wp_bind, wp_get, wp_ite]
  split
  case isTrue full => exact wp_pure.mpr (.inl ⟨rfl, full.2, rfl⟩)
  case isFalse =>
    rw [wp_bind, wp_when, wp_modify]
    split
    case isTrue full =>
      have valid' : ({ s with heapCap := s.heapCap * 2 } : Timers).Valid :=
        ⟨valid.ordered, valid.backed, valid.idle, by dsimp only; omega, by dsimp only; omega⟩
      have changed := insert_changed (t := t) valid' idle (by dsimp only; omega)
      rw [wp_bind, wp_modify, wp_bind, wp_modify, wp_pure, place]
      refine .inr ⟨changed.valid, changed.has, ?_⟩
      rw [changed.eq]
    case isFalse more =>
      rw [wp_bind, wp_modify, wp_bind, wp_modify, wp_pure, place]
      exact .inr (insert_changed valid idle (Nat.lt_of_le_of_ne le more))

/-! ## `timeheap_remove` -/

/-- The entry at a place is gone; the index of its timer is not set. -/
structure Removed (s : Timers) (k : Nat) (s' : Timers) : Prop where
  use : s'.heapUse = s.heapUse - 1
  ordered : Ordered s'.keys s'.heapUse
  backed : s'.Backed s'.heapUse
  has : ∀ e, s'.Has s'.heapUse e ↔ ∃ j < s.heapUse, j ≠ k ∧ s.heap j = e
  idle : ∀ h, (∀ e, s.Has s.heapUse e → e.h ≠ h) → s'.handle h = s.handle h
  eq : s' = { s with
    heap := s'.heap
    handle := s'.handle
    heapUse := s'.heapUse }

theorem Removed.rest (removed : Removed s k s') :
    s'.clock = s.clock ∧ s'.now = s.now ∧ s'.fired = s.fired := by
  rw [removed.eq]
  exact ⟨rfl, rfl, rfl⟩

/-- The last entry is removed. -/
theorem removed_last (valid : s.Valid) (pos : 0 < s.heapUse) :
    Removed s (s.heapUse - 1) { s with heapUse := s.heapUse - 1 } where
  use := rfl
  ordered := valid.ordered.mono (Nat.sub_le ..)
  backed := valid.backed.mono (Nat.sub_le ..)
  has e := by
    constructor
    · rintro ⟨k, lt, rfl⟩
      dsimp only at lt
      exact ⟨k, by omega, by omega, rfl⟩
    · rintro ⟨k, lt, ne, rfl⟩
      exact ⟨k, by dsimp only; omega, rfl⟩
  idle _ _ := rfl
  eq := rfl

/-- An entry takes its own place again. -/
theorem put_self (backed : s.handle (s.heap k).h = k) : s.put k (s.heap k) = s := by
  unfold Timers.put
  rw [Function.update_eq_self, ← backed, Function.update_eq_self]

theorem fill_last (backed : s.handle (s.heap s.heapUse).h = s.heapUse) :
    s.fill s.heapUse = s := by
  have irrefl : ¬s.cmpentryLt s.heapUse s.heapUse := fun before =>
    lt_irrefl _ (cmpentryLt_iff.mp before)
  unfold Timers.fill
  rw [if_neg irrefl, put_self backed]
  unfold Timers.bubbleDown
  rw [Nat.sub_self]
  rfl

/-- The last entry takes the place of an earlier one. -/
theorem removed_fill (valid : s.Valid) (lt : k + 1 < s.heapUse) :
    Removed s k (({ s with heapUse := s.heapUse - 1 } : Timers).fill k) := by
  obtain ⟨last, eq⟩ := Nat.exists_eq_succ_of_ne_zero (Nat.ne_of_gt (Nat.zero_lt_of_lt lt))
  have inner : k < last := by omega
  have ltl : last < s.heapUse := by omega
  have apart := valid.backed.ne (Nat.lt_of_succ_lt lt) ltl (Nat.ne_of_lt inner)
  generalize put : ({ s with heapUse := last } : Timers).put k (s.heap last) = s₁
  have use : s₁.heapUse = last := by rw [← put]; rfl
  have heap : s₁.heap = Function.update s.heap k (s.heap last) := by rw [← put]; rfl
  have handle : s₁.handle = Function.update s.handle (s.heap last).h k := by rw [← put]; rfl
  have keys : s₁.keys = Function.update s.keys k (s.keys last) := by
    funext j
    unfold Timers.keys
    rw [heap, Function.update_apply, Function.update_apply]
    split <;> rfl
  have has : ∀ e, s₁.Has last e ↔ ∃ j < s.heapUse, j ≠ k ∧ s.heap j = e := by
    intro e
    unfold Timers.Has
    rw [heap]
    constructor
    · rintro ⟨j, less, rfl⟩
      by_cases here : j = k
      · rw [here, Function.update_self]
        exact ⟨last, ltl, Nat.ne_of_gt inner, rfl⟩
      · rw [Function.update_of_ne here]
        exact ⟨j, by omega, here, rfl⟩
    · rintro ⟨j, less, ne, rfl⟩
      by_cases end_ : j = last
      · exact ⟨k, inner, end_ ▸ Function.update_self ..⟩
      · exact ⟨j, by omega, Function.update_of_ne ne ..⟩
  have backed : s₁.Backed last := by
    intro j less
    rw [heap, handle]
    by_cases here : j = k
    · rw [here, Function.update_self, Function.update_self]
    · rw [Function.update_of_ne here,
        Function.update_of_ne (valid.backed.ne (Nat.lt_trans less ltl) ltl (Nat.ne_of_lt less))]
      exact valid.backed j (Nat.lt_trans less ltl)
  have rest {s' : Timers} (shuffled : Shuffled last s₁ s') (ordered : Ordered s'.keys last) :
      Removed s k s' := by
    have use' : s'.heapUse = last := by rw [shuffled.eq, use]
    refine ⟨by omega, use' ▸ ordered, use' ▸ shuffled.backed, fun e => ?_, fun h free => ?_, ?_⟩
    · rw [use', shuffled.has, has]
    · have free' : ∀ e, s₁.Has last e → e.h ≠ h := by
        intro e found
        obtain ⟨j, less, -, rfl⟩ := (has e).mp found
        exact free _ ⟨j, less, rfl⟩
      rw [shuffled.idle h free', handle]
      exact Function.update_of_ne (free _ ⟨last, ltl, rfl⟩).symm ..
    · rw [shuffled.eq, ← put]
      rfl
  have ordered : Ordered s.keys last := valid.ordered.mono (Nat.le_of_lt ltl)
  have less : s.heapUse - 1 = last := by omega
  rw [less]
  unfold Timers.fill
  dsimp only
  rw [put]
  split
  case isTrue before =>
    rw [cmpentryLt_iff] at before
    have rising : Rising s₁.keys last k := by
      rw [keys]
      exact ordered.rising inner before.le
    obtain ⟨shuffled, ordered'⟩ := bubbleUp_spec rising backed inner
    exact rest shuffled ordered'
  case isFalse after =>
    rw [cmpentryLt_iff] at after
    have sinking : Sinking s₁.keys s₁.heapUse k := by
      rw [keys, use]
      exact ordered.sinking inner (not_lt.mp after)
    obtain ⟨shuffled, ordered'⟩ := bubbleDown_spec sinking (use.symm ▸ backed)
    rw [use] at shuffled ordered'
    exact rest shuffled ordered'

theorem timeheapRemove_wp (valid : s.Valid) (lt : k < s.heapUse) :
    (timeheapRemove k).wp strict [] (fun _ s' => Removed s k s') s := by
  unfold timeheapRemove
  rw [wp_bind, wp_get, wp_bind, wp_assert,
    if_pos ⟨Int.natCast_nonneg k, Int.ofNat_lt.mpr lt⟩, wp_bind, wp_modify, wp_bind, wp_get,
    wp_when, Int.toNat_natCast]
  have pos : 0 < s.heapUse := Nat.zero_lt_of_lt lt
  by_cases last : k = s.heapUse - 1
  · have removed := removed_last valid pos
    have filled : ({ s with heapUse := s.heapUse - 1 } : Timers).fill (s.heapUse - 1) =
        { s with heapUse := s.heapUse - 1 } := fill_last (valid.backed (s.heapUse - 1) (by omega))
    rw [last]
    split
    · rw [wp_modify, filled]
      exact removed
    · exact removed
  · rw [if_pos (by dsimp only; omega), wp_modify]
    exact removed_fill valid (by omega)

/-! ## `timeheap_change` -/

theorem timeheapChange_wp (valid : s.Valid) (pending : s.handle h ≠ -1) :
    (timeheapChange h t).wp strict [] (fun _ s' =>
      Changed s s' fun e => e = ⟨t, h⟩ ∨ s.Has s.heapUse e ∧ e.h ≠ h) s := by
  obtain ⟨k, lt, index, own⟩ := valid.found pending
  unfold timeheapChange
  rw [wp_bind, wp_get, wp_bind, wp_assert, index,
    if_pos ⟨Int.natCast_nonneg k, Int.ofNat_lt.mpr lt⟩]
  dsimp only
  rw [Int.toNat_natCast, wp_bind, wp_modify, wp_ite, wp_modify, wp_modify]
  generalize put : ({ s with
    heap := Function.update s.heap k { s.heap k with t := t } } : Timers) = s₁
  have use : s₁.heapUse = s.heapUse := by rw [← put]
  have heap : s₁.heap = Function.update s.heap k ⟨t, h⟩ := by rw [← put, ← own]
  have handle : s₁.handle = s.handle := by rw [← put]
  have keys : s₁.keys = Function.update s.keys k t.nanos := by
    funext j
    unfold Timers.keys
    rw [heap, Function.update_apply, Function.update_apply]
    split <;> rfl
  have has : ∀ e, s₁.Has s₁.heapUse e ↔ e = ⟨t, h⟩ ∨ s.Has s.heapUse e ∧ e.h ≠ h := by
    intro e
    unfold Timers.Has
    rw [use, heap]
    constructor
    · rintro ⟨j, less, rfl⟩
      by_cases here : j = k
      · rw [here, Function.update_self]
        exact .inl rfl
      · rw [Function.update_of_ne here]
        exact .inr ⟨⟨j, less, rfl⟩, own ▸ valid.backed.ne less lt here⟩
    · rintro (rfl | ⟨⟨j, less, rfl⟩, other⟩)
      · exact ⟨k, lt, Function.update_self ..⟩
      · refine ⟨j, less, Function.update_of_ne ?_ ..⟩
        rintro rfl
        exact other own
  have backed : s₁.Backed s₁.heapUse := by
    intro j less
    rw [use] at less
    rw [heap, handle]
    by_cases here : j = k
    · rw [here, Function.update_self]
      exact index
    · rw [Function.update_of_ne here]
      exact valid.backed j less
  have rest {s' : Timers} (shuffled : Shuffled s₁.heapUse s₁ s')
      (ordered : Ordered s'.keys s₁.heapUse) :
      Changed s s' fun e => e = ⟨t, h⟩ ∨ s.Has s.heapUse e ∧ e.h ≠ h := by
    have le := valid.le
    have cap : s₁.heapCap = s.heapCap := by rw [← put]
    refine ⟨shuffled.valid ordered (fun h' free => ?_) (by omega) (cap ▸ valid.cap),
      fun e => ?_, ?_⟩
    · rw [handle]
      have other : h' ≠ h := fun same => free ⟨t, h⟩ ((has _).mpr (.inl rfl)) same.symm
      refine valid.idle h' fun e old same => free e ((has e).mpr (.inr ⟨old, ?_⟩)) same
      rw [same]
      exact other
    · have use' : s'.heapUse = s₁.heapUse := by rw [shuffled.eq]
      rw [use', shuffled.has, has]
    · rw [shuffled.eq, ← put]
  split
  case isTrue before =>
    have before : t.nanos < s.keys k := cmptimeLt_iff.mp before
    have rising : Rising s₁.keys s₁.heapUse k := by
      rw [keys, use]
      exact valid.ordered.rising lt before.le
    obtain ⟨shuffled, ordered⟩ := bubbleUp_spec rising backed (use.symm ▸ lt)
    exact rest shuffled ordered
  case isFalse after =>
    have after : s.keys k ≤ t.nanos := not_lt.mp (mt cmptimeLt_iff.mpr after)
    have sinking : Sinking s₁.keys s₁.heapUse k := by
      rw [keys, use]
      exact valid.ordered.sinking lt after
    obtain ⟨shuffled, ordered⟩ := bubbleDown_spec sinking backed
    exact rest shuffled ordered

/-! ## The map -/

/-- The timers that are pending with their deadlines, the clock, the time at which
`evtimers_run` has been called while it runs, and the timer that has been fired. -/
@[ext]
structure Schedule where
  pending : Nat → Option Timespec
  clock : Timespec
  now : Option Timespec
  fired : Option Nat

/-- What the events do to the map.  No timer is added when there is no memory for a timer
that is not pending.  A turn fires a timer whose deadline is less than a millisecond ahead
and none of the others is before it, or it ends the loop when there is no such timer. -/
inductive Schedule.Step (m : Schedule) : Event → Schedule → Prop
  | add (h : Nat) (t : Timespec) (mem : Bool) : Step m (.add h t mem) { m with
      pending := Function.update m.pending h (some (addtime m.clock t))
      fired := none }
  | addFails (h : Nat) (t : Timespec) : m.pending h = none →
      Step m (.add h t false) { m with fired := none }
  | del (h : Nat) : Step m (.del h) { m with
      pending := Function.update m.pending h none
      fired := none }
  | pass (later : Timespec) : m.clock.nanos ≤ later.nanos →
      Step m (.pass later) { m with clock := later, fired := none }
  | stay (later : Timespec) : later.nanos < m.clock.nanos →
      Step m (.pass later) { m with fired := none }
  | run : Step m .run { m with now := some m.clock, fired := none }
  | fire (now d : Timespec) (h : Nat) : m.now = some now → m.pending h = some d →
      d.nanos < m.clock.nanos + 1000000 →
      (∀ h' d', m.pending h' = some d' → d.nanos ≤ d'.nanos) →
      Step m .turn { m with pending := Function.update m.pending h none, fired := some h }
  | done (now : Timespec) : m.now = some now →
      (∀ h d, m.pending h = some d → now.nanos + 1000000 ≤ d.nanos) →
      Step m .turn { m with now := none, fired := none }
  | idle : m.now = none → Step m .turn { m with fired := none }

/-- The map of the heap. -/
def Timers.schedule (s : Timers) : Schedule where
  pending h := if 0 ≤ s.handle h then some (s.heap (s.handle h).toNat).t else none
  clock := s.clock
  now := s.now
  fired := s.fired

theorem Timers.Valid.pending_iff (valid : s.Valid) :
    s.schedule.pending h = some d ↔ s.Has s.heapUse ⟨d, h⟩ := by
  unfold Timers.schedule
  dsimp only
  constructor
  · intro pending
    split at pending
    case isTrue index =>
      obtain ⟨k, lt, eq, own⟩ := valid.found (h := h) (by omega)
      rw [eq, Int.toNat_natCast] at pending
      refine ⟨k, lt, ?_⟩
      rw [← Option.some.inj pending, ← own]
    case isFalse => cases pending
  · rintro ⟨k, lt, eq⟩
    have index := valid.backed k lt
    rw [eq] at index
    dsimp only at index
    rw [index, if_pos (Int.natCast_nonneg k), Int.toNat_natCast, eq]

theorem Timers.Valid.pending_none_iff (valid : s.Valid) :
    s.schedule.pending h = none ↔ s.handle h = -1 := by
  unfold Timers.schedule
  dsimp only
  constructor
  · intro none
    split at none
    case isTrue => cases none
    case isFalse off =>
      by_contra pending
      obtain ⟨k, -, eq, -⟩ := valid.found pending
      omega
  · intro idle
    rw [idle, if_neg (by decide)]

/-- The map is known from the entries. -/
theorem Timers.Valid.pending_eq (valid : s.Valid) {m : Nat → Option Timespec}
    (same : ∀ h d, s.Has s.heapUse ⟨d, h⟩ ↔ m h = some d) : s.schedule.pending = m := by
  funext h
  apply Option.ext
  intro d
  rw [valid.pending_iff, same]

/-! ## The events -/

section Events

variable (valid : s.Valid)

include valid

/-- The entry of a timer is gone and its index is set to -1. -/
theorem Removed.forget (removed : Removed s k s') (lt : k < s.heapUse) (own : (s.heap k).h = h) :
    ({ s' with handle := Function.update s'.handle h (-1) } : Timers).Valid ∧
      ({ s' with handle := Function.update s'.handle h (-1) } : Timers).schedule =
        { s.schedule with pending := Function.update s.schedule.pending h none } := by
  have has : ∀ e, s'.Has s'.heapUse e ↔ s.Has s.heapUse e ∧ e.h ≠ h := by
    intro e
    rw [removed.has]
    constructor
    · rintro ⟨j, less, ne, rfl⟩
      exact ⟨⟨j, less, rfl⟩, own ▸ valid.backed.ne less lt ne⟩
    · rintro ⟨⟨j, less, rfl⟩, other⟩
      refine ⟨j, less, ?_, rfl⟩
      rintro rfl
      exact other own
  have same : ∀ e, ({ s' with handle := Function.update s'.handle h (-1) } : Timers).Has
      s'.heapUse e ↔ s'.Has s'.heapUse e := fun _ => Iff.rfl
  have valid' : ({ s' with handle := Function.update s'.handle h (-1) } : Timers).Valid := by
    have le := valid.le
    have use := removed.use
    have cap : s'.heapCap = s.heapCap := by rw [removed.eq]
    refine ⟨removed.ordered, fun j less => ?_, fun h' free => ?_, ?_, ?_⟩
    · have other := ((has _).mp ⟨j, less, rfl⟩).2
      exact (Function.update_of_ne other ..).trans (removed.backed j less)
    · dsimp only
      by_cases here : h' = h
      · rw [here, Function.update_self]
      · have free' : ∀ e, s.Has s.heapUse e → e.h ≠ h' := by
          intro e old eq
          exact free e ((has e).mpr ⟨old, eq ▸ here⟩) eq
        rw [Function.update_of_ne here, removed.idle h' free']
        exact valid.idle h' free'
    · dsimp only
      omega
    · exact cap ▸ valid.cap
  refine ⟨valid', Schedule.ext (valid'.pending_eq ?_) ?_ ?_ ?_⟩
  · intro h' d
    dsimp only
    rw [same, has, Function.update_apply]
    by_cases here : h' = h
    · rw [if_pos here]
      exact iff_of_false (fun both => both.2 here) nofun
    · rw [if_neg here, valid.pending_iff]
      exact and_iff_left here
  · exact removed.rest.1
  · exact removed.rest.2.1
  · exact removed.rest.2.2

theorem evtimerDel_wp : (evtimerDel h).wp strict [] (fun _ s' => s'.Valid ∧ s'.schedule =
    { s.schedule with pending := Function.update s.schedule.pending h none }) s := by
  unfold evtimerDel
  rw [wp_bind, wp_get, wp_when]
  split
  case isTrue pending =>
    obtain ⟨k, lt, index, own⟩ := valid.found (h := h) (by omega)
    rw [index]
    refine wp_seq (timeheapRemove_wp valid lt) fun _ s' removed => ?_
    exact wp_modify.mpr (removed.forget valid lt own)
  case isFalse idle =>
    have none : s.schedule.pending h = none := if_neg idle
    refine ⟨valid, Schedule.ext ?_ rfl rfl rfl⟩
    rw [← none, Function.update_eq_self]

theorem evtimerAdd_wp (t : Timespec) (mem : Bool) : (evtimerAdd h t mem).wp strict []
    (fun _ s' => s'.Valid ∧ (s.schedule.pending h = none ∧ mem = false ∧ s' = s ∨
      s'.schedule = { s.schedule with
        pending := Function.update s.schedule.pending h (some (addtime s.clock t)) })) s := by
  -- the map after an entry has been put in
  have changed {has : ThEntry → Prop} (same : ∀ h' d, h' ≠ h → (has ⟨d, h'⟩ ↔
      s.Has s.heapUse ⟨d, h'⟩)) (own : ∀ d, has ⟨d, h⟩ ↔ d = addtime s.clock t) (s' : Timers)
      (changed : Changed s s' has) : s'.schedule = { s.schedule with
        pending := Function.update s.schedule.pending h (some (addtime s.clock t)) } := by
    refine Schedule.ext (changed.valid.pending_eq fun h' d => ?_) ?_ ?_ ?_
    · dsimp only
      rw [changed.has, Function.update_apply]
      by_cases here : h' = h
      · rw [here, if_pos rfl, own, Option.some.injEq]
        exact eq_comm
      · rw [if_neg here, valid.pending_iff, same h' d here]
    · exact changed.rest.1
    · exact changed.rest.2.1
    · exact changed.rest.2.2
  unfold evtimerAdd
  rw [wp_bind, wp_get]
  dsimp only
  rw [wp_ite]
  split
  case isTrue idle =>
    refine wp_mono (timeheapInsert_wp valid idle) ?_
    rintro r s' (⟨-, full, rfl⟩ | inserted)
    · exact ⟨valid, .inl ⟨valid.pending_none_iff.mpr idle, full, rfl⟩⟩
    · refine ⟨inserted.valid, .inr (changed (fun h' d other => ?_) (fun d => ?_) s' inserted)⟩
      · exact or_iff_right fun eq => other (congrArg ThEntry.h eq)
      · refine Iff.trans (or_iff_left fun old => valid.free idle _ old rfl) ?_
        rw [ThEntry.mk.injEq]
        exact and_iff_left rfl
  case isFalse pending =>
    refine wp_seq (timeheapChange_wp valid pending) fun _ s' moved => wp_pure.mpr ?_
    refine ⟨moved.valid, .inr (changed (fun h' d other => ?_) (fun d => ?_) s' moved)⟩
    · refine Iff.trans (or_iff_right fun eq => other (congrArg ThEntry.h eq)) ?_
      exact and_iff_left other
    · refine Iff.trans (or_iff_left fun old => old.2 rfl) ?_
      rw [ThEntry.mk.injEq]
      exact and_iff_left rfl

/-- A turn of the loop fires a timer that is due and has no timer before it, or there is
no timer that is due. -/
theorem evtimersTurn_wp {now : Timespec} (running : s.now = some now)
    (past : now.nanos ≤ s.clock.nanos) (fired : s.fired = none) :
    (evtimersTurn now).wp strict [] (fun _ s' => s'.Valid ∧
      s.schedule.Step .turn s'.schedule ∧ s'.clock = s.clock ∧
        (s'.now = s.now ∨ s'.now = none)) s := by
  unfold evtimersTurn
  rw [wp_bind, wp_get, wp_ite]
  split
  case isTrue next =>
    obtain ⟨some, soon⟩ := next
    rw [due_iff] at soon
    unfold timeheapRemoveTop
    rw [wp_bind, wp_bind, wp_get, wp_bind]
    refine wp_mono (timeheapRemove_wp valid some) fun _ s' removed => ?_
    rw [wp_pure, wp_bind]
    unfold setHandle
    rw [wp_modify, wp_modify]
    obtain ⟨valid', schedule⟩ := removed.forget valid some rfl
    refine ⟨⟨valid'.ordered, valid'.backed, valid'.idle, valid'.le, valid'.cap⟩, ?_,
      removed.rest.1, .inl removed.rest.2.1⟩
    have step : s.schedule.Step .turn { s.schedule with
        pending := Function.update s.schedule.pending (s.heap 0).h none
        fired := .some (s.heap 0).h } := by
      refine .fire now (s.heap 0).t (s.heap 0).h running ?_ ?_ fun h' d' pending => ?_
      · exact valid.pending_iff.mpr ⟨0, some, rfl⟩
      · change (s.heap 0).t.nanos < s.clock.nanos + 1000000
        omega
      · obtain ⟨k, lt, eq⟩ := valid.pending_iff.mp pending
        have least : s.keys 0 ≤ s.keys k := valid.ordered.root_le lt
        unfold Timers.keys at least
        rw [eq] at least
        exact least
    have pending := congrArg Schedule.pending schedule
    have result : ({ s' with
        handle := Function.update s'.handle (s.heap 0).h (-1)
        fired := .some (s.heap 0).h } : Timers).schedule = { s.schedule with
        pending := Function.update s.schedule.pending (s.heap 0).h none
        fired := .some (s.heap 0).h } :=
      Schedule.ext pending removed.rest.1 removed.rest.2.1 rfl
    rw [result]
    exact step
  case isFalse last =>
    rw [wp_modify]
    refine ⟨⟨valid.ordered, valid.backed, valid.idle, valid.le, valid.cap⟩, ?_, rfl, .inr rfl⟩
    have step : s.schedule.Step .turn { s.schedule with now := none, fired := none } := by
      refine .done now running fun h d pending => ?_
      obtain ⟨k, lt, eq⟩ := valid.pending_iff.mp pending
      have least : s.keys 0 ≤ s.keys k := valid.ordered.root_le lt
      have late : ¬due (s.heap 0).t now := fun soon => last ⟨Nat.zero_lt_of_lt lt, soon⟩
      rw [due_iff] at late
      unfold Timers.keys at least
      rw [eq] at least
      dsimp only at least
      omega
    have result : ({ s with now := none } : Timers).schedule =
        { s.schedule with now := none, fired := none } := Schedule.ext rfl rfl rfl fired
    rw [result]
    exact step

end Events

/-- What has been fired before does not matter. -/
theorem Schedule.Step.of_fired {m m' : Schedule} {e : Event}
    (step : ({ m with fired := none } : Schedule).Step e m') : m.Step e m' := by
  cases step with
  | add h t mem => exact .add h t mem
  | addFails h t none => exact .addFails h t none
  | del h => exact .del h
  | pass later le => exact .pass later le
  | stay later lt => exact .stay later lt
  | run => exact .run
  | fire now d h running pending soon least => exact .fire now d h running pending soon least
  | done now running late => exact .done now running late
  | idle off => exact .idle off

/-- What holds between two events. -/
structure Timers.Inv (s : Timers) : Prop where
  valid : s.Valid
  past : ∀ now ∈ s.now, now.nanos ≤ s.clock.nanos

/-- Only the map has changed. -/
theorem Timers.Inv.of_pending (inv : s.Inv) (valid : s'.Valid) {m : Nat → Option Timespec}
    (eq : s'.schedule = { s.schedule with pending := m }) : s'.Inv := by
  have clock : s'.clock = s.clock := congrArg Schedule.clock eq
  have now : s'.now = s.now := congrArg Schedule.now eq
  refine ⟨valid, ?_⟩
  rw [clock, now]
  exact inv.past

theorem act_wp (inv : s.Inv) (fired : s.fired = none) (e : Event) :
    (act e).wp strict [] (fun _ s' => s'.Inv ∧ s.schedule.Step e s'.schedule) s := by
  have valid := inv.valid
  have none {m : Nat → Option Timespec} : ({ s.schedule with pending := m } : Schedule) =
      { s.schedule with pending := m, fired := none } := Schedule.ext rfl rfl rfl fired
  cases e with
  | add h t mem =>
      refine wp_seq (evtimerAdd_wp valid t mem) ?_
      rintro r s' ⟨valid', ⟨free, rfl, rfl⟩ | eq⟩
      · refine wp_pure.mpr ⟨inv, ?_⟩
        have step : s'.schedule.Step (.add h t false) { s'.schedule with fired := .none } :=
          .addFails h t free
        have same : s'.schedule = { s'.schedule with fired := .none } := none
        rw [← same] at step
        exact step
      · refine wp_pure.mpr ⟨inv.of_pending valid' eq, ?_⟩
        rw [eq, none]
        exact .add h t mem
  | del h =>
      refine wp_mono (evtimerDel_wp valid) ?_
      rintro - s' ⟨valid', eq⟩
      refine ⟨inv.of_pending valid' eq, ?_⟩
      rw [eq, none]
      exact .del h
  | pass later =>
      refine wp_modify.mpr ?_
      split
      case isTrue le =>
        refine ⟨⟨⟨valid.ordered, valid.backed, valid.idle, valid.le, valid.cap⟩, fun now mem =>
          (inv.past now mem).trans le⟩, ?_⟩
        have same : ({ s with clock := later } : Timers).schedule =
            { s.schedule with clock := later, fired := .none } := Schedule.ext rfl rfl rfl fired
        rw [same]
        exact .pass later le
      case isFalse lt =>
        refine ⟨inv, ?_⟩
        have step : s.schedule.Step (.pass later) { s.schedule with fired := .none } :=
          .stay later (not_le.mp lt)
        have same : s.schedule = { s.schedule with fired := .none } := none
        rw [← same] at step
        exact step
  | run =>
      refine wp_modify.mpr ⟨⟨⟨valid.ordered, valid.backed, valid.idle, valid.le, valid.cap⟩, ?_⟩, ?_⟩
      · rintro now ⟨⟩
        exact le_refl _
      · have same : ({ s with now := some s.clock } : Timers).schedule =
            { s.schedule with now := some s.schedule.clock, fired := .none } :=
          Schedule.ext rfl rfl rfl fired
        rw [same]
        exact .run
  | turn =>
      refine wp_bind.mpr (wp_get.mpr ?_)
      split
      case h_1 off =>
        refine wp_pure.mpr ⟨inv, ?_⟩
        have step : s.schedule.Step .turn { s.schedule with fired := .none } := .idle off
        have same : s.schedule = { s.schedule with fired := .none } := none
        rw [← same] at step
        exact step
      case h_2 now running =>
        refine wp_mono (evtimersTurn_wp valid running (inv.past now running) fired) ?_
        rintro - s' ⟨valid', step, clock, rest⟩
        refine ⟨⟨valid', ?_⟩, step⟩
        rw [clock]
        rcases rest with same | ended
        · rw [same]
          exact inv.past
        · rw [ended]
          exact nofun

theorem handle_wp (inv : s.Inv) (e : Event) :
    (handle e).wp strict [] (fun _ s' => s'.Inv ∧ s.schedule.Step e s'.schedule) s := by
  have valid := inv.valid
  have inv' : ({ s with fired := none } : Timers).Inv :=
    ⟨⟨valid.ordered, valid.backed, valid.idle, valid.le, valid.cap⟩, inv.past⟩
  unfold handle
  rw [wp_bind, wp_modify]
  refine wp_mono (act_wp inv' rfl e) ?_
  rintro - s' ⟨held, step⟩
  exact ⟨held, step.of_fired⟩

/-! ## Runs -/

theorem inv_of_init (init : s.Init) : s.Inv where
  valid := by
    have none : ∀ k, ¬k < s.heapUse := fun k => by simp [init.heapUse]
    refine ⟨fun k _ lt => absurd lt (none k), fun k lt => absurd lt (none k),
      fun h _ => init.handle h, ?_, ?_⟩
    · rw [init.heapUse]
      exact Nat.zero_le _
    · rw [init.heapCap]
      exact Nat.succ_pos _
  past := by
    rw [init.now]
    exact nofun

theorem inv_of_reachable (reached : timers.Reachable (fun _ => False) s) : s.Inv :=
  reached.invariant _ (fun _ => False) (fun _ => inv_of_init) fun _ e _ inv =>
    wp_mono (handle_wp inv e) fun _ _ held => held.1

/-- In every run the heap is in order, each timer in it knows its place and the others
have the index -1, the heap holds the timers that are pending with their deadlines, no
assertion fails, and each event does what it would do to the map. -/
theorem scheduled_of_reachable (reached : timers.Reachable (fun _ => False) s) :
    Ordered s.keys s.heapUse ∧
      (∀ k < s.heapUse, s.handle (s.heap k).h = k) ∧
      (∀ h, s.schedule.pending h = none ↔ s.handle h = -1) ∧
      (∀ h d, s.schedule.pending h = some d ↔ ∃ k < s.heapUse, s.heap k = ⟨d, h⟩) ∧
      (∀ e fault, ¬timers.Faults (fun _ => False) s e fault) ∧
      ∀ e s', timers.Steps (fun _ => False) s e s' → s.schedule.Step e s'.schedule := by
  have inv := inv_of_reachable reached
  refine ⟨inv.valid.ordered, inv.valid.backed, fun _ => inv.valid.pending_none_iff,
    fun _ _ => inv.valid.pending_iff, fun e fault faults => ?_, fun e s' steps => ?_⟩
  · obtain ⟨a, s', returned, -⟩ := returned_of_strict (handle_wp inv e)
    cases returned.symm.trans faults.1
  · exact (steps.of_wp (handle_wp inv e)).2

/-- `timeheap_init`; nothing is in the heap. -/
def Timers.init (clock : Timespec) : Timers where
  heap _ := ⟨clock, 0⟩
  heapCap := 10
  heapUse := 0
  handle _ := -1
  clock := clock
  now := none
  fired := none

/-- Some seconds. -/
def seconds (n : Nat) : Timespec := ⟨n, 0, by decide⟩

/-- Three timers are added, one is changed, and the second one is fired. -/
def secondFires : List Event :=
  [.add 1 (seconds 3) true, .add 2 (seconds 2) true, .add 3 (seconds 1) true,
    .add 3 (seconds 4) true, .pass (seconds 2), .run, .turn]

theorem scheduled_of_reachable_secondFires :
    ∃ s, timers.Reachable (fun _ => False) s ∧ (s.fired = some 2 ∧ s.heapUse = 2) ∧
      Ordered s.keys s.heapUse ∧ ∀ k < s.heapUse, s.handle (s.heap k).h = k := by
  have start : timers.Reachable (fun _ => False) (Timers.init (seconds 0)) :=
    .start ⟨rfl, rfl, fun _ => rfl, rfl⟩
  obtain ⟨s, reached, fired⟩ := System.Reachable.of_after
    (P := fun s => s.fired = some 2 ∧ s.heapUse = 2) secondFires start (by decide +kernel)
  have scheduled := scheduled_of_reachable reached
  exact ⟨s, reached, fired, scheduled.1, scheduled.2.1⟩

end Btpd.Evloop
