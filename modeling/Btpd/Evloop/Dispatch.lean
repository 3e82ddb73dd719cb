import Btpd.Evloop.Poll

/-!
# The callbacks of a pass

Each descriptor that is registered knows its slot.  A slot that is still to be tested in
the pass under way has the results that `poll` has reported for its descriptor, or none,
unless one of the calls in `stale` was made.  So each callback is one that the book allows.
-/

namespace Btpd.Evloop

open Prog

variable {s : Loop} {k cur ev : Nat} {type : EvType} {e : Entry} {c : Callback}

/-! ## The book -/

namespace Book

variable {b : Book} {f : Entry → Entry}

theorem change_self : b.change ev f ev = (b ev).map f := Function.update_self ..

theorem change_of_ne {ev' : Nat} (ne : ev' ≠ ev) : b.change ev f ev' = b ev' :=
  Function.update_of_ne ne ..

/-- A change leaves the descriptors registered that were. -/
theorem exists_of_change {ev' : Nat} {e : Entry} (changed : b.change ev f ev' = some e) :
    ∃ e', b ev' = some e' := by
  by_cases eq : ev' = ev
  · rw [eq, change_self] at changed
    rcases Option.map_eq_some_iff.mp changed with ⟨e', entry, -⟩
    exact ⟨e', eq ▸ entry⟩
  · rw [change_of_ne eq] at changed
    exact ⟨e, changed⟩

/-- What is due stays due when the entry keeps what counts for it. -/
theorem Due.change (due : b.Due c)
    (keeps : ∀ e, b ev = some e → c.ev = ev →
      ((f e).fd, (f e).cb, (f e).arg) = (e.fd, e.cb, e.arg) ∧ (f e).polled = e.polled ∧
        (f e).called = e.called ∧ (e.enabled.has c.type → (f e).enabled.has c.type)) :
    (b.change ev f).Due c := by
  rcases due with ⟨e, entry, same, enabled, uncalled, r, polled, reports⟩
  by_cases eq : c.ev = ev
  · rcases keeps e (eq ▸ entry) eq with ⟨same', polled', called', enabled'⟩
    refine ⟨f e, ?_, same.trans same'.symm, enabled' enabled, ?_, r, ?_, reports⟩
    · rw [eq, change_self, ← eq, entry]
      rfl
    · rw [called', uncalled]
    · rw [polled', polled]
  · refine ⟨e, ?_, same, enabled, uncalled, r, polled, reports⟩
    rw [change_of_ne eq]
    exact entry

end Book

/-! ## Slots -/

theorem reports_none : Revents.none.reports type = false := by
  cases type <;> rfl

theorem reports_of_wants {p : Pollfd} (wants : p.wants type) : p.revents.reports type := by
  unfold Pollfd.wants at wants
  exact (Bool.and_eq_true_iff.mp wants).2

/-- The slot of a descriptor with the entry `e`. -/
structure Loop.Slot (s : Loop) (k : Nat) (e : Entry) : Prop where
  entry : s.book (s.mPevs k).ev = some e
  index : s.index (s.mPevs k).ev = k
  same : ((s.mPfds k).fd, (s.mPevs k).cb, (s.mPevs k).arg) = (e.fd, e.cb, e.arg)
  events : (s.mPfds k).events = e.enabled

/-- A slot is the same when nothing has changed for it and its descriptor. -/
theorem Loop.Slot.congr {s' : Loop} (slot : s.Slot k e) (pfds : s'.mPfds k = s.mPfds k)
    (pevs : s'.mPevs k = s.mPevs k)
    (index : s'.index (s.mPevs k).ev = s.index (s.mPevs k).ev)
    (book : s'.book (s.mPevs k).ev = s.book (s.mPevs k).ev) : s'.Slot k e := by
  constructor
  · rw [pevs, book, slot.entry]
  · rw [pevs, index, slot.index]
  · rw [pevs, pfds, slot.same]
  · rw [pfds, slot.events]

/-- The results in the slot are the ones of its descriptor in this pass, which has had no
callback for the type, or there are none. -/
def Loop.Fresh (s : Loop) (k : Nat) (type : EvType) : Prop :=
  (s.mPfds k).revents = .none ∨ ∃ e, s.book (s.mPevs k).ev = some e ∧
    e.polled = some (s.mPfds k).revents ∧ e.called type = false

/-- A test of a slot with such results finds a callback that is due. -/
theorem Loop.Fresh.due (fresh : s.Fresh k type) (slot : s.Slot k e)
    (wants : (s.mPfds k).wants type) : s.book.Due (s.callback k type) := by
  have reports := reports_of_wants wants
  rcases fresh with none | ⟨e', entry, polled, uncalled⟩
  · rw [none, reports_none] at reports
    contradiction
  have eq : e' = e := Option.some.inj (entry.symm.trans slot.entry)
  subst eq
  refine ⟨e', entry, slot.same, ?_, uncalled, _, polled, reports⟩
  unfold Pollfd.wants at wants
  rw [← slot.events]
  exact (Bool.and_eq_true_iff.mp wants).1

/-- The descriptors and the slots up to `m_size` know each other. -/
structure Loop.Placed (s : Loop) : Prop where
  slots : ∀ k < s.mSize, ∃ e, s.Slot k e
  index : ∀ ev e, s.book ev = some e → s.index ev < s.mSize ∧ (s.mPevs (s.index ev)).ev = ev
  size : s.mSize ≤ s.mCap
  pos : 0 < s.mCap

/-- A descriptor has one slot. -/
theorem Loop.Placed.eq_of_ev (placed : s.Placed) {j : Nat} (kLt : k < s.mSize)
    (jLt : j < s.mSize) (same : (s.mPevs k).ev = (s.mPevs j).ev) : k = j := by
  rcases placed.slots k kLt with ⟨_, slot⟩
  rcases placed.slots j jLt with ⟨_, slot'⟩
  rw [← slot.index, same, slot'.index]

theorem Loop.Placed.congr {s' : Loop} (placed : s.Placed) (pfds : s'.mPfds = s.mPfds)
    (pevs : s'.mPevs = s.mPevs) (index : s'.index = s.index) (book : s'.book = s.book)
    (size : s'.mSize = s.mSize) (cap : s.mCap ≤ s'.mCap) : s'.Placed where
  slots := by
    intro k lt
    rw [size] at lt
    rcases placed.slots k lt with ⟨e, slot⟩
    exact ⟨e, slot.congr (congrFun pfds k) (congrFun pevs k) (congrFun index _)
      (congrFun book _)⟩
  index := by
    rw [index, book, pevs, size]
    exact placed.index
  size := by
    rw [size]
    exact Nat.le_trans placed.size cap
  pos := Nat.lt_of_lt_of_le placed.pos cap

/-- Where the pass is, and what it will find. -/
structure Loop.Inv (s : Loop) : Prop where
  placed : s.Placed
  cap : ∀ cur, s.mCur = some cur → cur < s.mCap
  outside : s.mCur = none → s.stage = .outside ∧ s.mCurdel = false ∧ s.calling = none
  inside : s.stage = .outside → s.mCur = none
  reading : s.stage = .reading → s.mCurdel = false ∧ s.calling = none ∧
    ∀ cur, s.mCur = some cur → cur < s.mSize
  saved : s.stage = .reading ∨ s.toTestWrite → s.saved = true
  fresh : ∀ k < s.mSize, s.ahead k → ∀ type, s.Fresh k type
  here : s.toTestWrite → ∀ cur, s.mCur = some cur → cur < s.mSize → s.Fresh cur .write
  left : s.toTestWrite → ∀ cur, s.mCur = some cur → s.mSize ≤ cur →
    (s.mPfds cur).wants .write → s.book.Due (s.callback cur .write)

/-- No routine of descriptors is called before the slot is tested for reading. -/
theorem Loop.Inv.not_reading (inv : s.Inv) (free : s.Free) : s.stage ≠ .reading := by
  intro reading
  rcases free with outside | calling
  · rw [outside] at reading
    contradiction
  · rw [(inv.reading reading).2.1] at calling
    contradiction

/-! ## A descriptor is created -/

/-- The state after `realloc`. -/
def Loop.moved (s : Loop) (g : Growth) : Loop := { s with
  mPfds := extend s.mCap s.mPfds g.pfds
  mPevs := extend s.mCap s.mPevs g.pevs
  saved := false }

theorem extend_of_lt {α : Type} {n : Nat} {old : Nat → α} {behind : Option (Nat → α)}
    (lt : k < n) : extend n old behind k = old k := if_pos lt

theorem Loop.moved_pfds {g : Growth} (lt : k < s.mCap) : (s.moved g).mPfds k = s.mPfds k :=
  extend_of_lt lt

theorem Loop.moved_pevs {g : Growth} (lt : k < s.mCap) : (s.moved g).mPevs k = s.mPevs k :=
  extend_of_lt lt

theorem Loop.Slot.moved {g : Growth} (slot : s.Slot k e) (lt : k < s.mCap) :
    (s.moved g).Slot k e := slot.congr (moved_pfds lt) (moved_pevs lt) rfl rfl

theorem Loop.Fresh.moved {g : Growth} (fresh : s.Fresh k type) (lt : k < s.mCap) :
    (s.moved g).Fresh k type := by
  unfold Loop.Fresh
  rw [moved_pevs lt, moved_pfds lt]
  exact fresh

/-- The arrays may be moved unless the saved pointers are still to be used. -/
theorem Loop.Inv.moved (inv : s.Inv) (g : Growth) (free : s.Free) (unused : ¬s.toTestWrite) :
    (s.moved g).Inv where
  placed := by
    have within : ∀ k < s.mSize, k < s.mCap := fun k lt => Nat.lt_of_lt_of_le lt inv.placed.size
    constructor
    · intro k lt
      rcases inv.placed.slots k lt with ⟨e, slot⟩
      exact ⟨e, slot.moved (within k lt)⟩
    · intro ev e entry
      rcases inv.placed.index ev e entry with ⟨lt, eq⟩
      exact ⟨lt, (congrArg PollEv.ev (moved_pevs (within _ lt))).trans eq⟩
    · exact inv.placed.size
    · exact inv.placed.pos
  cap := inv.cap
  outside := inv.outside
  inside := inv.inside
  reading := inv.reading
  saved := by
    rintro (reading | writing)
    · exact absurd reading (inv.not_reading free)
    · exact absurd writing unused
  fresh := fun k lt ahead type =>
    (inv.fresh k lt ahead type).moved (Nat.lt_of_lt_of_le lt inv.placed.size)
  here := fun writing => absurd writing unused
  left := fun writing => absurd writing unused

theorem Loop.Inv.grown (inv : s.Inv) : ({ s with mCap := s.mCap * 2 } : Loop).Inv where
  placed := inv.placed.congr rfl rfl rfl rfl rfl (Nat.le_mul_of_pos_right _ Nat.two_pos)
  cap := fun cur mCur =>
    Nat.lt_of_lt_of_le (inv.cap cur mCur) (Nat.le_mul_of_pos_right _ Nat.two_pos)
  outside := inv.outside
  inside := inv.inside
  reading := inv.reading
  saved := inv.saved
  fresh := inv.fresh
  here := inv.here
  left := inv.left

section Take

variable {fd : Int} {flags : EvFlags} {cb arg : Nat}

theorem Loop.take_pfds_of_ne (ne : k ≠ s.mSize) :
    (s.take ev fd flags cb arg).mPfds k = s.mPfds k := Function.update_of_ne ne ..

theorem Loop.take_pevs_of_ne (ne : k ≠ s.mSize) :
    (s.take ev fd flags cb arg).mPevs k = s.mPevs k := Function.update_of_ne ne ..

theorem Loop.take_revents :
    ((s.take ev fd flags cb arg).mPfds k).revents = (s.mPfds k).revents := by
  by_cases eq : k = s.mSize
  · have taken : (s.take ev fd flags cb arg).mPfds k = ⟨fd, flags, (s.mPfds k).revents⟩ := by
      rw [eq]
      exact Function.update_self ..
    rw [taken]
  · rw [take_pfds_of_ne eq]

theorem Loop.Slot.take (slot : s.Slot k e) (lt : k < s.mSize) (free : s.book ev = none) :
    (s.take ev fd flags cb arg).Slot k e := by
  have ne : k ≠ s.mSize := Nat.ne_of_lt lt
  have other : (s.mPevs k).ev ≠ ev := by
    intro eq
    rw [← eq, slot.entry] at free
    contradiction
  exact slot.congr (take_pfds_of_ne ne) (take_pevs_of_ne ne) (Function.update_of_ne other ..)
    (Function.update_of_ne other ..)

theorem Loop.slot_take : (s.take ev fd flags cb arg).Slot s.mSize
    ⟨fd, cb, arg, flags, none, fun _ => false⟩ := by
  have pevs : (s.take ev fd flags cb arg).mPevs s.mSize = ⟨ev, cb, arg⟩ :=
    Function.update_self ..
  have pfds : (s.take ev fd flags cb arg).mPfds s.mSize =
      ⟨fd, flags, (s.mPfds s.mSize).revents⟩ := Function.update_self ..
  constructor
  · rw [pevs]
    exact Function.update_self ..
  · rw [pevs]
    exact Function.update_self ..
  · rw [pevs, pfds]
  · rw [pfds]

/-- An entry that was in the book is still there. -/
theorem Loop.take_book {ev' : Nat} (entry : s.book ev' = some e) (free : s.book ev = none) :
    (s.take ev fd flags cb arg).book ev' = some e := by
  have other : ev' ≠ ev := by
    intro eq
    rw [← eq, entry] at free
    contradiction
  exact (Function.update_of_ne other ..).trans entry

theorem Loop.Fresh.take (fresh : s.Fresh k type) (ne : k ≠ s.mSize) (free : s.book ev = none) :
    (s.take ev fd flags cb arg).Fresh k type := by
  unfold Loop.Fresh
  rw [take_revents, take_pevs_of_ne ne]
  rcases fresh with none | ⟨e, entry, held⟩
  · exact .inl none
  · exact .inr ⟨e, take_book entry free, held⟩

theorem Loop.fresh_take (none : (s.mPfds s.mSize).revents = .none) :
    (s.take ev fd flags cb arg).Fresh s.mSize type :=
  .inl (take_revents.trans none)

/-- A slot that is still to be tested may be taken if it has no results. -/
theorem Loop.Inv.take (inv : s.Inv) (free : s.Free) (unknown : s.book ev = none)
    (room : s.mSize < s.mCap)
    (clean : s.toTest s.mSize → (s.mPfds s.mSize).revents = .none) :
    (s.take ev fd flags cb arg).Inv where
  placed := by
    constructor
    · intro k lt
      rcases Nat.lt_or_eq_of_le (Nat.le_of_lt_succ lt) with lt' | rfl
      · rcases inv.placed.slots k lt' with ⟨e, slot⟩
        exact ⟨e, slot.take lt' unknown⟩
      · exact ⟨_, slot_take⟩
    · intro ev' e entry
      by_cases eq : ev' = ev
      · subst eq
        have index : (s.take ev' fd flags cb arg).index ev' = s.mSize := Function.update_self ..
        have pevs : (s.take ev' fd flags cb arg).mPevs s.mSize = ⟨ev', cb, arg⟩ :=
          Function.update_self ..
        rw [index, pevs]
        exact ⟨Nat.lt_succ_self _, rfl⟩
      · have index : (s.take ev fd flags cb arg).index ev' = s.index ev' :=
          Function.update_of_ne eq ..
        have entry' : s.book ev' = some e := (Function.update_of_ne eq ..).symm.trans entry
        rcases inv.placed.index ev' e entry' with ⟨lt, held⟩
        rw [index, take_pevs_of_ne (Nat.ne_of_lt lt)]
        exact ⟨Nat.lt_succ_of_lt lt, held⟩
    · exact room
    · exact inv.placed.pos
  cap := inv.cap
  outside := inv.outside
  inside := inv.inside
  reading := fun reading => absurd reading (inv.not_reading free)
  saved := inv.saved
  fresh := by
    intro k lt ahead type
    rcases Nat.lt_or_eq_of_le (Nat.le_of_lt_succ lt) with lt' | rfl
    · exact (inv.fresh k lt' ahead type).take (Nat.ne_of_lt lt') unknown
    · exact fresh_take (clean (.inl ahead))
  here := by
    intro writing cur mCur lt
    rcases Nat.lt_or_eq_of_le (Nat.le_of_lt_succ lt) with lt' | rfl
    · exact (inv.here writing cur mCur lt').take (Nat.ne_of_lt lt') unknown
    · exact fresh_take (clean (.inr ⟨writing, mCur⟩))
  left := by
    intro writing cur mCur le wants
    have ne : cur ≠ s.mSize := Nat.ne_of_gt le
    rw [take_pfds_of_ne ne] at wants
    have callback : (s.take ev fd flags cb arg).callback cur .write = s.callback cur .write := by
      unfold Loop.callback
      rw [take_pfds_of_ne ne, take_pevs_of_ne ne]
    rw [callback]
    rcases inv.left writing cur mCur (Nat.le_of_lt le) wants with ⟨e, entry, held⟩
    exact ⟨e, take_book entry unknown, held⟩

end Take

/-! ## Types are enabled and disabled -/

section SetEvents

variable {f : EvFlags → EvFlags}

theorem Loop.setEvents_self : (s.setEvents ev f).mPfds (s.index ev) =
    { s.mPfds (s.index ev) with events := f (s.mPfds (s.index ev)).events } :=
  Function.update_self ..

theorem Loop.setEvents_of_ne (ne : k ≠ s.index ev) :
    (s.setEvents ev f).mPfds k = s.mPfds k := Function.update_of_ne ne ..

theorem Loop.setEvents_revents :
    ((s.setEvents ev f).mPfds k).revents = (s.mPfds k).revents := by
  by_cases eq : k = s.index ev
  · rw [eq, setEvents_self]
  · rw [setEvents_of_ne eq]

/-- The entry after the flags were changed. -/
def Entry.setEnabled (f : EvFlags → EvFlags) (e : Entry) : Entry := { e with enabled := f e.enabled }

theorem Loop.setEvents_book : (s.setEvents ev f).book = s.book.change ev (Entry.setEnabled f) := rfl

theorem Loop.Placed.setEvents (placed : s.Placed) (known : s.book ev = some e) :
    (s.setEvents ev f).Placed where
  slots := by
    intro k lt
    rcases placed.slots k lt with ⟨e, slot⟩
    by_cases eq : (s.mPevs k).ev = ev
    · have here : k = s.index ev := by rw [← eq, slot.index]
      refine ⟨e.setEnabled f, ?_, slot.index, ?_, ?_⟩
      · rw [setEvents_book]
        have entry := slot.entry
        rw [eq] at entry
        have pevs : ((s.setEvents ev f).mPevs k).ev = ev := eq
        rw [pevs, Book.change_self, entry]
        rfl
      · rw [here, setEvents_self, ← here]
        exact slot.same
      · rw [here, setEvents_self, ← here, slot.events]
        rfl
    · have away : k ≠ s.index ev := by
        rintro rfl
        exact eq (placed.index ev _ known).2
      exact ⟨e, slot.congr (setEvents_of_ne away) rfl rfl (Book.change_of_ne eq)⟩
  index := by
    intro ev' e entry
    rcases Book.exists_of_change entry with ⟨e', entry'⟩
    exact placed.index ev' e' entry'
  size := placed.size
  pos := placed.pos

theorem Loop.Fresh.setEvents (fresh : s.Fresh k type) : (s.setEvents ev f).Fresh k type := by
  unfold Loop.Fresh
  rw [setEvents_revents]
  refine fresh.imp_right ?_
  rintro ⟨e, entry, polled, uncalled⟩
  have pevs : (s.setEvents ev f).mPevs k = s.mPevs k := rfl
  rw [pevs, setEvents_book]
  by_cases eq : (s.mPevs k).ev = ev
  · refine ⟨e.setEnabled f, ?_, polled, uncalled⟩
    rw [eq, Book.change_self, ← eq, entry]
    rfl
  · refine ⟨e, ?_, polled, uncalled⟩
    rw [Book.change_of_ne eq]
    exact entry

/-- The flags of a descriptor may be changed unless its old slot is still to be tested for
writing and the change disables it. -/
theorem Loop.Inv.setEvents (inv : s.Inv) (free : s.Free) (known : s.book ev = some e)
    (keeps : s.leftBehind ev → ∀ flags : EvFlags, flags.write = true → (f flags).write = true) :
    (s.setEvents ev f).Inv where
  placed := inv.placed.setEvents known
  cap := inv.cap
  outside := inv.outside
  inside := inv.inside
  reading := fun reading => absurd reading (inv.not_reading free)
  saved := inv.saved
  fresh := fun k lt ahead type => (inv.fresh k lt ahead type).setEvents
  here := fun writing cur mCur lt => (inv.here writing cur mCur lt).setEvents
  left := by
    intro writing cur mCur le wants
    have away : cur ≠ s.index ev :=
      Nat.ne_of_gt (Nat.lt_of_lt_of_le (inv.placed.index ev e known).1 le)
    have pfds : (s.setEvents ev f).mPfds cur = s.mPfds cur := setEvents_of_ne away
    have callback : (s.setEvents ev f).callback cur .write = s.callback cur .write := by
      unfold Loop.callback
      rw [pfds]
      rfl
    rw [pfds] at wants
    rw [callback, setEvents_book]
    refine (inv.left writing cur mCur le wants).change fun e' _ eq => ⟨rfl, rfl, rfl, ?_⟩
    exact keeps ⟨writing, cur, mCur, le, eq, wants⟩ e'.enabled

end SetEvents

/-! ## A descriptor is deleted -/

/-- The slot whose contents are in the slot `k` after the slot of `ev` was filled. -/
def Loop.source (s : Loop) (ev k : Nat) : Nat := if k = s.index ev then s.mSize - 1 else k

theorem Loop.drop_pfds : (s.drop ev).mPfds k = s.mPfds (s.source ev k) := by
  unfold Loop.source
  split
  case isTrue eq =>
    rw [eq]
    exact Function.update_self ..
  case isFalse ne => exact Function.update_of_ne ne ..

theorem Loop.drop_pevs : (s.drop ev).mPevs k = s.mPevs (s.source ev k) := by
  unfold Loop.source
  split
  case isTrue eq =>
    rw [eq]
    exact Function.update_self ..
  case isFalse ne => exact Function.update_of_ne ne ..

theorem Loop.source_lt (lt : k < s.mSize - 1) : s.source ev k < s.mSize := by
  unfold Loop.source
  split <;> omega

theorem Loop.source_ne (lt : k < s.mSize - 1) : s.source ev k ≠ s.index ev := by
  unfold Loop.source
  split <;> omega

/-- A slot that is filled belongs to another descriptor. -/
theorem Loop.Slot.ev_ne (slot : s.Slot k e) (ne : k ≠ s.index ev) : (s.mPevs k).ev ≠ ev := by
  rintro rfl
  exact ne slot.index.symm

theorem Loop.drop_book_of_ne {ev' : Nat} (ne : ev' ≠ ev) : (s.drop ev).book ev' = s.book ev' :=
  Function.update_of_ne ne ..

theorem Loop.Placed.drop_index (placed : s.Placed) (lt : k < s.mSize - 1) :
    (s.drop ev).index (s.mPevs (s.source ev k)).ev = k := by
  by_cases here : k = s.index ev
  · have source : s.source ev k = s.mSize - 1 := if_pos here
    rw [source, here]
    exact Function.update_self ..
  · have source : s.source ev k = k := if_neg here
    have other : (s.mPevs k).ev ≠ (s.mPevs (s.mSize - 1)).ev := by
      intro same
      have := placed.eq_of_ev (by omega) (by omega) same
      omega
    rcases placed.slots k (by omega) with ⟨_, slot⟩
    rw [source]
    exact (Function.update_of_ne other ..).trans slot.index

theorem Loop.Placed.drop (placed : s.Placed) (known : s.book ev = some e) :
    (s.drop ev).Placed where
  slots := by
    intro k lt
    have lt : k < s.mSize - 1 := lt
    rcases placed.slots (s.source ev k) (source_lt lt) with ⟨e', slot⟩
    refine ⟨e', ?_, ?_, ?_, ?_⟩
    · rw [drop_pevs, drop_book_of_ne (slot.ev_ne (source_ne lt))]
      exact slot.entry
    · rw [drop_pevs]
      exact placed.drop_index lt
    · rw [drop_pevs, drop_pfds]
      exact slot.same
    · rw [drop_pfds]
      exact slot.events
  index := by
    intro ev' e' entry
    have ne : ev' ≠ ev := by
      rintro rfl
      have gone : (s.drop ev').book ev' = none := Function.update_self ..
      rw [gone] at entry
      contradiction
    rw [drop_book_of_ne ne] at entry
    rcases placed.index ev' e' entry with ⟨lt, held⟩
    rcases placed.index ev e known with ⟨lt', held'⟩
    -- The slot that holds it afterwards.
    have away : s.index ev' ≠ s.index ev := by
      intro same
      rw [same, held'] at held
      exact ne held.symm
    by_cases moved : s.index ev' = s.mSize - 1
    · have index : (s.drop ev).index ev' = s.index ev := by
        rw [← held, moved]
        exact Function.update_self ..
      have source : s.source ev (s.index ev) = s.mSize - 1 := if_pos rfl
      rw [index, drop_pevs, source, ← moved]
      refine ⟨?_, held⟩
      have size : (s.drop ev).mSize = s.mSize - 1 := rfl
      omega
    · have other : ev' ≠ (s.mPevs (s.mSize - 1)).ev := by
        intro same
        rw [← held] at same
        exact moved (placed.eq_of_ev lt (by omega) same)
      have index : (s.drop ev).index ev' = s.index ev' := Function.update_of_ne other ..
      have source : s.source ev (s.index ev') = s.index ev' := if_neg away
      rw [index, drop_pevs, source]
      refine ⟨?_, held⟩
      have size : (s.drop ev).mSize = s.mSize - 1 := rfl
      omega
  size := Nat.le_trans (Nat.sub_le ..) placed.size
  pos := placed.pos

theorem Loop.Fresh.drop (fresh : s.Fresh (s.source ev k) type)
    (ne : (s.mPevs (s.source ev k)).ev ≠ ev) : (s.drop ev).Fresh k type := by
  unfold Loop.Fresh
  rw [drop_pfds, drop_pevs, drop_book_of_ne ne]
  exact fresh

/-- A slot that is to be tested afterwards is filled from one that was to be tested. -/
theorem Loop.ahead_source (ahead : (s.drop ev).ahead k) (lt : k < s.mSize - 1) :
    s.ahead (s.source ev k) := by
  rcases ahead with ⟨cur, mCur, place⟩
  have mCur : s.mCur = some cur := mCur
  refine ⟨cur, mCur, ?_⟩
  unfold Loop.source
  split
  case isTrue here =>
    left
    omega
  case isFalse away =>
    refine place.imp_right fun ⟨eq, now⟩ => ⟨eq, now.imp_right fun deleted => ?_⟩
    have kept : (s.mCurdel || decide (s.mCur = some (s.index ev))) = true := deleted
    have other : s.mCur ≠ some (s.index ev) := by
      rw [mCur, eq]
      exact fun same => away (Option.some.inj same)
    simpa [other] using kept

/-- A descriptor may be deleted unless its old slot is still to be tested for writing. -/
theorem Loop.Inv.drop (inv : s.Inv) (free : s.Free) (known : s.book ev = some e)
    (clean : ¬s.leftBehind ev) : (s.drop ev).Inv := by
  have placed := inv.placed
  rcases placed.index ev e known with ⟨inside, held⟩
  -- Where the slot is still to be tested for writing, the one of another descriptor is filled.
  have before : (s.drop ev).toTestWrite → s.toTestWrite ∧ s.mCur ≠ some (s.index ev) := by
    rintro ⟨writing, kept⟩
    have kept : (s.mCurdel || decide (s.mCur = some (s.index ev))) = false := kept
    simp only [Bool.or_eq_false_iff, decide_eq_false_iff_not] at kept
    exact ⟨⟨writing, kept.1⟩, kept.2⟩
  constructor
  · exact placed.drop known
  · exact inv.cap
  · intro none
    have none : s.mCur = Option.none := none
    rcases inv.outside none with ⟨outside, kept, returned⟩
    refine ⟨outside, ?_, returned⟩
    have curdel : (s.drop ev).mCurdel = (s.mCurdel || decide (s.mCur = some (s.index ev))) := rfl
    rw [curdel, kept, none]
    rfl
  · exact inv.inside
  · exact fun reading => absurd reading (inv.not_reading free)
  · rintro (reading | writing)
    · exact absurd reading (inv.not_reading free)
    · exact inv.saved (.inr (before writing).1)
  · intro k lt ahead type
    have lt : k < s.mSize - 1 := lt
    rcases placed.slots (s.source ev k) (source_lt lt) with ⟨_, slot⟩
    exact (inv.fresh _ (source_lt lt) (ahead_source ahead lt) type).drop
      (slot.ev_ne (source_ne lt))
  · intro writing cur mCur lt
    have lt : cur < s.mSize - 1 := lt
    have mCur : s.mCur = some cur := mCur
    rcases before writing with ⟨writing', other⟩
    have source : s.source ev cur = cur := by
      refine if_neg fun same => other ?_
      rw [mCur, same]
    rcases placed.slots (s.source ev cur) (source_lt lt) with ⟨_, slot⟩
    refine Fresh.drop ?_ (slot.ev_ne (source_ne lt))
    rw [source]
    exact inv.here writing' cur mCur (by omega)
  · intro writing cur mCur le wants
    have le : s.mSize - 1 ≤ cur := le
    have mCur : s.mCur = some cur := mCur
    rcases before writing with ⟨writing', other⟩
    have source : s.source ev cur = cur := by
      refine if_neg fun same => other ?_
      rw [mCur, same]
    have callback : (s.drop ev).callback cur .write = s.callback cur .write := by
      unfold Loop.callback
      rw [drop_pfds, drop_pevs, source]
    rw [drop_pfds, source] at wants
    rw [callback]
    have due : s.book.Due (s.callback cur .write) := by
      rcases Nat.lt_or_ge cur s.mSize with lt | beyond
      · rcases placed.slots cur lt with ⟨_, slot⟩
        exact (inv.here writing' cur mCur lt).due slot wants
      · exact inv.left writing' cur mCur beyond wants
    have ne : (s.mPevs cur).ev ≠ ev := by
      intro same
      rcases Nat.lt_or_ge cur s.mSize with lt | beyond
      · rcases placed.slots cur lt with ⟨_, slot⟩
        have here : s.index ev = cur := by rw [← same, slot.index]
        rw [here] at other
        exact other mCur
      · exact clean ⟨writing', cur, mCur, beyond, same, wants⟩
    rcases due with ⟨e', entry, rest⟩
    exact ⟨e', (drop_book_of_ne ne).trans entry, rest⟩

/-! ## The pass -/

theorem Loop.Placed.polled {r : Nat → Revents} (placed : s.Placed) : (s.polled r).Placed where
  slots := by
    intro k lt
    rcases placed.slots k lt with ⟨e, slot⟩
    have pfds : (s.polled r).mPfds k =
        { s.mPfds k with revents := r (s.mPevs k).ev } := if_pos lt
    have pevs : (s.polled r).mPevs k = s.mPevs k := rfl
    refine ⟨e.poll (r (s.mPevs k).ev), ?_, slot.index, ?_, ?_⟩
    · have book : (s.polled r).book (s.mPevs k).ev =
          (s.book (s.mPevs k).ev).map (·.poll (r (s.mPevs k).ev)) := rfl
      rw [pevs, book, slot.entry]
      rfl
    · rw [pfds]
      exact slot.same
    · rw [pfds]
      exact slot.events
  index := by
    intro ev e entry
    rcases Option.map_eq_some_iff.mp entry with ⟨e', entry', -⟩
    exact placed.index ev e' entry'
  size := placed.size
  pos := placed.pos

/-- After `poll` every slot has the results of its descriptor. -/
theorem Loop.Placed.fresh_polled {r : Nat → Revents} (placed : s.Placed) (lt : k < s.mSize) :
    (s.polled r).Fresh k type := by
  right
  rcases placed.slots k lt with ⟨e, slot⟩
  have pfds : (s.polled r).mPfds k = { s.mPfds k with revents := r (s.mPevs k).ev } := if_pos lt
  have book : (s.polled r).book (s.mPevs k).ev =
      (s.book (s.mPevs k).ev).map (·.poll (r (s.mPevs k).ev)) := rfl
  refine ⟨e.poll (r (s.mPevs k).ev), ?_, ?_, rfl⟩
  · have pevs : (s.polled r).mPevs k = s.mPevs k := rfl
    rw [pevs, book, slot.entry]
    rfl
  · rw [pfds]
    rfl

/-- The inner loop goes to a slot, or ends. -/
theorem Loop.Placed.enter (placed : s.Placed) (kept : s.mCurdel = false)
    (returned : s.calling = none)
    (fresh : ∀ k < s.mSize, cur ≤ k → ∀ type, s.Fresh k type) : (s.enter cur).Inv := by
  unfold Loop.enter
  split
  case isTrue lt =>
    constructor
    · exact placed.congr rfl rfl rfl rfl rfl (Nat.le_refl _)
    · rintro _ ⟨⟩
      exact Nat.lt_of_lt_of_le lt placed.size
    · exact nofun
    · exact nofun
    · refine fun _ => ⟨kept, returned, ?_⟩
      rintro _ ⟨⟩
      exact lt
    · exact fun _ => rfl
    · rintro k lt' ⟨_, ⟨⟩, place⟩ type
      refine fresh k lt' ?_ type
      rcases place with less | ⟨same, -⟩
      · exact Nat.le_of_lt less
      · exact Nat.le_of_eq same
    · rintro ⟨⟨⟩, -⟩
    · rintro ⟨⟨⟩, -⟩
  case isFalse =>
    constructor
    · exact placed.congr rfl rfl rfl rfl rfl (Nat.le_refl _)
    · exact nofun
    · exact fun _ => ⟨rfl, kept, returned⟩
    · exact fun _ => rfl
    · exact nofun
    · rintro (reading | ⟨writing, -⟩)
      · contradiction
      · contradiction
    · rintro k _ ⟨_, ⟨⟩, -⟩
    · rintro ⟨⟨⟩, -⟩
    · rintro ⟨⟨⟩, -⟩

theorem Loop.dispatch_book : (s.dispatch cur type).book =
    s.book.change (s.mPevs cur).ev (·.call type) := rfl

theorem Loop.Placed.dispatch (placed : s.Placed) : (s.dispatch cur type).Placed where
  slots := by
    intro k lt
    rcases placed.slots k lt with ⟨e, slot⟩
    by_cases eq : (s.mPevs k).ev = (s.mPevs cur).ev
    · refine ⟨e.call type, ?_, slot.index, slot.same, slot.events⟩
      have pevs : (s.dispatch cur type).mPevs k = s.mPevs k := rfl
      rw [pevs, dispatch_book, eq, Book.change_self, ← eq, slot.entry]
      rfl
    · exact ⟨e, slot.congr rfl rfl rfl (Book.change_of_ne eq)⟩
  index := by
    intro ev e entry
    rcases Book.exists_of_change entry with ⟨e', entry'⟩
    exact placed.index ev e' entry'
  size := placed.size
  pos := placed.pos

/-- The results are as good for another descriptor, and for the other type. -/
theorem Loop.Fresh.dispatch {type' : EvType} (fresh : s.Fresh k type')
    (other : (s.mPevs k).ev ≠ (s.mPevs cur).ev ∨ type' ≠ type) :
    (s.dispatch cur type).Fresh k type' := by
  refine fresh.imp_right ?_
  rintro ⟨e, entry, polled, uncalled⟩
  have pevs : (s.dispatch cur type).mPevs k = s.mPevs k := rfl
  rw [pevs, dispatch_book]
  by_cases eq : (s.mPevs k).ev = (s.mPevs cur).ev
  · have ne : type' ≠ type := other.resolve_left (not_not_intro eq)
    refine ⟨e.call type, ?_, polled, ?_⟩
    · rw [eq, Book.change_self, ← eq, entry]
      rfl
    · exact (Function.update_of_ne ne ..).trans uncalled
  · refine ⟨e, ?_, polled, uncalled⟩
    rw [Book.change_of_ne eq]
    exact entry

/-- After the test for reading the slot is to be tested for writing. -/
theorem Loop.Inv.reading_done (inv : s.Inv) (reading : s.stage = .reading)
    (mCur : s.mCur = some cur) {s' : Loop} (placed : s'.Placed) (cap : s'.mCap = s.mCap)
    (size : s'.mSize = s.mSize) (mCur' : s'.mCur = some cur) (stage : s'.stage = .writing)
    (kept : s'.mCurdel = false) (saved : s'.saved = s.saved)
    (fresh : ∀ k < s.mSize, cur < k → ∀ type, s'.Fresh k type)
    (here : s'.Fresh cur .write) : s'.Inv := by
  rcases inv.reading reading with ⟨-, -, lt⟩
  constructor
  · exact placed
  · intro cur' found
    rw [cap]
    rw [mCur'] at found
    cases found
    exact inv.cap cur mCur
  · rw [mCur']
    exact nofun
  · rw [stage]
    exact nofun
  · rw [stage]
    exact nofun
  · intro _
    rw [saved]
    exact inv.saved (.inl reading)
  · rintro k lt ⟨cur', found, place⟩ type
    rw [size] at lt
    rw [mCur'] at found
    cases found
    refine fresh k lt (place.resolve_right ?_) type
    rintro ⟨-, again | deleted⟩
    · rw [stage] at again
      contradiction
    · rw [kept] at deleted
      contradiction
  · rintro - cur' found -
    rw [mCur'] at found
    cases found
    exact here
  · rintro - cur' found le
    rw [mCur'] at found
    cases found
    rw [size] at le
    exact absurd (lt cur mCur) (Nat.not_lt_of_le le)

/-- After the test for writing the slot is left. -/
theorem Loop.Inv.writing_done (inv : s.Inv) (writing : s.stage = .writing) {s' : Loop}
    (placed : s'.Placed) (cap : s'.mCap = s.mCap) (size : s'.mSize = s.mSize)
    (mCur : s'.mCur = s.mCur) (stage : s'.stage = .ending) (kept : s'.mCurdel = s.mCurdel)
    (fresh : ∀ k < s.mSize, s.ahead k → ∀ type, s'.Fresh k type) : s'.Inv := by
  constructor
  · exact placed
  · rw [cap, mCur]
    exact inv.cap
  · intro none
    rw [mCur] at none
    rw [(inv.outside none).1] at writing
    contradiction
  · rw [stage]
    exact nofun
  · rw [stage]
    exact nofun
  · rintro (again | ⟨again, -⟩)
    · rw [stage] at again
      contradiction
    · rw [stage] at again
      contradiction
  · rintro k lt ⟨cur, found, place⟩ type
    rw [size] at lt
    rw [mCur] at found
    refine fresh k lt ⟨cur, found, place.imp_right ?_⟩ type
    rintro ⟨same, again | deleted⟩
    · rw [stage] at again
      contradiction
    · rw [kept] at deleted
      exact ⟨same, .inr deleted⟩
  · rintro ⟨again, -⟩
    rw [stage] at again
    contradiction
  · rintro ⟨again, -⟩
    rw [stage] at again
    contradiction

/-- The callback that a step of the loop calls is due. -/
def Loop.CallsDue (s s' : Loop) : Prop := ∀ c, s'.calling = some c → s.book.Due c

theorem testRead_wp (inv : s.Inv) (reading : s.stage = .reading) (mCur : s.mCur = some cur) :
    (testRead cur).wp strict [] (fun _ s' => s'.Inv ∧ s.CallsDue s') s := by
  rcases inv.reading reading with ⟨kept, returned, lt⟩
  have lt : cur < s.mSize := lt cur mCur
  have fresh : ∀ k < s.mSize, cur ≤ k → ∀ type, s.Fresh k type := by
    intro k lt' le
    refine inv.fresh k lt' ⟨cur, mCur, ?_⟩
    exact (Nat.lt_or_eq_of_le le).imp_right fun same => ⟨same, .inl reading⟩
  have next : ({ s with stage := .writing } : Loop).Placed :=
    inv.placed.congr rfl rfl rfl rfl rfl (Nat.le_refl _)
  unfold testRead
  rw [wp_bind, wp_modify, wp_bind, wp_get, wp_when]
  split
  case isTrue wants =>
    rw [wp_modify]
    constructor
    · refine inv.reading_done reading mCur next.dispatch rfl rfl mCur rfl kept rfl ?_ ?_
      · intro k lt' less type
        refine Loop.Fresh.dispatch (fresh k lt' (Nat.le_of_lt less) type) (.inl fun same => ?_)
        exact Nat.ne_of_gt less (inv.placed.eq_of_ev lt' lt same)
      · exact Loop.Fresh.dispatch (fresh cur lt (Nat.le_refl _) .write) (.inr nofun)
    · rintro c ⟨⟩
      rcases inv.placed.slots cur lt with ⟨_, slot⟩
      exact (fresh cur lt (Nat.le_refl _) .read).due slot wants
  case isFalse =>
    constructor
    · exact inv.reading_done reading mCur next rfl rfl mCur rfl kept rfl
        (fun k lt' less => fresh k lt' (Nat.le_of_lt less)) (fresh cur lt (Nat.le_refl _) .write)
    · intro c calls
      have calls : s.calling = some c := calls
      rw [returned] at calls
      contradiction

theorem testWrite_wp (inv : s.Inv) (writing : s.stage = .writing) (mCur : s.mCur = some cur)
    (returned : s.calling = none) :
    (testWrite cur).wp strict [] (fun _ s' => s'.Inv ∧ s.CallsDue s') s := by
  have next : ({ s with stage := .ending } : Loop).Placed :=
    inv.placed.congr rfl rfl rfl rfl rfl (Nat.le_refl _)
  have silent : s.CallsDue { s with stage := .ending } := by
    intro c calls
    have calls : s.calling = some c := calls
    rw [returned] at calls
    contradiction
  have left : ({ s with stage := .ending } : Loop).Inv :=
    inv.writing_done writing next rfl rfl rfl rfl rfl inv.fresh
  unfold testWrite
  rw [wp_bind, wp_modify, wp_bind, wp_get, wp_when]
  split
  case isFalse => exact ⟨left, silent⟩
  case isTrue kept =>
    have again : s.toTestWrite := ⟨writing, kept⟩
    have due : (s.mPfds cur).wants .write → s.book.Due (s.callback cur .write) := by
      intro wants
      rcases Nat.lt_or_ge cur s.mSize with lt | beyond
      · rcases inv.placed.slots cur lt with ⟨_, slot⟩
        exact (inv.here again cur mCur lt).due slot wants
      · exact inv.left again cur mCur beyond wants
    rw [wp_bind, wp_assert, if_pos (inv.saved (.inr again)), wp_when]
    split
    case isFalse => exact ⟨left, silent⟩
    case isTrue wants =>
      rw [wp_modify]
      constructor
      · refine inv.writing_done writing next.dispatch rfl rfl rfl rfl rfl ?_
        intro k lt ahead type
        refine Loop.Fresh.dispatch (inv.fresh k lt ahead type) (.inl fun same => ?_)
        have less : cur < k := by
          rcases ahead with ⟨cur', found, place⟩
          rw [mCur] at found
          cases found
          refine place.resolve_right ?_
          rintro ⟨-, reading | deleted⟩
          · rw [writing] at reading
            contradiction
          · have kept : s.mCurdel = false := kept
            rw [kept] at deleted
            contradiction
        exact Nat.ne_of_gt less (inv.placed.eq_of_ev lt (Nat.lt_trans less lt) same)
      · rintro c ⟨⟩
        exact due wants

theorem nextSlot_wp (inv : s.Inv) (mCur : s.mCur = some cur)
    (returned : s.calling = none) :
    (nextSlot cur).wp strict [] (fun _ s' => s'.Inv ∧ s.CallsDue s') s := by
  have silent : ∀ s' k, (Loop.enter s' k).calling = s'.calling := by
    intro s' k
    unfold Loop.enter
    split <;> rfl
  unfold nextSlot
  rw [wp_modify]
  split
  case isTrue kept =>
    constructor
    · refine inv.placed.enter kept returned fun k lt le => ?_
      exact inv.fresh k lt ⟨cur, mCur, .inl le⟩
    · intro c calls
      rw [silent, returned] at calls
      contradiction
  case isFalse deleted =>
    have deleted : s.mCurdel = true := by simpa using deleted
    have placed : ({ s with mCurdel := false } : Loop).Placed :=
      inv.placed.congr rfl rfl rfl rfl rfl (Nat.le_refl _)
    constructor
    · refine placed.enter rfl returned fun k lt le => ?_
      refine inv.fresh k lt ⟨cur, mCur, ?_⟩
      exact (Nat.lt_or_eq_of_le le).imp_right fun same => ⟨same, .inr deleted⟩
    · intro c calls
      rw [silent] at calls
      have calls : s.calling = some c := calls
      rw [returned] at calls
      contradiction

/-- A callback returns. -/
theorem Loop.Inv.returned (inv : s.Inv) : ({ s with calling := none } : Loop).Inv where
  placed := inv.placed.congr rfl rfl rfl rfl rfl (Nat.le_refl _)
  cap := inv.cap
  outside := fun none => ⟨(inv.outside none).1, (inv.outside none).2.1, rfl⟩
  inside := inv.inside
  reading := fun reading => ⟨(inv.reading reading).1, rfl, (inv.reading reading).2.2⟩
  saved := inv.saved
  fresh := inv.fresh
  here := inv.here
  left := inv.left

theorem turn_wp (inv : s.Inv) :
    turn.wp strict [] (fun _ s' => s'.Inv ∧ s.CallsDue s') s := by
  have inv' := inv.returned
  unfold turn
  rw [wp_bind, wp_modify, wp_bind, wp_get]
  split
  case h_1 cur mCur reading => exact testRead_wp inv' reading mCur
  case h_2 cur mCur writing => exact testWrite_wp inv' writing mCur rfl
  case h_3 cur mCur _ => exact nextSlot_wp inv' mCur rfl
  case h_4 => exact wp_pure.mpr ⟨inv', nofun⟩

/-! ## The calls of a callback -/

/-- The contract of a pass in which nothing in `stale` happens. -/
def cleanPass : Contract Loop LoopCall LoopFault := ⟨stale, fun _ => False⟩

theorem pollGrow_wp {callers : List LoopCall} (inv : s.Inv) (free : s.Free) (g : Growth)
    (full : s.mSize = s.mCap) :
    (pollGrow g).wp cleanPass callers (fun error s' => s'.Inv ∧ s'.Free ∧ s'.book = s.book ∧
      (error = 0 → s'.mSize < s'.mCap)) s := by
  have enlarged : s.mSize < s.mCap * 2 := by
    have := inv.placed.pos
    omega
  unfold pollGrow
  rw [wp_bind, wp_when]
  split
  case isTrue =>
    rw [wp_call]
    by_cases used : s.toTestWrite
    · exact .inl used
    right
    have inv' : (s.moved g).Inv := inv.moved g free used
    rw [wp_modify]
    split
    · exact wp_pure.mpr ⟨inv', free, rfl, fun zero => absurd zero (by decide)⟩
    · rw [wp_bind, wp_modify]
      exact wp_pure.mpr ⟨inv'.grown, free, rfl, fun _ => enlarged⟩
  case isFalse =>
    split
    · exact wp_pure.mpr ⟨inv, free, rfl, fun zero => absurd zero (by decide)⟩
    · rw [wp_bind, wp_modify]
      exact wp_pure.mpr ⟨inv.grown, free, rfl, fun _ => enlarged⟩

theorem growIfFull_wp {callers : List LoopCall} (inv : s.Inv) (free : s.Free) (g : Growth) :
    (growIfFull g).wp cleanPass callers (fun error s' => s'.Inv ∧ s'.Free ∧ s'.book = s.book ∧
      (error = 0 → s'.mSize < s'.mCap)) s := by
  unfold growIfFull
  rw [wp_bind, wp_get]
  split
  case isTrue full => exact pollGrow_wp inv free g full
  case isFalse room =>
    exact wp_pure.mpr ⟨inv, free, rfl, fun _ => Nat.lt_of_le_of_ne inv.placed.size room⟩

theorem fdevNew_wp {fd : Int} {flags : EvFlags} {cb arg : Nat} {g : Growth} (inv : s.Inv)
    (free : s.Free) (unknown : s.book ev = none) :
    (fdevNew ev fd flags cb arg g).wp cleanPass [] (fun _ s' => s'.Inv) s := by
  unfold fdevNew
  refine wp_seq (growIfFull_wp inv free g) ?_
  rintro error s' ⟨inv', free', book, room⟩
  split
  case isTrue => exact wp_pure.mpr inv'
  case isFalse done =>
    have done : error = 0 := not_not.mp done
    rw [wp_bind, wp_call]
    by_cases clean : s'.toTest s'.mSize → (s'.mPfds s'.mSize).revents = .none
    · right
      rw [wp_modify]
      exact wp_pure.mpr (inv'.take free' (by rw [book, unknown]) (room done) clean)
    · exact .inl (Classical.not_imp.mp clean)

theorem fdevDel_wp (inv : s.Inv) (free : s.Free) (known : s.book ev = some e) :
    (fdevDel ev).wp cleanPass [] (fun _ s' => s'.Inv) s := by
  unfold fdevDel
  rw [wp_call]
  by_cases left : s.leftBehind ev
  · exact .inl left
  right
  rw [wp_bind, wp_get, wp_bind, wp_assert, if_pos (inv.placed.index ev e known).1, wp_modify]
  exact inv.drop free known left

theorem fdevEnable_wp {flags : EvFlags} (inv : s.Inv) (free : s.Free)
    (known : s.book ev = some e) :
    (fdevEnable ev flags).wp cleanPass [] (fun _ s' => s'.Inv) s := by
  refine wp_modify.mpr (inv.setEvents free known fun _ flags' write => ?_)
  exact Bool.or_eq_true_iff.mpr (.inl write)

theorem fdevDisable_wp {flags : EvFlags} (inv : s.Inv) (free : s.Free)
    (known : s.book ev = some e) :
    (fdevDisable ev flags).wp cleanPass [] (fun _ s' => s'.Inv) s := by
  unfold fdevDisable
  rw [wp_call]
  by_cases off : s.leftBehind ev ∧ flags.write
  · exact .inl off
  right
  rw [wp_modify]
  refine inv.setEvents free known fun left flags' write => ?_
  have stays : flags.write = false := by
    rw [not_and] at off
    simpa using off left
  have eq : (flags'.without flags).write = (flags'.write && !flags.write) := rfl
  rw [eq, write, stays]
  rfl

theorem op_wp (inv : s.Inv) (free : s.Free) {op : Op} (sound : op.Sound s.book) :
    op.run.wp cleanPass [] (fun _ s' => s'.Inv) s := by
  cases op with
  | new ev fd flags cb arg g =>
      refine wp_seq (fdevNew_wp inv free (Option.isNone_iff_eq_none.mp sound)) ?_
      rintro error s' inv'
      exact wp_pure.mpr inv'
  | del ev =>
      rcases Option.isSome_iff_exists.mp sound with ⟨e, known⟩
      exact fdevDel_wp inv free known
  | enable ev flags =>
      rcases Option.isSome_iff_exists.mp sound with ⟨e, known⟩
      exact fdevEnable_wp inv free known
  | disable ev flags =>
      rcases Option.isSome_iff_exists.mp sound with ⟨e, known⟩
      exact fdevDisable_wp inv free known

/-! ## Runs -/

theorem loopHandle_wp (inv : s.Inv) (event : LoopEvent) :
    (loopHandle event).wp cleanPass [] (fun _ s' => s'.Inv) s := by
  cases event with
  | call op =>
      refine wp_bind.mpr (wp_get.mpr ?_)
      rw [wp_when]
      split
      case isTrue may => exact op_wp inv may.1 may.2
      case isFalse => exact inv
  | poll r =>
      refine wp_bind.mpr (wp_get.mpr ?_)
      rw [wp_when]
      split
      case isTrue outside =>
        rw [wp_modify]
        rcases inv.outside (inv.inside outside) with ⟨-, kept, returned⟩
        exact inv.placed.polled.enter kept returned fun k lt _ _ => inv.placed.fresh_polled lt
      case isFalse => exact inv
  | turn => exact wp_mono (wp_of_strict (turn_wp inv)) fun _ _ held => held.1

theorem inv_of_loopInit (init : s.Init) : s.Inv where
  placed := by
    refine ⟨fun k lt => ?_, fun ev e entry => ?_, ?_, ?_⟩
    · rw [init.mSize] at lt
      contradiction
    · rw [init.book] at entry
      contradiction
    · rw [init.mSize]
      exact Nat.zero_le _
    · rw [init.mCap]
      decide
  cap := by
    rw [init.mCur]
    exact nofun
  outside := fun _ => ⟨init.stage, init.mCurdel, init.calling⟩
  inside := fun _ => init.mCur
  reading := by
    rw [init.stage]
    exact nofun
  saved := by
    rintro (reading | ⟨writing, -⟩)
    · rw [init.stage] at reading
      contradiction
    · rw [init.stage] at writing
      contradiction
  fresh := by
    intro k lt
    rw [init.mSize] at lt
    contradiction
  here := by
    rintro ⟨writing, -⟩
    rw [init.stage] at writing
    contradiction
  left := by
    rintro ⟨writing, -⟩
    rw [init.stage] at writing
    contradiction

theorem inv_of_passes (reached : pollLoop.Reachable stale s) : s.Inv :=
  reached.invariant _ (fun _ => False) (fun _ => inv_of_loopInit) fun _ event _ inv =>
    loopHandle_wp inv event

/-- In every run without one of the calls in `stale`, no saved pointer is used after its
array has been moved, no assertion fails, and each callback that the loop calls is due: its
descriptor is registered since before `poll` returned, `poll` has reported the type for it,
the type is enabled, and there was no callback for the type in this pass. -/
theorem due_of_passes (reached : pollLoop.Reachable stale s) :
    (∀ event fault, ¬pollLoop.Faults stale s event fault) ∧
      ∀ s' c, pollLoop.Steps stale s .turn s' → s'.calling = some c → s.book.Due c := by
  have inv := inv_of_passes reached
  constructor
  · intro event fault faults
    have none : (fun _ : LoopFault => False) fault := reached.fault_allowed
      (fun _ => inv_of_loopInit) (fun _ event _ inv => loopHandle_wp inv event) faults
    exact none
  · intro s' c steps calling
    have met := wp_of_strict (k := cleanPass) (turn_wp inv)
    exact (steps.of_wp met).2 c calling

/-- `evloop_init` with no results in the arrays. -/
def Loop.init : Loop where
  mPfds _ := ⟨0, ⟨false, false⟩, .none⟩
  mPevs _ := ⟨0, 0, 0⟩
  index _ := 0
  mCap := 64
  mSize := 0
  mCur := none
  mCurdel := false
  stage := .outside
  saved := false
  calling := none
  book _ := none

theorem reachable_init (bad : Call Loop LoopCall → Prop) : pollLoop.Reachable bad .init :=
  .start ⟨rfl, rfl, rfl, rfl, rfl, rfl, fun _ => rfl, fun _ _ => rfl⟩

/-- No memory is asked for. -/
def Growth.none : Growth := ⟨.none, .none⟩

/-- Two descriptors are registered for reading, and `poll` finds both readable. -/
def twoReadable : List LoopEvent :=
  [.call (.new 1 11 ⟨true, false⟩ 0 0 .none), .call (.new 2 12 ⟨true, false⟩ 0 0 .none),
    .poll fun _ => ⟨true, false, false, false⟩]

/-- The first callback deletes its own descriptor, so that the second one is moved to the
slot under way, and is called from there. -/
theorem due_of_passes_ownDescriptor :
    ∃ s s' : Loop, pollLoop.Reachable stale s ∧
      s'.calling = some ⟨2, 12, .read, 0, 0⟩ ∧ s.book.Due ⟨2, 12, .read, 0, 0⟩ := by
  obtain ⟨s, s', reached, steps, calling⟩ := System.Reachable.of_after_step
    (P := fun _ s' : Loop => s'.calling = some ⟨2, 12, .read, 0, 0⟩)
    (twoReadable ++ [.turn, .call (.del 1), .turn, .turn]) .turn
    (reachable_init stale) (by decide +kernel)
  exact ⟨s, s', reached, calling, (due_of_passes reached).2 s' _ steps calling⟩

/-- The first callback deletes the second descriptor and creates a third one, which gets the
slot with the results of the second.  The pass calls it. -/
theorem not_due_of_passes :
    ¬∀ s, pollLoop.Reachable (fun _ => False) s →
      (∀ event fault, ¬pollLoop.Faults (fun _ => False) s event fault) ∧
        ∀ s' c, pollLoop.Steps (fun _ => False) s .turn s' → s'.calling = some c →
          s.book.Due c := by
  intro all
  obtain ⟨s, s', reached, steps, calling, created⟩ := System.Reachable.of_after_step
    (P := fun s s' : Loop => s'.calling = some ⟨3, 13, .read, 0, 0⟩ ∧
      ((s.book 3).bind Entry.polled).isNone = true)
    (twoReadable ++ [.turn, .call (.del 2), .call (.new 3 13 ⟨true, false⟩ 0 0 .none), .turn,
      .turn]) .turn (reachable_init fun _ => False) (by decide +kernel)
  rcases (all s reached).2 s' _ steps calling with ⟨e, entry, -, -, -, r, polled, -⟩
  simp only [entry, Option.bind_some, polled] at created
  contradiction

end Btpd.Evloop
