import Btpd.Buffers.Iobuf
import Mathlib

/-!
# A buffer is a queue of bytes

Whatever is called and whatever the allocator answers, a buffer shows the bytes that were
appended and not consumed, as long as no sum of sizes wraps around on its way to `realloc`
and `vsnprintf` gives a text whose length and the zero behind it an `int` can count.
-/

namespace Btpd.Buffers

open Benc (wordSize)
open Prog (Ends ends_ok ends_error ends_bind ends_mono ends_allow)

/-! ## What is promised -/

/-- The bytes are the `off` bytes at `buf`. -/
structure Iobuf.Shows (iob : Iobuf) (bytes : List UInt8) : Prop where
  off : iob.off = bytes.length
  buf : bytes <+: iob.block.bytes.drop iob.buf

/-- There are `count` bytes of the allocation behind the buffered ones. -/
def Iobuf.Room (iob : Iobuf) (count : Nat) : Prop :=
  iob.buf + iob.off + count ≤ iob.block.bytes.length

/-- What a call means for the buffered bytes. -/
def Done.effect (done : Done) : Queue.Change UInt8 :=
  if done.answer then
    match done.call with
    | .write data _ => .put data
    | .print text _ => .put ((formatted text).getD [])
    | .accommodate _ _ => .put []
    | .consumed count => .take count
  else .fail

/-- The bytes that the calls have appended, without the consumed ones. -/
def unconsumed (done : List Done) : List UInt8 :=
  (Queue.putIn (done.map Done.effect)).drop (Queue.takenOut (done.map Done.effect))

/-- What is promised of a call behind the calls `done`, of which some had `failed`. -/
structure Promised (failed : Prop) (done : List Done) (iob : Iobuf) (c : Call)
    (iob' : Iobuf) (answer : Bool) : Prop where
  shows : iob'.Shows (unconsumed (done ++ [⟨c, answer⟩]))
  inside : iob'.skip + iob'.off ≤ iob'.size
  room : ∀ count grant, c = .accommodate count grant → answer = true → iob'.Room count
  unchanged : answer = false → ∀ bytes, iob.Shows bytes → iob'.Shows bytes
  stays : failed → answer = false

/-- What is promised of a buffer that `iobuf_init` makes and of the calls with it.  A call
returns, unless the assertion of `iobuf_consumed` stops the program. -/
structure Correct (size : Size) (grant : Grant) (calls : List Call) : Prop where
  shows : (iobufInit size grant).Shows []
  inside : (iobufInit size grant).skip + (iobufInit size grant).off ≤
    (iobufInit size grant).size
  call : ∀ before c later, calls = before ++ c :: later →
    ∀ iob done, run (iobufInit size grant) before = .ok (iob, done) →
      Ends (· = .assertion) (call iob c) fun r =>
        Promised (grant = none ∨ ∃ d ∈ done, d.answer = false) done iob c r.1 r.2

/-! ## When it holds -/

/-- The sum of the sizes wraps around on its way to `realloc`, which then gives too little
or, when nothing is left of the sum, frees the buffered bytes. -/
def Overruns (iob : Iobuf) (count : Nat) (grant : Grant) : Prop :=
  iob.size < iob.off + count ∧ wordSize ≤ iob.size + count ∧
    (grant ≠ none ∨ iob.size + count = wordSize ∧ 0 < iob.off)

/-- The call does not run into the sizes of its integers. -/
def Fits (iob : Iobuf) (c : Call) : Prop :=
  iob.error = true ∨
    match c with
    | .write data grant => ¬ Overruns iob data.1.length grant
    | .print text grant =>
        ∃ printed, formatted text = some printed ∧ printed.length < INT_MAX ∧
          ¬ Overruns iob (printed.length + 1) grant
    | .accommodate count grant => ¬ Overruns iob count grant
    | .consumed _ => True

/-- Every call of the run does. -/
def Sound (size : Size) (grant : Grant) (calls : List Call) : Prop :=
  ∀ before c later, calls = before ++ c :: later →
    ∀ iob done, run (iobufInit size grant) before = .ok (iob, done) → Fits iob c

/-! ## The invariant -/

/-- The buffer stands for the queue. -/
structure Represents (iob : Iobuf) (queue : Queue UInt8) : Prop where
  shows : iob.Shows queue.pending
  failed : iob.error = queue.failed
  inside : iob.skip + iob.off ≤ iob.size
  word : iob.size < wordSize
  whole : iob.error = false →
    ∃ bytes, iob.block = .live bytes ∧ bytes.length = iob.size ∧ iob.buf = iob.skip

/-- A new buffer is empty. -/
theorem represents_init (size : Size) (grant : Grant) :
    Represents (iobufInit size grant) ⟨[], grant.isNone⟩ := by
  constructor
  · exact ⟨rfl, List.nil_prefix⟩
  · rfl
  · exact Nat.zero_le _
  · exact size.isLt
  · intro granted
    cases grant with
    | none => cases granted
    | some fresh =>
        refine ⟨_, rfl, ?_, rfl⟩
        rw [List.length_map, List.length_range]
        rfl

section Call

variable {iob : Iobuf} {queue : Queue UInt8} {count : Nat} {grant : Grant} {c : Call}

theorem plus_eq {m n : Nat} (small : m + n < wordSize) : plus m n = m + n :=
  Nat.mod_eq_of_lt small

/-- A sum that wraps around. -/
theorem plus_wrapped {m n : Nat} (wraps : wordSize ≤ m + n) (once : m + n < wordSize + wordSize) :
    plus m n = m + n - wordSize := by
  rw [plus, Nat.mod_eq_sub_mod wraps, Nat.mod_eq_of_lt (by omega)]

theorem minus_eq {m n : Nat} (le : n ≤ m) (small : m < wordSize) : minus m n = m - n := by
  unfold minus wordSize at *
  omega

theorem toSize_natCast {n : Nat} (small : n < wordSize) : toSize n = n := by
  unfold toSize wordSize at *
  omega

/-- The start of the allocation is found again. -/
theorem Represents.start_eq (rep : Represents iob queue) (works : iob.error = false) :
    iob.start = .ok 0 := by
  rcases rep.whole works with ⟨bytes, -, -, bufEq⟩
  rw [Iobuf.start, bufEq, if_pos (Nat.le_refl _), Nat.sub_self]

/-- The room that is left in the allocation. -/
theorem Represents.esize_eq (rep : Represents iob queue) :
    minus iob.size (plus iob.skip iob.off) = iob.size - (iob.skip + iob.off) := by
  have inside := rep.inside
  have word := rep.word
  rw [plus_eq (by omega), minus_eq inside word]

/-- The room that shifting leaves. -/
theorem Represents.shifted_eq (rep : Represents iob queue) :
    plus (minus iob.size (plus iob.skip iob.off)) iob.skip = iob.size - iob.off := by
  have inside := rep.inside
  have word := rep.word
  rw [rep.esize_eq, plus_eq (by omega)]
  omega

/-- A buffer with an error has failed and fails again. -/
theorem Represents.fail (rep : Represents iob queue) (error : iob.error = true) :
    Represents iob (queue.change .fail) := by
  have failed : queue.failed = true := rep.failed.symm.trans error
  have same : queue.change .fail = queue := by
    rw [Queue.change, ← failed]
  rw [same]
  exact rep

/-! ## Making room -/

/-- The buffer with its bytes shifted to the start of the allocation. -/
def Iobuf.shifted (iob : Iobuf) (bytes : List UInt8) : Iobuf :=
  { iob with
    block := .live (overwrite bytes 0 (window bytes iob.buf iob.off))
    buf := 0
    skip := 0 }

/-- The buffer in a new allocation. -/
def Iobuf.moved (iob : Iobuf) (bytes : List UInt8) (size : Nat) (fresh : Nat → UInt8) : Iobuf :=
  { iob with
    block := .live ((bytes ++ (List.range size).map fresh).take size)
    buf := iob.skip
    size := size }

/-- The buffer for which there was no memory. -/
def Iobuf.denied (iob : Iobuf) (size : Nat) : Iobuf :=
  { iob with
    block := if size = 0 then .freed else iob.block
    error := true }

theorem off_denied {size : Nat} : (iob.denied size).off = iob.off :=
  rfl

theorem bind_ok {α β : Type} (a : α) (f : α → Except Fault β) : (Except.ok a >>= f) = f a :=
  rfl

/-- The three ways to make room. -/
theorem iobufAccommodate_eq {bytes : List UInt8} (rep : Represents iob queue)
    (works : iob.error = false) (blockEq : iob.block = .live bytes) :
    iobufAccommodate iob count grant =
      if count ≤ iob.size - (iob.skip + iob.off) then .ok (iob, true)
      else if count ≤ iob.size - iob.off then .ok (iob.shifted bytes, true)
      else .ok (match grant with
        | some fresh => (iob.moved bytes (plus iob.size count) fresh, true)
        | none => (iob.denied (plus iob.size count), false)) := by
  rcases rep.whole works with ⟨bytes', blockEq', lengthEq, bufEq⟩
  cases blockEq.symm.trans blockEq'
  have inside := rep.inside
  have readable : iob.buf + iob.off ≤ bytes.length := by omega
  have shorter : (window bytes iob.buf iob.off).length = iob.off := by
    rw [window, List.length_take, List.length_drop]
    omega
  have fitting : 0 + (window bytes iob.buf iob.off).length ≤ bytes.length := by omega
  unfold iobufAccommodate
  rw [if_neg (Bool.eq_false_iff.mp works)]
  simp only [rep.shifted_eq]
  simp only [rep.esize_eq, rep.start_eq works, bind_ok, blockEq, Block.load, if_pos readable,
    Block.store, if_pos fitting, realloc]
  cases grant with
  | some fresh => rfl
  | none => simp [Iobuf.denied, Iobuf.shifted, bind_ok, blockEq]

/-- What an accommodation leaves. -/
structure Accommodated (queue : Queue UInt8) (count : Nat) (iob' : Iobuf) (answer : Bool) :
    Prop where
  granted : answer = true → Represents iob' queue ∧ iob'.error = false ∧ iob'.Room count
  refused : answer = false → Represents iob' (queue.change .fail)

theorem accommodated_of_granted {iob' : Iobuf} (rep : Represents iob' queue)
    (works : iob'.error = false) (room : iob'.Room count) :
    Accommodated queue count iob' true :=
  ⟨fun _ => ⟨rep, works, room⟩, fun no => absurd no (by decide)⟩

section Whole

variable {bytes : List UInt8} (rep : Represents iob queue) (works : iob.error = false)
  (blockEq : iob.block = .live bytes)

include rep works blockEq

/-- Shifting keeps the buffered bytes. -/
theorem shifted_spec (shift : count ≤ iob.size - iob.off) :
    Accommodated queue count (iob.shifted bytes) true := by
  rcases rep.whole works with ⟨bytes', blockEq', lengthEq, bufEq⟩
  cases blockEq.symm.trans blockEq'
  rcases rep.shows with ⟨offEq, begins⟩
  rw [blockEq] at begins
  have inside := rep.inside
  have data : window bytes iob.buf iob.off = queue.pending := by
    rw [offEq]
    exact window_of_prefix begins
  have fitting : 0 + queue.pending.length ≤ bytes.length := by omega
  have blockNow : (iob.shifted bytes).block = .live (overwrite bytes 0 queue.pending) := by
    rw [Iobuf.shifted, data]
  have lengthNow : (overwrite bytes 0 queue.pending).length = iob.size :=
    (length_overwrite fitting).trans lengthEq
  apply accommodated_of_granted
  · constructor
    · refine ⟨offEq, ?_⟩
      rw [blockNow]
      exact prefix_overwrite fitting
    · exact rep.failed
    · exact Nat.le_trans (Nat.add_le_add_right (Nat.zero_le _) _) inside
    · exact rep.word
    · exact fun _ => ⟨_, blockNow, lengthNow, rfl⟩
  · exact works
  · rw [Iobuf.Room, blockNow, Block.bytes, lengthNow]
    show 0 + iob.off + count ≤ iob.size
    omega

/-- A larger allocation keeps the buffered bytes. -/
theorem moved_spec (fresh : Nat → UInt8) (small : iob.size + count < wordSize) :
    Accommodated queue count (iob.moved bytes (iob.size + count) fresh) true := by
  rcases rep.whole works with ⟨bytes', blockEq', lengthEq, bufEq⟩
  cases blockEq.symm.trans blockEq'
  rcases rep.shows with ⟨offEq, begins⟩
  rw [blockEq, bufEq] at begins
  have inside := rep.inside
  have lengthNow : ((bytes ++ (List.range (iob.size + count)).map fresh).take
      (iob.size + count)).length = iob.size + count := by
    rw [List.length_take, List.length_append, List.length_map, List.length_range]
    omega
  have kept : bytes <+: (bytes ++ (List.range (iob.size + count)).map fresh).take
      (iob.size + count) := by
    rw [List.prefix_take_iff]
    exact ⟨List.prefix_append _ _, by omega⟩
  apply accommodated_of_granted
  · constructor
    · exact ⟨offEq, begins.trans (prefix_drop kept)⟩
    · exact rep.failed
    · exact Nat.le_trans inside (Nat.le_add_right _ _)
    · exact small
    · exact fun _ => ⟨_, rfl, lengthNow, rfl⟩
  · exact works
  · rw [Iobuf.Room, Iobuf.moved, Block.bytes, lengthNow]
    show iob.skip + iob.off + count ≤ iob.size + count
    omega

omit works blockEq in
/-- Without memory the buffered bytes stay where they are. -/
theorem denied_spec {size : Nat} (kept : size ≠ 0 ∨ iob.off = 0) :
    Accommodated queue count (iob.denied size) false := by
  constructor
  · exact fun no => absurd no Bool.false_ne_true
  · intro _
    constructor
    · refine ⟨rep.shows.off, ?_⟩
      rcases kept with some | empty
      · rw [Iobuf.denied, if_neg some]
        exact rep.shows.buf
      · have nothing : queue.pending = [] :=
          List.eq_nil_of_length_eq_zero (rep.shows.off.symm.trans empty)
        show queue.pending <+: _
        rw [nothing]
        exact List.nil_prefix
    · rfl
    · exact rep.inside
    · exact rep.word
    · exact fun works => absurd works (by simp [Iobuf.denied])

end Whole

/-- An accommodation that does not overrun keeps the buffered bytes. -/
theorem accommodate_spec (rep : Represents iob queue) (small : count < wordSize)
    (fits : iob.error = true ∨ ¬ Overruns iob count grant) :
    Ends (fun _ => False) (iobufAccommodate iob count grant) fun r =>
      Accommodated queue count r.1 r.2 ∧ (iob.error = true → r.2 = false) := by
  by_cases error : iob.error = true
  · rw [iobufAccommodate, if_pos error, ends_ok]
    exact ⟨⟨fun yes => absurd yes Bool.false_ne_true, fun _ => rep.fail error⟩, fun _ => rfl⟩
  · have works : iob.error = false := Bool.eq_false_iff.mpr error
    have fits' : ¬ Overruns iob count grant := fits.resolve_left error
    have never : ∀ answer : Bool, iob.error = true → answer = false := fun _ yes => absurd yes error
    rcases rep.whole works with ⟨bytes, blockEq, lengthEq, bufEq⟩
    have inside := rep.inside
    have word := rep.word
    rw [iobufAccommodate_eq rep works blockEq]
    by_cases enough : count ≤ iob.size - (iob.skip + iob.off)
    · rw [if_pos enough, ends_ok]
      refine ⟨accommodated_of_granted rep works ?_, never _⟩
      show iob.Room count
      rw [Iobuf.Room, blockEq, Block.bytes, lengthEq, bufEq]
      omega
    · rw [if_neg enough]
      by_cases shift : count ≤ iob.size - iob.off
      · rw [if_pos shift, ends_ok]
        exact ⟨shifted_spec rep works blockEq shift, never _⟩
      · rw [if_neg shift, ends_ok]
        refine ⟨?_, never _⟩
        have short : iob.size < iob.off + count := by omega
        cases grant with
        | some fresh =>
            have noWrap : iob.size + count < wordSize := by
              rcases Nat.lt_or_ge (iob.size + count) wordSize with noWrap | wraps
              · exact noWrap
              · exact absurd ⟨short, wraps, .inl (by simp)⟩ fits'
            rw [plus_eq noWrap]
            exact moved_spec rep works blockEq fresh noWrap
        | none =>
            apply denied_spec rep
            rcases Nat.eq_zero_or_pos iob.off with empty | full
            · exact .inr empty
            · left
              intro zero
              apply fits'
              have total : iob.size + count = wordSize := by
                unfold plus wordSize at *
                omega
              exact ⟨short, Nat.le_of_eq total.symm, .inr ⟨total, full⟩⟩

/-! ## Single calls -/

/-- Writing into the room appends to the queue.  Bytes may follow that do not count. -/
theorem store_spec (data rest : List UInt8) (rep : Represents iob queue)
    (works : iob.error = false) (room : iob.Room (data ++ rest).length) :
    Ends (fun _ => False) (iob.block.store (iob.buf + iob.off) (data ++ rest)) fun block =>
      Represents { iob with block := block, off := plus iob.off data.length }
        (queue.change (.put data)) := by
  rcases rep.whole works with ⟨bytes, blockEq, lengthEq, bufEq⟩
  rcases rep.shows with ⟨offEq, begins⟩
  have inside := rep.inside
  have word := rep.word
  have fitting : iob.buf + iob.off + (data ++ rest).length ≤ bytes.length := by
    rw [Iobuf.Room, blockEq] at room
    exact room
  have longer : data.length ≤ (data ++ rest).length := by
    rw [List.length_append]
    exact Nat.le_add_right _ _
  have offNow : plus iob.off data.length = iob.off + data.length := plus_eq (by omega)
  rw [blockEq] at begins
  rw [blockEq, Block.store, if_pos fitting, ends_ok]
  constructor
  · constructor
    · show plus iob.off data.length = (queue.pending ++ data).length
      rw [offNow, offEq, List.length_append]
    · have appended := prefix_append_overwrite begins (congrArg _ offEq.symm) fitting
      rw [← List.append_assoc] at appended
      exact (List.prefix_append _ _).trans appended
  · exact rep.failed
  · show iob.skip + plus iob.off data.length ≤ iob.size
    omega
  · exact word
  · exact fun _ => ⟨_, rfl, (length_overwrite fitting).trans lengthEq, bufEq⟩

/-- What a call that fits leaves. -/
structure Met (queue : Queue UInt8) (iob : Iobuf) (c : Call) (iob' : Iobuf) (answer : Bool) :
    Prop where
  represents : Represents iob' (queue.change (Done.effect ⟨c, answer⟩))
  taken : ∀ n, Done.effect ⟨c, answer⟩ = .take n → n ≤ queue.pending.length
  room : ∀ count grant, c = .accommodate count grant → answer = true → iob'.Room count
  stays : iob.error = true → answer = false

/-- A call that is refused. -/
theorem met_of_refused {iob' : Iobuf} (rep : Represents iob' (queue.change .fail)) :
    Met queue iob c iob' false := by
  constructor
  · exact rep
  · intro n takes
    cases takes
  · exact fun _ _ _ no => absurd no Bool.false_ne_true
  · exact fun _ => rfl

theorem met_write {data : Data} (rep : Represents iob queue)
    (fits : Fits iob (.write data grant)) :
    Ends (· = .assertion) (call iob (.write data grant)) fun r =>
      Met queue iob (.write data grant) r.1 r.2 := by
  rw [call, iobufWrite]
  by_cases error : iob.error = true
  · rw [if_pos error, ends_ok]
    exact met_of_refused (rep.fail error)
  · rw [if_neg error, ends_bind]
    apply ends_mono (ends_allow (accommodate_spec rep data.2 fits) fun _ no => no.elim)
    rintro ⟨iob', answer⟩ ⟨left, -⟩
    cases answer with
    | false =>
        simp only [Bool.false_eq_true, if_false, ends_ok]
        exact met_of_refused (left.refused rfl)
    | true =>
        rcases left.granted rfl with ⟨rep', works, room⟩
        have stored := store_spec data.1 [] rep' works (by rwa [List.append_nil])
        rw [List.append_nil] at stored
        simp only [if_true, ends_bind]
        apply ends_mono (ends_allow stored fun _ no => no.elim)
        intro block rep''
        constructor
        · exact rep''
        · intro n takes
          cases takes
        · intro count grant other
          cases other
        · exact fun yes => absurd yes error

/-- What `vsnprintf` returns for a text that it can tell. -/
theorem vsnprintf_eq {text : Option (List UInt8)} {printed : List UInt8}
    (prints : formatted text = some printed) : vsnprintf text = printed.length := by
  rw [vsnprintf, prints]

/-- The zero still fits. -/
theorem intSucc_eq {n : Nat} (short : n < INT_MAX) : intSucc n = .ok ((n + 1 : Nat) : Int) := by
  rw [intSucc, if_pos (by exact_mod_cast short)]
  rfl

/-- The whole text and the zero behind it are written. -/
theorem printedBytes_eq {text : Option (List UInt8)} {printed : List UInt8}
    (prints : formatted text = some printed) :
    printedBytes text (printed.length + 1) = printed ++ [0] := by
  rw [printedBytes, if_neg (Nat.succ_ne_zero _), prints, Nat.add_sub_cancel, Option.getD_some,
    List.take_length]

theorem lt_wordSize {n : Nat} (short : n < INT_MAX) : n + 1 < wordSize := by
  unfold INT_MAX at short
  unfold wordSize
  omega

theorem met_print {text : Option (List UInt8)} (rep : Represents iob queue)
    (fits : Fits iob (.print text grant)) :
    Ends (· = .assertion) (call iob (.print text grant)) fun r =>
      Met queue iob (.print text grant) r.1 r.2 := by
  rw [call, iobufPrint]
  by_cases error : iob.error = true
  · rw [if_pos error, ends_ok]
    exact met_of_refused (rep.fail error)
  · rcases fits.resolve_left error with ⟨printed, prints, short, enough⟩
    have small : printed.length + 1 < wordSize := lt_wordSize short
    rw [if_neg error, vsnprintf_eq prints, intSucc_eq short, bind_ok, toSize_natCast small,
      toSize_natCast (by omega), printedBytes_eq prints, ends_bind]
    apply ends_mono (ends_allow (accommodate_spec rep small (.inr enough)) fun _ no => no.elim)
    rintro ⟨iob', answer⟩ ⟨left, -⟩
    cases answer with
    | false =>
        simp only [Bool.false_eq_true, if_false, ends_ok]
        exact met_of_refused (left.refused rfl)
    | true =>
        rcases left.granted rfl with ⟨rep', works, room⟩
        have stored := store_spec printed [0] rep' works
          (by rwa [List.length_append])
        simp only [if_true, ends_bind]
        apply ends_mono (ends_allow stored fun _ no => no.elim)
        intro block rep''
        constructor
        · show Represents _ (queue.change (.put ((formatted text).getD [])))
          rw [prints]
          exact rep''
        · intro n takes
          cases takes
        · intro count grant other
          cases other
        · exact fun yes => absurd yes error

theorem met_accommodate {count : Size} (rep : Represents iob queue)
    (fits : Fits iob (.accommodate count grant)) :
    Ends (· = .assertion) (call iob (.accommodate count grant)) fun r =>
      Met queue iob (.accommodate count grant) r.1 r.2 := by
  rw [call]
  apply ends_mono (ends_allow (accommodate_spec rep count.isLt fits) fun _ no => no.elim)
  rintro ⟨iob', answer⟩ ⟨left, never⟩
  cases answer with
  | false => exact met_of_refused (left.refused rfl)
  | true =>
      rcases left.granted rfl with ⟨rep', works, room⟩
      constructor
      · show Represents iob' ⟨queue.pending ++ [], queue.failed⟩
        rw [List.append_nil]
        exact rep'
      · intro n takes
        cases takes
      · intro count' grant' same _
        cases same
        exact room
      · exact never

theorem met_consumed {count : Size} (rep : Represents iob queue) :
    Ends (· = .assertion) (call iob (.consumed count)) fun r =>
      Met queue iob (.consumed count) r.1 r.2 := by
  rw [call, iobufConsumed]
  by_cases error : iob.error = true
  · rw [if_pos error, bind_ok, error, ends_ok]
    exact met_of_refused (rep.fail error)
  · have works : iob.error = false := Bool.eq_false_iff.mpr error
    rw [if_neg error]
    by_cases within : count.val ≤ iob.off
    · rcases rep.whole works with ⟨bytes, blockEq, lengthEq, bufEq⟩
      rcases rep.shows with ⟨offEq, begins⟩
      have inside := rep.inside
      have word := rep.word
      have skipNow : plus iob.skip count = iob.skip + count := plus_eq (by omega)
      have offNow : minus iob.off count = iob.off - count := minus_eq within (by omega)
      rw [if_pos within, bind_ok, works, skipNow, offNow, ends_ok]
      constructor
      · constructor
        · constructor
          · show iob.off - count = (queue.pending.drop count).length
            rw [List.length_drop, offEq]
          · show queue.pending.drop count <+: iob.block.bytes.drop (iob.buf + count)
            rw [← List.drop_drop]
            exact prefix_drop begins
        · exact works.symm.trans rep.failed
        · show iob.skip + count + (iob.off - count) ≤ iob.size
          omega
        · exact word
        · exact fun _ => ⟨bytes, blockEq, lengthEq, congrArg (· + count.val) bufEq⟩
      · intro n takes
        cases takes
        rw [← offEq]
        exact within
      · intro count' grant' other
        cases other
      · exact fun yes => absurd yes error
    · rw [if_neg within]
      exact rfl

/-- A call that fits does to the buffer what it means for the queue. -/
theorem call_spec (rep : Represents iob queue) (fits : Fits iob c) :
    Ends (· = .assertion) (call iob c) fun r => Met queue iob c r.1 r.2 := by
  cases c with
  | write data grant => exact met_write rep fits
  | print text grant => exact met_print rep fits
  | accommodate count grant => exact met_accommodate rep fits
  | consumed count => exact met_consumed rep

/-! ## Calls that do not fit -/

/-- What an accommodation that overruns leaves: too little room, or nothing at all. -/
theorem accommodate_overruns (rep : Represents iob queue) (works : iob.error = false)
    (small : count < wordSize) (beyond : Overruns iob count grant) :
    ∃ iob' answer, iobufAccommodate iob count grant = .ok (iob', answer) ∧
      iob'.off = iob.off ∧
      (answer = true ∧ (∃ bytes, iob'.block = .live bytes ∧ bytes.length < count) ∨
        answer = false ∧ iob'.block = .freed ∧ 0 < iob.off) := by
  rcases rep.whole works with ⟨bytes, blockEq, lengthEq, bufEq⟩
  rcases beyond with ⟨short, wraps, lost⟩
  have inside := rep.inside
  have word := rep.word
  have notEnough : ¬ count ≤ iob.size - (iob.skip + iob.off) := by omega
  have notShift : ¬ count ≤ iob.size - iob.off := by omega
  have wrapped : plus iob.size count = iob.size + count - wordSize :=
    plus_wrapped wraps (by omega)
  have less : iob.size + count - wordSize < count := by omega
  have nothing : iob.size + count = wordSize → iob.size + count - wordSize = 0 := by omega
  generalize iob.size + count - wordSize = size at wrapped less nothing
  rw [iobufAccommodate_eq rep works blockEq, if_neg notEnough, if_neg notShift, wrapped]
  cases grant with
  | some fresh =>
      refine ⟨_, _, rfl, rfl, .inl ⟨rfl, _, rfl, ?_⟩⟩
      rw [List.length_take]
      omega
  | none =>
      rcases lost with granted | ⟨total, full⟩
      · exact absurd rfl granted
      · have freed : (iob.denied size).block = .freed := if_pos (nothing total)
        exact ⟨iob.denied size, false, rfl, off_denied, .inr ⟨rfl, freed, full⟩⟩

/-- Nothing is shown any more. -/
theorem not_shows_of_freed {iob' : Iobuf} {bytes : List UInt8} (freed : iob'.block = .freed)
    (full : 0 < bytes.length) : ¬ iob'.Shows bytes := by
  intro shows
  have begins := shows.buf
  rw [freed, Block.bytes, List.drop_nil, List.prefix_nil] at begins
  rw [begins] at full
  exact Nat.lt_irrefl _ full

/-- Writing into the too short block leaves it. -/
theorem store_outside {bytes data : List UInt8} {p : Nat} (short : bytes.length < data.length) :
    (Block.live bytes).store p data = .error .outOfBounds := by
  rw [Block.store, if_neg (by omega)]

/-- What the queue holds behind one more call. -/
theorem remains_concat {done : List Done} {d : Done}
    (remains : queue.Remains (done.map Done.effect))
    (allowed : ∀ n, d.effect = .take n → n ≤ queue.pending.length) :
    (queue.change d.effect).Remains ((done ++ [d]).map Done.effect) := by
  rw [List.map_append]
  exact remains.change allowed

section Breaks

variable {failed : Prop} {done : List Done}

/-- A call that frees the buffered bytes breaks the promise. -/
theorem breaks_of_freed {iob' : Iobuf} (rep : Represents iob queue) (freed : iob'.block = .freed)
    (full : 0 < iob.off) : ¬ Promised failed done iob c iob' false := by
  intro promised
  have nonempty : 0 < queue.pending.length := by
    rw [← rep.shows.off]
    exact full
  exact not_shows_of_freed freed nonempty (promised.unchanged rfl _ rep.shows)

theorem write_breaks {data : Data} (rep : Represents iob queue) (works : iob.error = false)
    (beyond : Overruns iob data.1.length grant) :
    ¬ Ends (· = .assertion) (call iob (.write data grant)) fun r =>
      Promised failed done iob (.write data grant) r.1 r.2 := by
  rcases accommodate_overruns rep works data.2 beyond with ⟨iob', answer, made, -, left⟩
  rw [call, iobufWrite, if_neg (Bool.eq_false_iff.mp works), made, bind_ok]
  rcases left with ⟨rfl, bytes, blockEq, short⟩ | ⟨rfl, freed, full⟩
  · simp only [if_true, blockEq, store_outside short]
    intro stopped
    cases stopped
  · exact breaks_of_freed rep freed full

theorem accommodate_breaks {count : Size} (rep : Represents iob queue)
    (works : iob.error = false) (beyond : Overruns iob count grant) :
    ¬ Ends (· = .assertion) (call iob (.accommodate count grant)) fun r =>
      Promised failed done iob (.accommodate count grant) r.1 r.2 := by
  rcases accommodate_overruns rep works count.isLt beyond with ⟨iob', answer, made, -, left⟩
  rw [call, made, ends_ok]
  rcases left with ⟨rfl, bytes, blockEq, short⟩ | ⟨rfl, freed, full⟩
  · intro promised
    have room := promised.room count grant rfl rfl
    rw [Iobuf.Room, blockEq, Block.bytes] at room
    omega
  · exact breaks_of_freed rep freed full

/-- Without a text the buffer loses its last byte. -/
theorem print_breaks_of_none {text : Option (List UInt8)} (rep : Represents iob queue)
    (remains : queue.Remains (done.map Done.effect)) (works : iob.error = false)
    (nothing : formatted text = none) :
    ¬ Ends (· = .assertion) (call iob (.print text grant)) fun r =>
      Promised failed done iob (.print text grant) r.1 r.2 := by
  rcases rep.whole works with ⟨bytes, blockEq, lengthEq, bufEq⟩
  have inside := rep.inside
  have word := rep.word
  have room : 0 ≤ iob.size - (iob.skip + iob.off) := Nat.zero_le _
  have fitting : iob.buf + iob.off + ([] : List UInt8).length ≤ bytes.length := by
    rw [List.length_nil]
    omega
  have returned : vsnprintf text = -1 := by
    rw [vsnprintf, nothing]
  have next : intSucc (-1) = .ok 0 := rfl
  have none_ : toSize 0 = 0 := rfl
  have silent : printedBytes text 0 = [] := rfl
  rw [call, iobufPrint, if_neg (Bool.eq_false_iff.mp works), returned, next, bind_ok, none_,
    silent, iobufAccommodate_eq rep works blockEq, if_pos room, bind_ok]
  simp only [if_true, blockEq, Block.store, if_pos fitting, bind_ok, ends_ok]
  intro promised
  have off : plus iob.off (toSize (-1)) =
      (unconsumed (done ++ [⟨.print text grant, true⟩])).length := promised.shows.off
  have effect : Done.effect ⟨.print text grant, true⟩ = .put [] := by
    show Queue.Change.put ((formatted text).getD []) = .put []
    rw [nothing, Option.getD_none]
  have holds : queue.pending ++ [] = unconsumed (done ++ [⟨.print text grant, true⟩]) := by
    have kept := remains_concat (d := ⟨.print text grant, true⟩) remains fun n takes => by
      rw [effect] at takes
      cases takes
    rw [effect] at kept
    exact kept.pending
  rw [← holds, List.append_nil, ← rep.shows.off] at off
  unfold plus toSize wordSize at *
  omega

theorem print_breaks {text : Option (List UInt8)} (rep : Represents iob queue)
    (remains : queue.Remains (done.map Done.effect)) (works : iob.error = false)
    (beyond : ¬ ∃ printed, formatted text = some printed ∧ printed.length < INT_MAX ∧
      ¬ Overruns iob (printed.length + 1) grant) :
    ¬ Ends (· = .assertion) (call iob (.print text grant)) fun r =>
      Promised failed done iob (.print text grant) r.1 r.2 := by
  rcases prints : formatted text with - | printed
  · exact print_breaks_of_none rep remains works prints
  · by_cases short : printed.length < INT_MAX
    · have small : printed.length + 1 < wordSize := lt_wordSize short
      have overruns : Overruns iob (printed.length + 1) grant :=
        Classical.not_not.mp fun enough => beyond ⟨printed, prints, short, enough⟩
      rcases accommodate_overruns rep works small overruns with ⟨iob', answer, made, -, left⟩
      rw [call, iobufPrint, if_neg (Bool.eq_false_iff.mp works), vsnprintf_eq prints,
        intSucc_eq short, bind_ok, toSize_natCast small, toSize_natCast (by omega),
        printedBytes_eq prints, made, bind_ok]
      rcases left with ⟨rfl, bytes, blockEq, less⟩ | ⟨rfl, freed, full⟩
      · have outside : bytes.length < (printed ++ [0]).length := by
          rw [List.length_append]
          exact less
        simp only [if_true, blockEq, store_outside outside]
        intro stopped
        cases stopped
      · exact breaks_of_freed rep freed full
    · have overflows : intSucc printed.length = .error .overflow := by
        rw [intSucc, if_neg (by exact_mod_cast short)]
      rw [call, iobufPrint, if_neg (Bool.eq_false_iff.mp works), vsnprintf_eq prints, overflows]
      intro stopped
      cases stopped

/-- A call that does not fit breaks the promise. -/
theorem call_breaks (rep : Represents iob queue)
    (remains : queue.Remains (done.map Done.effect)) (beyond : ¬ Fits iob c) :
    ¬ Ends (· = .assertion) (call iob c) fun r => Promised failed done iob c r.1 r.2 := by
  have works : iob.error = false := by
    rcases Bool.eq_false_or_eq_true iob.error with error | works
    · exact absurd (.inl error) beyond
    · exact works
  cases c with
  | write data grant =>
      exact write_breaks rep works (Classical.not_not.mp fun enough => beyond (.inr enough))
  | print text grant => exact print_breaks rep remains works fun fits => beyond (.inr fits)
  | accommodate count grant =>
      exact accommodate_breaks rep works (Classical.not_not.mp fun enough => beyond (.inr enough))
  | consumed count => exact absurd (.inr trivial) beyond

end Breaks

end Call

/-! ## Runs -/

section Run

variable {iob iob' : Iobuf} {calls before : List Call} {done : List Done} {c : Call}
  {size : Size} {grant : Grant}

/-- The last call of a run. -/
theorem run_concat (ran : run iob (before ++ [c]) = .ok (iob', done)) :
    ∃ iob₁ done₁ answer, run iob before = .ok (iob₁, done₁) ∧
      call iob₁ c = .ok (iob', answer) ∧ done = done₁ ++ [⟨c, answer⟩] := by
  induction before generalizing iob done with
  | nil =>
      rw [List.nil_append, run] at ran
      rcases called : call iob c with fault | ⟨iob₁, answer⟩
      · rw [called] at ran
        cases ran
      · rw [called, bind_ok] at ran
        cases ran
        exact ⟨iob, [], answer, rfl, called, rfl⟩
  | cons c' before ih =>
      rw [List.cons_append, run] at ran
      rcases called : call iob c' with fault | ⟨iob₁, answer⟩
      · rw [called] at ran
        cases ran
      · simp only [called, bind_ok] at ran
        rcases rest : run iob₁ (before ++ [c]) with fault | ⟨iob₂, done₂⟩
        · rw [rest] at ran
          cases ran
        · rw [rest] at ran
          cases ran
          rcases ih rest with ⟨iob₃, done₃, answer', ran', called', doneEq⟩
          refine ⟨iob₃, ⟨c', answer⟩ :: done₃, answer', ?_, called', congrArg _ doneEq⟩
          simp only [run, called, bind_ok, ran']

/-- Where a run stands: the buffer stands for a queue with everything that the calls have
done, and the failures are remembered. -/
structure Standing (grant : Grant) (done : List Done) (iob : Iobuf) (queue : Queue UInt8) :
    Prop where
  represents : Represents iob queue
  remains : queue.Remains (done.map Done.effect)
  failed : (grant = none ∨ ∃ d ∈ done, d.answer = false) → iob.error = true

theorem standing_init (size : Size) (grant : Grant) :
    Standing grant [] (iobufInit size grant) ⟨[], grant.isNone⟩ := by
  constructor
  · exact represents_init size grant
  · exact Queue.remains_nil _
  · rintro (rfl | ⟨d, mem, -⟩)
    · rfl
    · exact absurd mem List.not_mem_nil

/-- One more call. -/
theorem Standing.step {queue : Queue UInt8} {answer : Bool}
    (standing : Standing grant done iob queue) (met : Met queue iob c iob' answer) :
    Standing grant (done ++ [⟨c, answer⟩]) iob' (queue.change (Done.effect ⟨c, answer⟩)) := by
  constructor
  · exact met.represents
  · exact remains_concat standing.remains met.taken
  · intro failed
    rw [met.represents.failed]
    have refused : answer = false := by
      rcases failed with none_ | ⟨d, mem, refused⟩
      · exact met.stays (standing.failed (.inl none_))
      · rcases List.mem_append.mp mem with earlier | last
        · exact met.stays (standing.failed (.inr ⟨d, earlier, refused⟩))
        · cases List.mem_singleton.mp last
          exact refused
    rw [refused]
    rfl

/-- A run of calls that fit stands for a queue. -/
theorem standing_of_run
    (fits : ∀ earlier c later, before = earlier ++ c :: later →
      ∀ iob done, run (iobufInit size grant) earlier = .ok (iob, done) → Fits iob c)
    (ran : run (iobufInit size grant) before = .ok (iob, done)) :
    ∃ queue, Standing grant done iob queue := by
  induction before using List.reverseRecOn generalizing iob done with
  | nil =>
      cases ran
      exact ⟨_, standing_init size grant⟩
  | append_singleton before c ih =>
      rcases run_concat ran with ⟨iob₁, done₁, answer, ran₁, called, rfl⟩
      have earlier : ∃ queue, Standing grant done₁ iob₁ queue := by
        apply ih _ ran₁
        rintro first c' later rfl iob₂ done₂ ran₂
        exact fits first c' (later ++ [c]) (by simp) iob₂ done₂ ran₂
      rcases earlier with ⟨queue, standing⟩
      have met := call_spec standing.represents (fits before c [] rfl iob₁ done₁ ran₁)
      rw [called, ends_ok] at met
      exact ⟨_, standing.step met⟩

/-- Behind calls that fit, a call that fits keeps the promise. -/
theorem Standing.promised {queue : Queue UInt8} {answer : Bool}
    (standing : Standing grant done iob queue) (met : Met queue iob c iob' answer) :
    Promised (grant = none ∨ ∃ d ∈ done, d.answer = false) done iob c iob' answer := by
  have next := standing.step met
  constructor
  · rw [unconsumed, ← next.remains.pending]
    exact met.represents.shows
  · exact met.represents.inside
  · exact met.room
  · intro refused bytes shows
    have same : bytes = queue.pending := by
      have prefixed := standing.represents.shows.buf
      rw [List.prefix_iff_eq_take] at prefixed
      rw [List.prefix_iff_eq_take.mp shows.buf, prefixed, ← shows.off,
        ← standing.represents.shows.off]
    have kept := met.represents.shows
    rw [refused] at kept
    rw [same]
    exact kept
  · exact fun failed => met.stays (standing.failed failed)

/-- A first call that does not fit. -/
theorem not_correct_of_first (beyond : ¬ Fits (iobufInit size grant) c) :
    ¬ Correct size grant [c] := by
  intro correct
  exact call_breaks (represents_init size grant) (Queue.remains_nil _) beyond
    (correct.call [] c [] rfl _ [] rfl)

end Run

/-- A buffer of sixteen bytes. -/
def sixteen : Size := ⟨16, by decide⟩

/-- `SIZE_MAX - 5` -/
def almostAll : Size := ⟨2 ^ 64 - 6, by decide⟩

/-- Memory that is full of zeros. -/
def zeros : Grant := some fun _ => 0

/-- A string of `2^31` letters. -/
def longText : List UInt8 := List.replicate (2 ^ 31) 97

/-- An accommodation for which `realloc` is asked for ten bytes, and a text that is too long
for `vsnprintf`. -/
theorem wrapped_and_unprinted :
    ¬ Correct sixteen zeros [.accommodate almostAll zeros] ∧
      ¬ Correct sixteen zeros [.print (some longText) none] := by
  constructor
  · apply not_correct_of_first
    rintro (error | enough)
    · cases error
    · apply enough
      refine ⟨by decide, by decide, .inl ?_⟩
      exact Option.some_ne_none _
  · apply not_correct_of_first
    rintro (error | ⟨printed, prints, -⟩)
    · cases error
    · rw [formatted, Option.filter_some, longText, List.length_replicate] at prints
      cases prints

/-- In a run the buffer holds what was appended and not consumed, its sizes are in order,
an accommodation gives the room that it promises and a failure leaves the bytes and lasts,
if and only if no call runs into the sizes of its integers. -/
theorem correct_iff_sound (size : Size) (grant : Grant) (calls : List Call) :
    Correct size grant calls ↔ Sound size grant calls := by
  constructor
  · intro correct before
    induction length : before.length using Nat.strongRecOn generalizing before with
    | _ n ih =>
        intro c later callsEq iob done ran
        have standing : ∃ queue, Standing grant done iob queue := by
          apply standing_of_run _ ran
          rintro earlier c' rest rfl
          apply ih earlier.length _ earlier rfl c' (rest ++ c :: later)
          · rw [callsEq, List.append_assoc, List.cons_append]
          · rw [← length, List.length_append, List.length_cons]
            omega
        rcases standing with ⟨queue, standing⟩
        by_contra beyond
        exact call_breaks standing.represents standing.remains beyond
          (correct.call before c later callsEq iob done ran)
  · intro sound
    constructor
    · exact (represents_init size grant).shows
    · exact (represents_init size grant).inside
    · intro before c later callsEq iob done ran
      have standing : ∃ queue, Standing grant done iob queue := by
        apply standing_of_run _ ran
        rintro earlier c' rest rfl
        apply sound earlier c' (rest ++ c :: later)
        rw [callsEq, List.append_assoc, List.cons_append]
      rcases standing with ⟨queue, standing⟩
      have fits := sound before c later callsEq iob done ran
      apply ends_mono (call_spec standing.represents fits)
      intro r met
      exact standing.promised met

end Btpd.Buffers
