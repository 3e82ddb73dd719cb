import Mathlib

/-!
# Received buffers on a 64-bit machine

The bencode routines walk a received buffer with raw pointers.  This file
fixes what they see of the machine: addresses and `size_t` values are natural
numbers below `2 ^ 64`, pointer arithmetic wraps there, and a read outside the
buffer is a fault rather than an arbitrary byte.

`Holds buffer p xs` says that the bytes `xs` lie at address `p` of the buffer;
it is the one relation through which the later files speak of memory.
-/

namespace Btpd.Benc

/-- How a C routine over a received buffer can end without a result. -/
inductive Fault
  /-- A loop or a recursion outlives its bound. -/
  | diverge
  /-- A byte outside the buffer, or a cell outside an array, is touched. -/
  | outOfBounds
  /-- A null pointer is followed. -/
  | nullDeref
  /-- An `assert` fails. -/
  | assertion
  /-- A local variable is read before it was set. -/
  | uninitialized
  deriving DecidableEq, Repr

/-- A C computation that either returns or ends in a fault. -/
abbrev Exec := Except Fault

theorem Exec.pure_eq {α : Type} (a : α) : (pure a : Exec α) = .ok a :=
  rfl

theorem Exec.bind_ok {α β : Type} (a : α) (f : α → Exec β) : (Except.ok a >>= f) = f a :=
  rfl

/-- A sequence returns when both of its parts do. -/
theorem Exec.bind_eq_ok {α β : Type} {x : Exec α} {f : α → Exec β} {b : β} :
    (x >>= f) = .ok b ↔ ∃ a, x = .ok a ∧ f a = .ok b := by
  cases x with
  | error fault => simp [bind, Except.bind]
  | ok a => simp [bind, Except.bind]

/-- A sequence of calls that all return. -/
theorem Exec.mapM_eq_ok {α β : Type} {f : α → Exec β} {xs : List α} {ys : List β} :
    xs.mapM f = .ok ys ↔ List.Forall₂ (fun x y => f x = .ok y) xs ys := by
  induction xs generalizing ys with
  | nil =>
      rw [List.forall₂_nil_left_iff]
      simp [pure, Except.pure, eq_comm]
  | cons x xs ih =>
      rw [List.mapM_cons, Exec.bind_eq_ok]
      constructor
      · rintro ⟨y, yEq, rest⟩
        obtain ⟨ys', ysEq, rest⟩ := Exec.bind_eq_ok.mp rest
        cases rest
        exact .cons yEq (ih.mp ysEq)
      · intro all
        cases all with
        | cons yEq later => exact ⟨_, yEq, by rw [ih.mpr later]; rfl⟩

/-- Number of values of a 64-bit machine word. -/
def wordSize : Nat := 2 ^ 64

/-- `p + k` on 64-bit pointers. -/
def ptrAdd (p : Nat) (k : Nat) : Nat := (p + k) % wordSize

/-- A buffer of `bytes` placed at the address `base`.  Every address of the
buffer, and the one just past it, is a machine word. -/
structure Buffer where
  base : Nat
  bytes : List UInt8
  base_pos : 0 < base
  fits : base + bytes.length < wordSize

/-- The address of the buffers below. -/
theorem page_pos : 0 < 4096 := by decide

namespace Buffer

/-- `*p` for a pointer into the buffer. -/
def read (buffer : Buffer) (p : Nat) : Exec UInt8 :=
  if buffer.base ≤ p then
    match buffer.bytes[p - buffer.base]? with
    | some c => .ok c
    | none => .error .outOfBounds
  else
    .error .outOfBounds

/-- The address just past the buffer. -/
def stop (buffer : Buffer) : Nat := buffer.base + buffer.bytes.length

theorem stop_lt (buffer : Buffer) : buffer.stop < wordSize :=
  buffer.fits

/-- The bytes `xs` lie at address `p`. -/
def Holds (buffer : Buffer) (p : Nat) (xs : List UInt8) : Prop :=
  ∃ before after, buffer.bytes = before ++ xs ++ after ∧
    p = buffer.base + before.length

theorem holds_base (buffer : Buffer) : buffer.Holds buffer.base buffer.bytes :=
  ⟨[], [], by simp, by simp⟩

namespace Holds

variable {buffer : Buffer} {p : Nat} {xs ys : List UInt8}

theorem base_le (held : buffer.Holds p xs) : buffer.base ≤ p := by
  obtain ⟨before, after, -, rfl⟩ := held
  exact Nat.le_add_right _ _

theorem add_length_le (held : buffer.Holds p xs) : p + xs.length ≤ buffer.stop := by
  obtain ⟨before, after, bytesEq, rfl⟩ := held
  simp only [stop, bytesEq, List.length_append]
  omega

theorem add_length_lt (held : buffer.Holds p xs) : p + xs.length < wordSize :=
  Nat.lt_of_le_of_lt held.add_length_le buffer.stop_lt

theorem pos (held : buffer.Holds p xs) : 0 < p :=
  Nat.lt_of_lt_of_le buffer.base_pos held.base_le

theorem left (held : buffer.Holds p (xs ++ ys)) : buffer.Holds p xs := by
  obtain ⟨before, after, bytesEq, rfl⟩ := held
  exact ⟨before, ys ++ after, by simp [bytesEq], rfl⟩

theorem right (held : buffer.Holds p (xs ++ ys)) :
    buffer.Holds (p + xs.length) ys := by
  obtain ⟨before, after, bytesEq, rfl⟩ := held
  exact ⟨before ++ xs, after, by simp [bytesEq], by simp [Nat.add_assoc]⟩

theorem nil_after (held : buffer.Holds p xs) : buffer.Holds (p + xs.length) [] := by
  obtain ⟨before, after, bytesEq, rfl⟩ := held
  exact ⟨before ++ xs, after, by simp [bytesEq], by simp [Nat.add_assoc]⟩

theorem tail {c : UInt8} (held : buffer.Holds p (c :: xs)) :
    buffer.Holds (p + 1) xs :=
  (show buffer.Holds p ([c] ++ xs) from held).right

theorem read_eq {c : UInt8} (held : buffer.Holds p (c :: xs)) :
    buffer.read p = .ok c := by
  obtain ⟨before, after, bytesEq, rfl⟩ := held
  simp [read, bytesEq]

/-- Two byte strings of one length at one address are the same. -/
theorem unique (first : buffer.Holds p xs) (second : buffer.Holds p ys)
    (sameLength : xs.length = ys.length) : xs = ys := by
  obtain ⟨before, after, bytesEq, pEq⟩ := first
  obtain ⟨before', after', bytesEq', pEq'⟩ := second
  have beforeLength : before.length = before'.length := by omega
  have split : before ++ (xs ++ after) = before' ++ (ys ++ after') := by
    simpa using bytesEq.symm.trans bytesEq'
  have rest := (List.append_inj split beforeLength).2
  exact (List.append_inj rest sameLength).1

end Holds

/-- A successful read is of a byte that the buffer holds. -/
theorem holds_of_read {buffer : Buffer} {p : Nat} {c : UInt8}
    (readEq : buffer.read p = .ok c) : buffer.Holds p [c] := by
  unfold read at readEq
  split at readEq
  · rename_i baseLe
    split at readEq
    · rename_i found
      cases readEq
      obtain ⟨inside, getEq⟩ := List.getElem?_eq_some_iff.mp found
      refine ⟨buffer.bytes.take (p - buffer.base),
        buffer.bytes.drop (p - buffer.base + 1), ?_, ?_⟩
      · rw [List.append_assoc, List.singleton_append, ← getEq,
          List.getElem_cons_drop, List.take_append_drop]
      · rw [List.length_take, Nat.min_eq_left (Nat.le_of_lt inside)]
        omega
    · cases readEq
  · cases readEq

end Buffer

/-- Pointer addition that stays inside the address space does not wrap. -/
theorem ptrAdd_of_lt {p k : Nat} (h : p + k < wordSize) : ptrAdd p k = p + k :=
  Nat.mod_eq_of_lt h

/-! ## Digits -/

/-- `isdigit(c)` -/
def isdigit (c : UInt8) : Bool := '0'.toUInt8 ≤ c && c ≤ '9'.toUInt8

/-- `c - '0'` -/
def digitVal (c : UInt8) : Nat := (c - '0'.toUInt8).toNat

/-- One or more decimal digits. -/
def IsDigits (ds : List UInt8) : Prop := ds ≠ [] ∧ ∀ c ∈ ds, isdigit c = true

/-- Extend the number `v` by the decimal digits `ds`. -/
def appendDigits (v : Nat) : List UInt8 → Nat
  | [] => v
  | c :: ds => appendDigits (v * 10 + digitVal c) ds

/-- The unbounded natural number that `ds` denotes. -/
def digitsVal (ds : List UInt8) : Nat := appendDigits 0 ds

@[simp]
theorem appendDigits_nil (v : Nat) : appendDigits v [] = v :=
  rfl

@[simp]
theorem appendDigits_cons (v : Nat) (c : UInt8) (ds : List UInt8) :
    appendDigits v (c :: ds) = appendDigits (v * 10 + digitVal c) ds :=
  rfl

theorem digitVal_lt {c : UInt8} (digit : isdigit c = true) : digitVal c < 10 := by
  simp only [isdigit, Bool.and_eq_true, decide_eq_true_eq, UInt8.le_iff_toNat_le] at digit
  have zero : ('0'.toUInt8).toNat = 48 := by decide
  have nine : ('9'.toUInt8).toNat = 57 := by decide
  have atLeast : '0'.toUInt8 ≤ c := by
    rw [UInt8.le_iff_toNat_le]
    exact digit.1
  rw [digitVal, UInt8.toNat_sub_of_le _ _ atLeast]
  omega

theorem appendDigits_lt (v : Nat) {ds : List UInt8} (digits : ∀ c ∈ ds, isdigit c = true) :
    appendDigits v ds < (v + 1) * 10 ^ ds.length := by
  induction ds generalizing v with
  | nil => simp
  | cons c ds ih =>
      have small := digitVal_lt (digits c (by simp))
      have later := ih (v * 10 + digitVal c)
        (fun c' mem => digits c' (List.mem_cons_of_mem _ mem))
      calc
        appendDigits v (c :: ds) < (v * 10 + digitVal c + 1) * 10 ^ ds.length := later
        _ ≤ ((v + 1) * 10) * 10 ^ ds.length := Nat.mul_le_mul_right _ (by omega)
        _ = (v + 1) * 10 ^ (c :: ds).length := by
            rw [List.length_cons, Nat.pow_succ, Nat.mul_assoc, Nat.mul_comm 10]

/-- `n` digits denote a number below `10 ^ n`. -/
theorem digitsVal_lt {ds : List UInt8} (digits : ∀ c ∈ ds, isdigit c = true) :
    digitsVal ds < 10 ^ ds.length := by
  simpa [digitsVal] using appendDigits_lt 0 digits

/-- A list of bytes splits into its leading digits and a rest that does not
start with a digit. -/
theorem exists_digit_prefix (xs : List UInt8) :
    ∃ ds rest, xs = ds ++ rest ∧ (∀ c ∈ ds, isdigit c = true) ∧
      ∀ c tail, rest = c :: tail → isdigit c = false := by
  induction xs with
  | nil => exact ⟨[], [], by simp⟩
  | cons c xs ih =>
      cases digit : isdigit c with
      | false =>
          refine ⟨[], c :: xs, by simp, by simp, ?_⟩
          intro c' tail consEq
          cases consEq
          exact digit
      | true =>
          obtain ⟨ds, rest, rfl, allDigits, restHead⟩ := ih
          exact ⟨c :: ds, rest, by simp, by simpa [digit] using allDigits, restHead⟩

end Btpd.Benc
