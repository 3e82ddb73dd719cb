import Btpd.Benc.Access

/-!
# Loops over the elements of a container

Every loop over `benc_first` and `benc_next` visits the same addresses, so that
one routine can rely on what another has checked.  `Visits` is that sequence of
addresses, and a loop is a fold of its body along it.

Nothing here supposes a value of the grammar: the walk is the one that the code
does, on whatever bytes were accepted.
-/

namespace Btpd.Benc

variable {buffer : Buffer} {fuel : Nat}

/-- A loop that starts at the pointer `p` visits the addresses `elems` and then
reaches null. -/
inductive Visits (buffer : Buffer) (fuel : Nat) : Option Nat → List Nat → Prop
  | done : Visits buffer fuel none []
  | step {p : Nat} {next : Option Nat} {elems : List Nat}
      (nextEq : bencNext buffer fuel p = .ok next) (later : Visits buffer fuel next elems) :
      Visits buffer fuel (some p) (p :: elems)

/-- The body of a loop, run on the elements one after another until it leaves
the enclosing function. -/
def foldElems {σ : Type} (body : σ → Nat → Exec (Option σ)) : List Nat → σ → Exec (Option σ)
  | [], s => pure (some s)
  | p :: elems, s => do
      match ← body s p with
      | none => pure none
      | some s' => foldElems body elems s'

variable {σ : Type} {body : σ → Nat → Exec (Option σ)}

theorem foldElems_cons {p : Nat} {elems : List Nat} {s s' : σ}
    (folded : foldElems body (p :: elems) s = .ok (some s')) :
    ∃ middle, body s p = .ok (some middle) ∧ foldElems body elems middle = .ok (some s') := by
  obtain ⟨result, bodyEq, rest⟩ := Exec.bind_eq_ok.mp folded
  cases result with
  | none => cases rest
  | some middle => exact ⟨middle, bodyEq, rest⟩

theorem foldElems_cons_of_eq {p : Nat} {elems : List Nat} {s middle : σ}
    (bodyEq : body s p = .ok (some middle)) :
    foldElems body (p :: elems) s = foldElems body elems middle := by
  rw [foldElems, bodyEq, Exec.bind_ok]

/-- A loop whose pointers stay in the buffer is a fold over its elements. -/
theorem bencForeach_of_visits {first : Option Nat} {elems : List Nat} {bound : Nat}
    (visits : Visits buffer fuel first elems) (turns : elems.length < bound) (s : σ) :
    bencForeach buffer fuel body bound first s = foldElems body elems s := by
  induction visits generalizing bound s with
  | done =>
      obtain ⟨bound, rfl⟩ := Nat.exists_eq_add_one_of_ne_zero (show bound ≠ 0 by omega)
      rfl
  | @step p next elems nextEq later ih =>
      obtain ⟨bound, rfl⟩ := Nat.exists_eq_add_one_of_ne_zero (show bound ≠ 0 by omega)
      rw [bencForeach, foldElems]
      congr 1
      funext result
      cases result with
      | none => rfl
      | some s' =>
          simp only [nextEq, Exec.bind_ok]
          exact ih (by simpa using turns) s'

/-- A loop that runs to its end has visited every element. -/
theorem visits_of_bencForeach {first : Option Nat} {bound : Nat} {s s' : σ}
    (looped : bencForeach buffer fuel body bound first s = .ok (some s')) :
    ∃ elems, Visits buffer fuel first elems ∧ elems.length < bound ∧
      foldElems body elems s = .ok (some s') := by
  induction bound generalizing first s with
  | zero => cases looped
  | succ bound ih =>
      cases first with
      | none =>
          cases looped
          exact ⟨[], .done, Nat.zero_lt_succ _, rfl⟩
      | some p =>
          obtain ⟨result, bodyEq, rest⟩ := Exec.bind_eq_ok.mp looped
          cases result with
          | none => cases rest
          | some middle =>
              obtain ⟨next, nextEq, rest⟩ := Exec.bind_eq_ok.mp rest
              obtain ⟨elems, visits, turns, folded⟩ := ih rest
              exact ⟨p :: elems, .step nextEq visits, by simpa using turns,
                by rw [foldElems_cons_of_eq bodyEq, folded]⟩

/-- A loop whose body never leaves the function runs to its end. -/
theorem bencForeach_ne_none (stays : ∀ s p, body s p ≠ .ok none) {first : Option Nat}
    {bound : Nat} {s : σ} : bencForeach buffer fuel body bound first s ≠ .ok none := by
  induction bound generalizing first s with
  | zero =>
      intro left
      cases left
  | succ bound ih =>
      intro left
      cases first with
      | none => cases left
      | some p =>
          obtain ⟨result, bodyEq, left⟩ := Exec.bind_eq_ok.mp left
          cases result with
          | none => exact stays s p bodyEq
          | some middle =>
              obtain ⟨next, -, left⟩ := Exec.bind_eq_ok.mp left
              exact ih left

theorem foldElems_concat (elems seen : List Nat) :
    foldElems (fun seen q => pure (some (seen ++ [q]))) elems seen =
      .ok (some (seen ++ elems)) := by
  induction elems generalizing seen with
  | nil => simp [foldElems, Exec.pure_eq]
  | cons p elems ih =>
      rw [foldElems_cons_of_eq rfl, ih, List.append_assoc, List.singleton_append]

theorem foldElems_count (elems : List Nat) (n : Nat) :
    foldElems (fun n _ => pure (some (n + 1))) elems n = .ok (some (n + elems.length)) := by
  induction elems generalizing n with
  | nil => rfl
  | cons p elems ih =>
      rw [foldElems_cons_of_eq rfl, ih, List.length_cons, Nat.add_assoc, Nat.add_comm 1]

section

variable {p : Nat} {first : Option Nat} {elems : List Nat}

theorem bencElems_of_visits (firstEq : bencFirst buffer p = .ok first)
    (visits : Visits buffer fuel first elems) (turns : elems.length < fuel) :
    bencElems buffer fuel p = .ok elems := by
  rw [bencElems, firstEq, Exec.bind_ok, bencForeach_of_visits visits turns,
    foldElems_concat]
  rfl

theorem visits_of_bencElems (elemsEq : bencElems buffer fuel p = .ok elems) :
    ∃ first, bencFirst buffer p = .ok first ∧ Visits buffer fuel first elems ∧
      elems.length < fuel := by
  obtain ⟨first, firstEq, elemsEq⟩ := Exec.bind_eq_ok.mp elemsEq
  obtain ⟨result, looped, elemsEq⟩ := Exec.bind_eq_ok.mp elemsEq
  cases result with
  | none => exact absurd looped (bencForeach_ne_none fun s p left => by cases left)
  | some seen =>
      cases elemsEq
      obtain ⟨elems', visits, turns, folded⟩ := visits_of_bencForeach looped
      rw [foldElems_concat, List.nil_append] at folded
      cases folded
      exact ⟨first, firstEq, visits, turns⟩

theorem bencNelems_of_visits (firstEq : bencFirst buffer p = .ok first)
    (visits : Visits buffer fuel first elems) (turns : elems.length < fuel) :
    bencNelems buffer fuel p = .ok elems.length := by
  rw [bencNelems, firstEq, Exec.bind_ok, bencForeach_of_visits visits turns,
    foldElems_count, Nat.zero_add]
  rfl

end

/-! ## Positions -/

theorem Buffer.lt_stop_of_read {p : Nat} {c : UInt8} (readEq : buffer.read p = .ok c) :
    p < buffer.stop := by
  have := (Buffer.holds_of_read readEq).add_length_le
  simp only [List.length_singleton] at this
  omega

theorem ptrAdd_of_le_stop {p k : Nat} (inside : p + k ≤ buffer.stop) : ptrAdd p k = p + k :=
  ptrAdd_of_lt (Nat.lt_of_le_of_lt inside buffer.stop_lt)

theorem ptrAdd_of_read {p : Nat} {c : UInt8} (readEq : buffer.read p = .ok c) :
    ptrAdd p 1 = p + 1 :=
  ptrAdd_of_le_stop (Buffer.lt_stop_of_read readEq)

theorem readDigits_le {p acc n endptr : Nat} {bound : Nat}
    (scanned : readDigits buffer bound p acc = .ok (n, endptr)) : p ≤ endptr := by
  induction bound generalizing p acc with
  | zero => cases scanned
  | succ bound ih =>
      obtain ⟨c, readEq, scanned⟩ := Exec.bind_eq_ok.mp scanned
      split at scanned
      · have := ih scanned
        rw [ptrAdd_of_read readEq] at this
        omega
      · cases scanned
        exact Nat.le_refl _

theorem readBytes_succ {n p : Nat} {bytes : List UInt8}
    (bytesEq : readBytes buffer (n + 1) p = .ok bytes) :
    ∃ b rest, bytes = b :: rest ∧ buffer.read p = .ok b ∧
      readBytes buffer n (ptrAdd p 1) = .ok rest := by
  obtain ⟨b, readEq, bytesEq⟩ := Exec.bind_eq_ok.mp bytesEq
  obtain ⟨rest, restEq, bytesEq⟩ := Exec.bind_eq_ok.mp bytesEq
  cases bytesEq
  exact ⟨b, rest, rfl, readEq, restEq⟩

theorem length_of_readBytes {n p : Nat} {bytes : List UInt8}
    (bytesEq : readBytes buffer n p = .ok bytes) : bytes.length = n := by
  induction n generalizing p bytes with
  | zero =>
      cases bytesEq
      rfl
  | succ n ih =>
      obtain ⟨b, rest, rfl, -, restEq⟩ := readBytes_succ bytesEq
      rw [List.length_cons, ih restEq]

/-- Bytes that were read lie in the buffer. -/
theorem readBytes_inside {n p : Nat} {bytes : List UInt8} (start : p ≤ buffer.stop)
    (bytesEq : readBytes buffer n p = .ok bytes) : p + n ≤ buffer.stop := by
  induction n generalizing p bytes with
  | zero => exact start
  | succ n ih =>
      obtain ⟨b, rest, -, readEq, restEq⟩ := readBytes_succ bytesEq
      have first := Buffer.lt_stop_of_read readEq
      rw [ptrAdd_of_read readEq] at restEq
      have := ih first restEq
      omega

/-- The bytes of a string lie behind its header, which has at least two bytes,
and the next element behind the bytes. -/
theorem bencMemNext_bounds {p bstr blen : Nat} {next : Option Nat} {bytes : List UInt8}
    (mem : bencMemNext buffer fuel p = .ok (some (bstr, blen, next)))
    (bytesEq : readBytes buffer blen bstr = .ok bytes) :
    p + 2 ≤ bstr ∧ bstr + blen ≤ buffer.stop ∧ ∀ q, next = some q → q = bstr + blen := by
  rw [bencMemNext] at mem
  obtain ⟨isStr, isStrEq, mem⟩ := Exec.bind_eq_ok.mp mem
  split at mem
  case isFalse => cases mem
  rename_i string
  obtain ⟨⟨blen', endptr⟩, head, mem⟩ := Exec.bind_eq_ok.mp mem
  obtain ⟨c, -, mem⟩ := Exec.bind_eq_ok.mp mem
  simp only [Exec.pure_eq, Except.ok.injEq, Option.some.injEq, Prod.mk.injEq] at mem
  obtain ⟨rfl, rfl, rfl⟩ := mem
  -- the first byte is a digit, so that the number has at least one
  obtain ⟨d, dRead, digit⟩ := Exec.bind_eq_ok.mp isStrEq
  rw [string] at digit
  have isDigit : isdigit d = true := Except.ok.inj digit
  obtain ⟨⟨n, endptr'⟩, number, head⟩ := Exec.bind_eq_ok.mp head
  obtain ⟨colon, colonRead, head⟩ := Exec.bind_eq_ok.mp head
  split at head
  case isFalse => cases head
  cases head
  obtain ⟨⟨v, rest⟩, scanned, number⟩ := Exec.bind_eq_ok.mp number
  cases number
  have afterDigit : p + 1 ≤ endptr := by
    cases fuel with
    | zero => cases scanned
    | succ fuel =>
        rw [readDigits, dRead, Exec.bind_ok, if_pos isDigit, ptrAdd_of_read dRead] at scanned
        exact readDigits_le scanned
  have colonInside := Buffer.lt_stop_of_read colonRead
  rw [ptrAdd_of_read colonRead] at bytesEq ⊢
  have inside := readBytes_inside colonInside bytesEq
  refine ⟨by omega, inside, fun q nextEq => ?_⟩
  have position : ptrAdd endptr (min v ULONG_MAX + 1) = endptr + 1 + min v ULONG_MAX := by
    rw [ptrAdd_of_le_stop (show endptr + (min v ULONG_MAX + 1) ≤ buffer.stop by omega)]
    omega
  split at nextEq
  · cases nextEq
  · cases nextEq
    exact position

/-! ## Bounds of what the accessors return -/

theorem strtoll_le {p endptr : Nat} {n : Int}
    (number : strtoll buffer fuel p = .ok (n, endptr)) : n ≤ LLONG_MAX := by
  have bounds : LLONG_MIN ≤ LLONG_MAX ∧ (0 : Int) ≤ LLONG_MAX := by decide
  obtain ⟨q, -, number⟩ := Exec.bind_eq_ok.mp number
  obtain ⟨c, -, number⟩ := Exec.bind_eq_ok.mp number
  obtain ⟨c', -, number⟩ := Exec.bind_eq_ok.mp number
  split at number
  · obtain ⟨⟨v, rest⟩, -, number⟩ := Exec.bind_eq_ok.mp number
    cases number
    exact Int.max_le.mpr ⟨bounds.1, Int.min_le_right _ _⟩
  · cases number
    exact bounds.2

theorem bencInt_le {p : Nat} {n : Int} (number : bencInt buffer fuel p = .ok n) :
    n ≤ LLONG_MAX := by
  obtain ⟨isInt, -, number⟩ := Exec.bind_eq_ok.mp number
  split at number
  · obtain ⟨⟨res, endptr⟩, read, number⟩ := Exec.bind_eq_ok.mp number
    obtain ⟨c, -, number⟩ := Exec.bind_eq_ok.mp number
    split at number
    · cases number
      exact strtoll_le read
    · cases number
  · cases number
    decide

theorem bencDgetInt_le {p : Nat} {n : Int} {key : List UInt8}
    (number : bencDgetInt buffer fuel p key = .ok n) : n ≤ LLONG_MAX := by
  obtain ⟨intp, -, number⟩ := Exec.bind_eq_ok.mp number
  cases intp with
  | none =>
      cases number
      decide
  | some intp => exact bencInt_le number

end Btpd.Benc
