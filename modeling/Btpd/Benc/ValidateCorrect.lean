import Btpd.Benc.Grammar
import Btpd.Benc.Validate

/-!
# Correctness of `benc_validate`

The validator is compared with the grammar.  Completeness needs nothing: a
value of the grammar is always recognised.  Termination, reads in bounds and
soundness hold as long as no string length slips through the one bound check
of the code, which adds the length to a 64-bit pointer.
-/

namespace Btpd.Benc

/-! ## The unread part of a buffer -/

namespace Buffer

/-- `tail` is everything from `p` to the end of the buffer. -/
structure Rest (buffer : Buffer) (p : Nat) (tail : List UInt8) : Prop where
  held : buffer.Holds p tail
  ends : p + tail.length = buffer.stop

variable {buffer : Buffer} {p : Nat} {xs tail : List UInt8} {c : UInt8}

theorem rest_of_split (before tail : List UInt8)
    (bytesEq : buffer.bytes = before ++ tail) :
    buffer.Rest (buffer.base + before.length) tail :=
  ⟨⟨before, [], by simpa using bytesEq, rfl⟩, by simp [stop, bytesEq]; omega⟩

/-- Held bytes can be continued to the end of the buffer. -/
theorem Holds.exists_rest (held : buffer.Holds p xs) :
    ∃ after, buffer.Rest p (xs ++ after) := by
  obtain ⟨before, after, bytesEq, rfl⟩ := held
  exact ⟨after, rest_of_split before _ (by simpa using bytesEq)⟩

namespace Rest

theorem drop (rest : buffer.Rest p (xs ++ tail)) :
    buffer.Rest (p + xs.length) tail :=
  ⟨rest.held.right, by rw [← rest.ends, List.length_append]; omega⟩

theorem next (rest : buffer.Rest p (c :: tail)) : buffer.Rest (p + 1) tail :=
  (show buffer.Rest p ([c] ++ tail) from rest).drop

theorem read_eq (rest : buffer.Rest p (c :: tail)) : buffer.read p = .ok c :=
  rest.held.read_eq

theorem le_last (rest : buffer.Rest p (c :: tail)) : p ≤ buffer.stop - 1 := by
  have := rest.ends
  simp only [List.length_cons] at this
  omega

theorem last_lt (rest : buffer.Rest p []) : ¬ p ≤ buffer.stop - 1 := by
  have stopEq : p = buffer.stop := rest.ends
  have := rest.held.pos
  omega

theorem ptrAdd_one (rest : buffer.Rest p (c :: tail)) : ptrAdd p 1 = p + 1 := by
  apply ptrAdd_of_lt
  have := rest.next.held.add_length_lt
  omega

end Rest

end Buffer

/-! ## The digit loops -/

variable {buffer : Buffer}

/-- The rest of the buffer after a digit loop does not go on with a digit. -/
def NoDigit (rest : List UInt8) : Prop :=
  ∀ c tail, rest = c :: tail → isdigit c = false

theorem skipDigits_eq (fuel : Nat) {p : Nat} {ds rest : List UInt8}
    (at_p : buffer.Rest p (ds ++ rest)) (digits : ∀ c ∈ ds, isdigit c = true)
    (noDigit : NoDigit rest) (enough : ds.length < fuel) :
    skipDigits buffer (buffer.stop - 1) fuel p = .ok (p + ds.length) := by
  induction ds generalizing fuel p with
  | nil =>
      cases fuel with
      | zero => omega
      | succ fuel =>
          cases rest with
          | nil => simp [skipDigits, at_p.last_lt, pure, Except.pure]
          | cons c tail =>
              have notDigit := noDigit c tail rfl
              simp [skipDigits, at_p.le_last, at_p.read_eq, notDigit, bind,
                Except.bind, pure, Except.pure]
  | cons c ds ih =>
      cases fuel with
      | zero => omega
      | succ fuel =>
          have later := ih fuel at_p.next
            (fun c' mem => digits c' (List.mem_cons_of_mem _ mem))
            (by simpa using enough)
          rw [skipDigits, if_pos at_p.le_last, at_p.read_eq]
          simp only [bind, Except.bind, digits c (by simp), if_true]
          rw [at_p.ptrAdd_one, later, List.length_cons]
          congr 1
          omega

theorem readLength_eq (fuel len : Nat) {p : Nat} {ds rest : List UInt8}
    (at_p : buffer.Rest p (ds ++ rest)) (digits : ∀ c ∈ ds, isdigit c = true)
    (noDigit : NoDigit rest) (enough : ds.length < fuel) :
    readLength buffer (buffer.stop - 1) fuel p (len % wordSize) =
      .ok (p + ds.length, appendDigits len ds % wordSize) := by
  induction ds generalizing fuel p len with
  | nil =>
      cases fuel with
      | zero => omega
      | succ fuel =>
          cases rest with
          | nil => simp [readLength, at_p.last_lt, pure, Except.pure]
          | cons c tail =>
              have notDigit := noDigit c tail rfl
              simp [readLength, at_p.le_last, at_p.read_eq, notDigit, bind,
                Except.bind, pure, Except.pure]
  | cons c ds ih =>
      cases fuel with
      | zero => omega
      | succ fuel =>
          have step : (len % wordSize * 10 + digitVal c) % wordSize =
              (len * 10 + digitVal c) % wordSize := by
            rw [Nat.add_mod, Nat.mul_mod, Nat.mod_mod, ← Nat.mul_mod, ← Nat.add_mod]
          have later := ih fuel (len * 10 + digitVal c) at_p.next
            (fun c' mem => digits c' (List.mem_cons_of_mem _ mem))
            (by simpa using enough)
          rw [readLength, if_pos at_p.le_last, at_p.read_eq]
          simp only [bind, Except.bind, digits c (by simp), if_true]
          rw [at_p.ptrAdd_one, step, later, List.length_cons, appendDigits_cons]
          congr 2
          omega

theorem readLength_zero {fuel p : Nat} {ds rest : List UInt8}
    (at_p : buffer.Rest p (ds ++ rest)) (digits : ∀ c ∈ ds, isdigit c = true)
    (noDigit : NoDigit rest) (enough : ds.length < fuel) :
    readLength buffer (buffer.stop - 1) fuel p 0 =
      .ok (p + ds.length, digitsVal ds % wordSize) := by
  have lengthRead := readLength_eq fuel 0 at_p digits noDigit enough
  rwa [Nat.zero_mod] at lengthRead

/-! ## Strings and integers -/

theorem bencValidateStr_colon {fuel p : Nat} {ds rest : List UInt8}
    (at_p : buffer.Rest p (ds ++ ':'.toUInt8 :: rest))
    (digits : ∀ c ∈ ds, isdigit c = true) (enough : ds.length < fuel) :
    bencValidateStr buffer (buffer.stop - 1) fuel p =
      .ok (if ptrAdd (p + ds.length) (digitsVal ds % wordSize) ≤ buffer.stop - 1 then
        some (ptrAdd (p + ds.length) (digitsVal ds % wordSize)) else none) := by
  have noDigit : NoDigit (':'.toUInt8 :: rest) := by
    intro c tail consEq
    cases consEq
    decide
  have lengthRead := readLength_zero at_p digits noDigit enough
  have colon := at_p.drop
  simp only [bencValidateStr, lengthRead, bind, Except.bind, if_pos colon.le_last,
    colon.read_eq, true_and, pure, Except.pure]
  split <;> rfl

theorem bencValidateStr_other {fuel p : Nat} {ds rest : List UInt8}
    (at_p : buffer.Rest p (ds ++ rest)) (digits : ∀ c ∈ ds, isdigit c = true)
    (noDigit : NoDigit rest) (noColon : ∀ tail, rest ≠ ':'.toUInt8 :: tail)
    (enough : ds.length < fuel) :
    bencValidateStr buffer (buffer.stop - 1) fuel p = .ok none := by
  have lengthRead := readLength_zero at_p digits noDigit enough
  have after := at_p.drop
  simp only [bencValidateStr, lengthRead, bind, Except.bind]
  cases rest with
  | nil => simp [after.last_lt, pure, Except.pure]
  | cons c tail =>
      have notColon : c ≠ ':'.toUInt8 := fun equal => noColon tail (by rw [equal])
      simp [after.le_last, after.read_eq, notColon, pure, Except.pure]

theorem bencValidateDigits_eq {fuel p : Nat} {ds rest : List UInt8}
    (at_p : buffer.Rest p (ds ++ 'e'.toUInt8 :: rest)) (digits : IsDigits ds)
    (enough : ds.length < fuel) :
    bencValidateDigits buffer (buffer.stop - 1) fuel p = .ok (some (p + ds.length)) := by
  obtain ⟨nonempty, allDigits⟩ := digits
  obtain ⟨c, ds, rfl⟩ := List.exists_cons_of_ne_nil nonempty
  have noDigit : NoDigit ('e'.toUInt8 :: rest) := by
    intro c tail consEq
    cases consEq
    decide
  have skipped := skipDigits_eq fuel at_p.next
    (fun c' mem => allDigits c' (List.mem_cons_of_mem _ mem)) noDigit
    (by simp only [List.length_cons] at enough; omega)
  have closing := at_p.drop
  have position : p + 1 + ds.length = p + (c :: ds).length := by
    simp only [List.length_cons]
    omega
  simp only [bencValidateDigits, if_pos at_p.le_last, at_p.read_eq, bind, Except.bind,
    allDigits c (by simp), if_true, at_p.ptrAdd_one, skipped, position,
    if_pos closing.le_last, closing.read_eq, pure, Except.pure]

theorem bencValidateDigits_sound {fuel p : Nat} {tail : List UInt8}
    (at_p : buffer.Rest p tail) (enough : tail.length < fuel) :
    ∃ r, bencValidateDigits buffer (buffer.stop - 1) fuel p = .ok r ∧
      ∀ q, r = some q → ∃ ds rest, tail = ds ++ 'e'.toUInt8 :: rest ∧
        IsDigits ds ∧ q = p + ds.length := by
  obtain ⟨ds, rest, rfl, digits, noDigit⟩ := exists_digit_prefix tail
  cases ds with
  | nil =>
      refine ⟨none, ?_, by simp⟩
      cases rest with
      | nil => simp [bencValidateDigits, at_p.last_lt, pure, Except.pure]
      | cons c rest =>
          have notDigit := noDigit c rest rfl
          simp [bencValidateDigits, at_p.le_last, at_p.read_eq, notDigit, bind,
            Except.bind, pure, Except.pure]
  | cons c ds =>
      have skipped := skipDigits_eq fuel at_p.next
        (fun c' mem => digits c' (List.mem_cons_of_mem _ mem)) noDigit
        (by simp only [List.cons_append, List.length_cons, List.length_append] at enough
            omega)
      have after := at_p.next.drop
      simp only [bencValidateDigits, if_pos at_p.le_last, at_p.read_eq, bind, Except.bind,
        digits c (by simp), if_true, at_p.ptrAdd_one, skipped]
      cases rest with
      | nil => exact ⟨none, by simp [after.last_lt, pure, Except.pure], by simp⟩
      | cons c' rest =>
          simp only [if_pos after.le_last, after.read_eq, pure, Except.pure]
          split
          · rename_i closes
            refine ⟨_, rfl, ?_⟩
            rintro q ⟨rfl⟩
            refine ⟨c :: ds, rest, by rw [closes], ⟨by simp, digits⟩, ?_⟩
            simp only [List.length_cons]
            omega
          · exact ⟨none, rfl, by simp⟩

/-- The optional minus sign of an integer. -/
def sign (negative : Bool) : List UInt8 := if negative then ['-'.toUInt8] else []

theorem bencValidateInt_eq (fuel : Nat) (negative : Bool) {p : Nat} {ds rest : List UInt8}
    (at_p : buffer.Rest p (sign negative ++ (ds ++ 'e'.toUInt8 :: rest)))
    (digits : IsDigits ds) (enough : ds.length < fuel) :
    bencValidateInt buffer (buffer.stop - 1) fuel p =
      .ok (some (p + (sign negative).length + ds.length)) := by
  cases negative with
  | true =>
      have later := bencValidateDigits_eq at_p.next digits enough
      simp only [bencValidateInt, if_pos at_p.le_last, at_p.read_eq, bind, Except.bind,
        if_true, at_p.ptrAdd_one, later]
      simp [sign]
  | false =>
      have unsigned : buffer.Rest p (ds ++ 'e'.toUInt8 :: rest) := at_p
      have later := bencValidateDigits_eq unsigned digits enough
      obtain ⟨nonempty, allDigits⟩ := digits
      obtain ⟨c, ds, rfl⟩ := List.exists_cons_of_ne_nil nonempty
      have notMinus : c ≠ '-'.toUInt8 := by
        rintro rfl
        exact absurd (allDigits '-'.toUInt8 (by simp)) (by decide)
      simp only [bencValidateInt, if_pos unsigned.le_last, unsigned.read_eq, bind,
        Except.bind, if_neg notMinus, later]
      simp [sign]

theorem bencValidateInt_sound (fuel : Nat) {p : Nat} {tail : List UInt8}
    (at_p : buffer.Rest p tail) (enough : tail.length < fuel) :
    ∃ r, bencValidateInt buffer (buffer.stop - 1) fuel p = .ok r ∧
      ∀ q, r = some q → ∃ negative ds rest,
        tail = sign negative ++ (ds ++ 'e'.toUInt8 :: rest) ∧
        IsDigits ds ∧ q = p + (sign negative).length + ds.length := by
  cases tail with
  | nil => exact ⟨none, by simp [bencValidateInt, at_p.last_lt, pure, Except.pure], by simp⟩
  | cons c tail =>
      simp only [bencValidateInt, if_pos at_p.le_last, at_p.read_eq, bind, Except.bind]
      split
      · rename_i minus
        subst minus
        obtain ⟨r, result, sound⟩ := bencValidateDigits_sound at_p.next
          (Nat.lt_of_succ_lt enough)
        refine ⟨r, by rw [at_p.ptrAdd_one, result], fun q rEq => ?_⟩
        obtain ⟨ds, rest, rfl, digits, rfl⟩ := sound q rEq
        exact ⟨true, ds, rest, rfl, digits, rfl⟩
      · obtain ⟨r, result, sound⟩ := bencValidateDigits_sound at_p enough
        refine ⟨r, result, fun q rEq => ?_⟩
        obtain ⟨ds, rest, tailEq, digits, rfl⟩ := sound q rEq
        exact ⟨false, ds, rest, tailEq, digits, rfl⟩

/-! ## Completeness -/

theorem noDigit_colon (rest : List UInt8) : NoDigit (':'.toUInt8 :: rest) := by
  intro c tail consEq
  cases consEq
  exact isdigit_colon

/-- A string of the grammar is recognised; its length fits in the buffer, so
neither the accumulator nor the pointer wraps. -/
theorem bencValidateStr_complete {fuel p : Nat} {x rest : List UInt8} (string : Str x)
    (at_p : buffer.Rest p (x ++ rest)) (enough : x.length ≤ fuel) :
    bencValidateStr buffer (buffer.stop - 1) fuel p = .ok (some (p + x.length - 1)) := by
  obtain ⟨ds, bs, digits, lengthEq⟩ := string
  have at_p' : buffer.Rest p (ds ++ ':'.toUInt8 :: (bs ++ rest)) := by
    simpa using at_p
  have inside := at_p.held.left.add_length_le
  have insideWord := at_p.held.left.add_length_lt
  simp only [List.length_append, List.length_cons] at enough inside insideWord
  rw [bencValidateStr_colon at_p' digits.2 (by omega), lengthEq,
    Nat.mod_eq_of_lt (by omega), ptrAdd_of_lt (by omega), if_pos (by omega)]
  simp only [List.length_append, List.length_cons]
  congr 2
  omega

/-- The validator recognises `x` wherever it lies. -/
def Recognised (buffer : Buffer) (x : List UInt8) : Prop :=
  ∀ fuel p rest, buffer.Rest p (x ++ rest) → 2 * x.length ≤ fuel →
    bencValidateAux buffer (buffer.stop - 1) fuel p = .ok (some (p + x.length - 1))

theorem recognised_of_str {x : List UInt8} (string : Str x) : Recognised buffer x := by
  intro fuel p rest at_p enough
  obtain ⟨c, tail, rfl, digit⟩ := string.head_isdigit
  cases fuel with
  | zero => simp at enough
  | succ fuel =>
      have notOpener : c ≠ 'd'.toUInt8 ∧ c ≠ 'l'.toUInt8 ∧ c ≠ 'i'.toUInt8 := by
        refine ⟨?_, ?_, ?_⟩ <;> (rintro rfl; revert digit; decide)
      simp only [bencValidateAux, show buffer.read p = .ok c from at_p.read_eq, bind,
        Except.bind, if_neg notOpener.1, if_neg notOpener.2.1, if_neg notOpener.2.2,
        digit, if_true]
      exact bencValidateStr_complete string at_p (by
        simp only [List.length_cons] at enough ⊢
        omega)

/-- One turn of the element loop over a recognised element. -/
theorem bencValidateElems_step {fuel d p : Nat} {x tail : List UInt8} (value : Value x)
    (recognised : Recognised buffer x) (at_x : buffer.Rest p (x ++ tail))
    (enough : 2 * x.length ≤ fuel) (isKey : d ≠ 0 → d % 2 = 1 → Str x) :
    bencValidateElems buffer (buffer.stop - 1) (fuel + 1) d p =
      bencValidateElems buffer (buffer.stop - 1) fuel
        (if d ≠ 0 then (d + 1) % wordSize else d) (p + x.length) := by
  have nonempty := value.length_pos
  have insideWord := at_x.held.left.add_length_lt
  have element := recognised fuel p _ at_x enough
  have following : ptrAdd (p + x.length - 1) 1 = p + x.length := by
    rw [ptrAdd_of_lt (by omega)]
    omega
  obtain ⟨c, xs, rfl, -⟩ := value.head
  have keyDigit : ¬ (d ≠ 0 ∧ d % 2 = 1 ∧ isdigit c = false) := by
    rintro ⟨nonzero, odd, notDigit⟩
    obtain ⟨c', xs', consEq, digit⟩ := (isKey nonzero odd).head_isdigit
    cases consEq
    rw [digit] at notDigit
    cases notDigit
  have inside : p ≤ buffer.stop - 1 := at_x.le_last
  have readEq : buffer.read p = .ok c := at_x.read_eq
  simp only [bencValidateElems, if_pos inside, readEq, bind, Except.bind,
    if_neg value.head_ne_e, if_neg keyDigit, element, following]

theorem bencValidateElems_list_complete (fuel : Nat) (elems : List (List UInt8))
    (values : ∀ x ∈ elems, Value x) (recognised : ∀ x ∈ elems, Recognised buffer x)
    {p : Nat} {rest : List UInt8}
    (at_p : buffer.Rest p (elems.flatten ++ 'e'.toUInt8 :: rest))
    (enough : 2 * elems.flatten.length + 1 ≤ fuel) :
    bencValidateElems buffer (buffer.stop - 1) fuel 0 p =
      .ok (some (p + elems.flatten.length)) := by
  obtain ⟨fuel, rfl⟩ := Nat.exists_eq_add_one_of_ne_zero (show fuel ≠ 0 by omega)
  induction elems generalizing fuel p with
  | nil =>
      have closing : buffer.Rest p ('e'.toUInt8 :: rest) := at_p
      simp [bencValidateElems, closing.le_last, closing.read_eq, bind, Except.bind,
        pure, Except.pure]
  | cons x elems ih =>
      have at_x : buffer.Rest p (x ++ (elems.flatten ++ 'e'.toUInt8 :: rest)) := by
        simpa using at_p
      have value := values x (by simp)
      have nonempty := value.length_pos
      simp only [List.flatten_cons, List.length_append] at enough
      obtain ⟨fuel, rfl⟩ := Nat.exists_eq_add_one_of_ne_zero (show fuel ≠ 0 by omega)
      rw [bencValidateElems_step value (recognised x (by simp)) at_x (by omega)
          (fun nonzero => absurd rfl nonzero),
        if_neg (by simp), ih (fun y mem => values y (List.mem_cons_of_mem _ mem))
          (fun y mem => recognised y (List.mem_cons_of_mem _ mem)) at_x.drop fuel (by omega),
        List.flatten_cons, List.length_append, Nat.add_assoc]

/-- The counter `d` of a dictionary never exceeds the address it has reached,
so that it does not wrap. -/
theorem bencValidateElems_dict_complete (fuel d : Nat)
    (pairs : List (List UInt8 × List UInt8))
    (keys : ∀ pair ∈ pairs, Str pair.1) (values : ∀ pair ∈ pairs, Value pair.2)
    (recognised : ∀ pair ∈ pairs, Recognised buffer pair.2)
    {p : Nat} {rest : List UInt8} (odd : d % 2 = 1) (small : d ≤ p)
    (at_p : buffer.Rest p ((pairElems pairs).flatten ++ 'e'.toUInt8 :: rest))
    (enough : 2 * (pairElems pairs).flatten.length + 1 ≤ fuel) :
    bencValidateElems buffer (buffer.stop - 1) fuel d p =
      .ok (some (p + (pairElems pairs).flatten.length)) := by
  obtain ⟨fuel, rfl⟩ := Nat.exists_eq_add_one_of_ne_zero (show fuel ≠ 0 by omega)
  induction pairs generalizing fuel d p with
  | nil =>
      have closing : buffer.Rest p ('e'.toUInt8 :: rest) := at_p
      simp [bencValidateElems, closing.le_last, closing.read_eq, bind, Except.bind,
        pure, Except.pure, odd]
  | cons pair pairs ih =>
      obtain ⟨k, v⟩ := pair
      have at_k : buffer.Rest p (k ++ (v ++
          ((pairElems pairs).flatten ++ 'e'.toUInt8 :: rest))) := by
        simpa using at_p
      have key : Str k := keys (k, v) (by simp)
      have value : Value v := values (k, v) (by simp)
      have keyLength := key.length_pos
      have valueLength := value.length_pos
      have insideWord := at_k.drop.held.left.add_length_lt
      simp only [pairElems_cons, List.flatten_cons, List.length_append] at enough
      obtain ⟨fuel, rfl⟩ := Nat.exists_eq_add_one_of_ne_zero (show fuel ≠ 0 by omega)
      rw [bencValidateElems_step (.str key) (recognised_of_str key) at_k (by omega)
          (fun _ _ => key),
        if_pos (by omega), Nat.mod_eq_of_lt (by omega)]
      obtain ⟨fuel, rfl⟩ := Nat.exists_eq_add_one_of_ne_zero (show fuel ≠ 0 by omega)
      rw [bencValidateElems_step value (recognised (k, v) (by simp)) at_k.drop (by omega)
          (fun _ evenOdd => absurd evenOdd (by omega)),
        if_pos (by omega), Nat.mod_eq_of_lt (by omega),
        ih _ (fun pair mem => keys pair (List.mem_cons_of_mem _ mem))
          (fun pair mem => values pair (List.mem_cons_of_mem _ mem))
          (fun pair mem => recognised pair (List.mem_cons_of_mem _ mem))
          (by omega) (by omega) at_k.drop.drop fuel (by omega)]
      simp only [pairElems_cons, List.flatten_cons, List.length_append]
      congr 2
      omega

/-- Every value of the grammar is recognised, wherever it lies. -/
theorem Value.recognised {x : List UInt8} (value : Value x) : Recognised buffer x := by
  induction value with
  | str string => exact recognised_of_str string
  | int negative ds digits =>
      intro fuel p rest at_p enough
      have at_i : buffer.Rest p ('i'.toUInt8 ::
          (sign negative ++ (ds ++ 'e'.toUInt8 :: rest))) := by
        simpa [integer, sign] using at_p
      have lengthEq : (integer negative ds).length =
          (sign negative).length + ds.length + 2 := by
        simp [integer, sign]
        omega
      obtain ⟨fuel, rfl⟩ := Nat.exists_eq_add_one_of_ne_zero (show fuel ≠ 0 by omega)
      have later := bencValidateInt_eq fuel negative at_i.next digits (by omega)
      simp only [bencValidateAux, at_i.read_eq, at_i.ptrAdd_one, bind, Except.bind, later,
        if_neg (show 'i'.toUInt8 ≠ 'd'.toUInt8 by decide),
        if_neg (show 'i'.toUInt8 ≠ 'l'.toUInt8 by decide), if_true]
      congr 2
      omega
  | list elems values ih =>
      intro fuel p rest at_p enough
      have at_l : buffer.Rest p ('l'.toUInt8 ::
          (elems.flatten ++ 'e'.toUInt8 :: rest)) := by
        simpa [container] using at_p
      rw [length_container] at enough
      obtain ⟨fuel, rfl⟩ := Nat.exists_eq_add_one_of_ne_zero (show fuel ≠ 0 by omega)
      have later := bencValidateElems_list_complete fuel elems values ih
        at_l.next (by omega)
      simp only [bencValidateAux, at_l.read_eq, at_l.ptrAdd_one, bind, Except.bind, later,
        if_neg (show 'l'.toUInt8 ≠ 'd'.toUInt8 by decide), if_true]
      rw [length_container]
      congr 2
      omega
  | dict pairs keys values ih =>
      intro fuel p rest at_p enough
      have at_d : buffer.Rest p ('d'.toUInt8 ::
          ((pairElems pairs).flatten ++ 'e'.toUInt8 :: rest)) := by
        simpa [container] using at_p
      rw [length_container] at enough
      obtain ⟨fuel, rfl⟩ := Nat.exists_eq_add_one_of_ne_zero (show fuel ≠ 0 by omega)
      have later := bencValidateElems_dict_complete fuel 1 pairs keys values
        ih (by omega) (by omega) at_d.next (by omega)
      simp only [bencValidateAux, at_d.read_eq, at_d.ptrAdd_one, bind, Except.bind, later,
        if_true]
      rw [length_container]
      congr 2
      omega

/-! ## Soundness -/

/-- A left-to-right scan of the buffer meets a string whose length overruns
what is left, and the 64-bit sum of the address of its colon and that length
nevertheless wraps to an address the bound check lets through. -/
def WrappedLength (buffer : Buffer) : Prop :=
  ∃ before ds rest, Opens before ∧ IsDigits ds ∧
    buffer.bytes = before ++ (ds ++ ':'.toUInt8 :: rest) ∧
    rest.length < digitsVal ds ∧
    ptrAdd (buffer.base + before.length + ds.length) (digitsVal ds) ≤ buffer.stop - 1

theorem ptrAdd_mod (p k : Nat) : ptrAdd p (k % wordSize) = ptrAdd p k := by
  simp [ptrAdd, Nat.add_mod]

/-- The result `r` of a validation at `p` is null or the last byte of a value
at the start of `tail`. -/
def SoundResult (p : Nat) (tail : List UInt8) (r : Option Nat) : Prop :=
  ∀ q, r = some q → ∃ x rest, tail = x ++ rest ∧ Value x ∧ q = p + x.length - 1

theorem bencValidateStr_sound (noWrap : ¬ WrappedLength buffer)
    {before tail : List UInt8} (opens : Opens before)
    (bytesEq : buffer.bytes = before ++ tail) {c : UInt8} {xs : List UInt8}
    (tailEq : tail = c :: xs) (digit : isdigit c = true) {fuel : Nat}
    (enough : tail.length < fuel) :
    ∃ r, bencValidateStr buffer (buffer.stop - 1) fuel (buffer.base + before.length) =
        .ok r ∧ SoundResult (buffer.base + before.length) tail r := by
  have at_p := Buffer.rest_of_split before tail bytesEq
  obtain ⟨ds, rest, splitEq, digits, noDigit⟩ := exists_digit_prefix tail
  have nonempty : ds ≠ [] := by
    rintro rfl
    have := noDigit c xs (by rw [← tailEq, splitEq]; rfl)
    rw [digit] at this
    cases this
  subst splitEq
  rw [List.length_append] at enough
  by_cases colon : ∃ rest', rest = ':'.toUInt8 :: rest'
  · obtain ⟨rest, rfl⟩ := colon
    refine ⟨_, bencValidateStr_colon at_p digits (by omega), ?_⟩
    rw [ptrAdd_mod]
    intro q resultEq
    split at resultEq
    · rename_i passes
      cases resultEq
      have fits : digitsVal ds ≤ rest.length := by
        by_contra overrun
        exact noWrap ⟨before, ds, rest, opens, ⟨nonempty, digits⟩, bytesEq, by omega, passes⟩
      have insideWord := at_p.held.add_length_lt
      simp only [List.length_append, List.length_cons] at insideWord
      refine ⟨ds ++ ':'.toUInt8 :: rest.take (digitsVal ds), rest.drop (digitsVal ds),
        by simp, .str ⟨ds, _, ⟨nonempty, digits⟩, by simp [fits]⟩, ?_⟩
      rw [ptrAdd_of_lt (by omega)]
      simp only [List.length_append, List.length_cons, List.length_take,
        Nat.min_eq_left fits]
      omega
    · cases resultEq
  · refine ⟨none, bencValidateStr_other at_p digits noDigit
      (fun rest' restEq => colon ⟨rest', restEq⟩) (by omega), by simp [SoundResult]⟩

/-- The bytes `consumed` are an opened container with some complete elements,
and `d` is what the element loop has counted. -/
inductive Inside : List UInt8 → Nat → Prop
  | list (elems : List (List UInt8)) (values : ∀ x ∈ elems, Value x) :
      Inside ('l'.toUInt8 :: elems.flatten) 0
  | key (pairs : List (List UInt8 × List UInt8))
      (keys : ∀ pair ∈ pairs, Str pair.1) (values : ∀ pair ∈ pairs, Value pair.2) :
      Inside ('d'.toUInt8 :: (pairElems pairs).flatten) (2 * pairs.length + 1)
  | value (pairs : List (List UInt8 × List UInt8))
      (keys : ∀ pair ∈ pairs, Str pair.1) (values : ∀ pair ∈ pairs, Value pair.2)
      {k : List UInt8} (string : Str k) :
      Inside ('d'.toUInt8 :: ((pairElems pairs).flatten ++ k)) (2 * pairs.length + 2)

namespace Inside

variable {consumed : List UInt8} {d : Nat}

theorem opens {before : List UInt8} (outer : Opens before) (inside : Inside consumed d) :
    Opens (before ++ consumed) := by
  cases inside with
  | list elems values => exact .element outer elems values
  | key pairs keys values => exact .key outer pairs keys values
  | value pairs keys values string => exact .value outer pairs keys values string

/-- A list, or a dictionary that is not left with a key alone, may close. -/
theorem close (inside : Inside consumed d) (even : ¬ (d ≠ 0 ∧ d % 2 ≠ 1)) :
    Value (consumed ++ ['e'.toUInt8]) := by
  cases inside with
  | list elems values => exact .list elems values
  | key pairs keys values => exact .dict pairs keys values
  | value pairs keys values string => exact absurd ⟨by omega, by omega⟩ even

theorem step {x : List UInt8} (inside : Inside consumed d) (valueX : Value x)
    (isKey : d ≠ 0 → d % 2 = 1 → Str x) :
    Inside (consumed ++ x) (if d ≠ 0 then d + 1 else d) := by
  cases inside with
  | list elems values =>
      have more := Inside.list (elems ++ [x]) (by
        intro y mem
        rcases List.mem_append.mp mem with mem | mem
        · exact values y mem
        · rw [List.mem_singleton.mp mem]
          exact valueX)
      simpa using more
  | key pairs keys values =>
      have string := isKey (by omega) (by omega)
      simpa using Inside.value pairs keys values string
  | @value pairs keys values k string =>
      have more := Inside.key (pairs ++ [(k, x)])
        (by
          intro pair mem
          rcases List.mem_append.mp mem with mem | mem
          · exact keys pair mem
          · rw [List.mem_singleton.mp mem]
            exact string)
        (by
          intro pair mem
          rcases List.mem_append.mp mem with mem | mem
          · exact values pair mem
          · rw [List.mem_singleton.mp mem]
            exact valueX)
      rw [pairElems_append] at more
      simpa [Nat.mul_add] using more

theorem length_pairElems_flatten {pairs : List (List UInt8 × List UInt8)}
    (keys : ∀ pair ∈ pairs, Str pair.1) (values : ∀ pair ∈ pairs, Value pair.2) :
    2 * pairs.length ≤ (pairElems pairs).flatten.length := by
  induction pairs with
  | nil => simp
  | cons pair pairs ih =>
      have keyLength := (keys pair (by simp)).length_pos
      have valueLength := (values pair (by simp)).length_pos
      have later := ih (fun pair mem => keys pair (List.mem_cons_of_mem _ mem))
        (fun pair mem => values pair (List.mem_cons_of_mem _ mem))
      simp only [pairElems_cons, List.flatten_cons, List.length_append, List.length_cons]
      omega

/-- The counter is at most the number of bytes gone by. -/
theorem le_length (inside : Inside consumed d) : d ≤ consumed.length := by
  cases inside with
  | list elems values => omega
  | key pairs keys values =>
      have := length_pairElems_flatten keys values
      simp only [List.length_cons]
      omega
  | value pairs keys values string =>
      have := length_pairElems_flatten keys values
      have := string.length_pos
      simp only [List.length_cons, List.length_append]
      omega

end Inside

/-- What the two mutually recursive routines guarantee with a given fuel when
the scan so far has followed the grammar. -/
structure ScanSound (buffer : Buffer) (fuel : Nat) : Prop where
  aux : ∀ before tail, Opens before → buffer.bytes = before ++ tail → tail ≠ [] →
    2 * tail.length + 1 ≤ fuel →
    ∃ r, bencValidateAux buffer (buffer.stop - 1) fuel (buffer.base + before.length) = .ok r ∧
      SoundResult (buffer.base + before.length) tail r
  elems : ∀ before consumed d tail, Opens before → Inside consumed d →
    buffer.bytes = before ++ (consumed ++ tail) → 2 * tail.length + 2 ≤ fuel →
    ∃ r, bencValidateElems buffer (buffer.stop - 1) fuel d
        (buffer.base + before.length + consumed.length) = .ok r ∧
      SoundResult (buffer.base + before.length) (consumed ++ tail) r

theorem soundResult_none (p : Nat) (tail : List UInt8) : SoundResult p tail none := by
  simp [SoundResult]

theorem bencValidateElems_sound {fuel : Nat} (ih : ScanSound buffer fuel)
    (before consumed : List UInt8) (d : Nat) (tail : List UInt8) (outer : Opens before)
    (inside : Inside consumed d) (bytesEq : buffer.bytes = before ++ (consumed ++ tail))
    (enough : 2 * tail.length + 2 ≤ fuel + 1) :
    ∃ r, bencValidateElems buffer (buffer.stop - 1) (fuel + 1) d
        (buffer.base + before.length + consumed.length) = .ok r ∧
      SoundResult (buffer.base + before.length) (consumed ++ tail) r := by
  have at_p : buffer.Rest (buffer.base + before.length + consumed.length) tail :=
    (Buffer.rest_of_split before _ bytesEq).drop
  cases tail with
  | nil => exact ⟨none, by simp [bencValidateElems, at_p.last_lt, pure, Except.pure],
      soundResult_none _ _⟩
  | cons c xs =>
      simp only [bencValidateElems, if_pos at_p.le_last, at_p.read_eq, bind, Except.bind,
        pure, Except.pure]
      split
      · rename_i closes
        subst closes
        split
        · exact ⟨none, rfl, soundResult_none _ _⟩
        · rename_i even
          refine ⟨_, rfl, ?_⟩
          rintro q ⟨rfl⟩
          exact ⟨consumed ++ ['e'.toUInt8], xs, by simp, inside.close even, by simp⟩
      · split
        · exact ⟨none, rfl, soundResult_none _ _⟩
        · rename_i notClose keyDigit
          obtain ⟨r, result, sound⟩ := ih.aux (before ++ consumed) (c :: xs)
            (inside.opens outer) (by simpa using bytesEq) (by simp) (by omega)
          rw [List.length_append, ← Nat.add_assoc] at result sound
          rw [result]
          cases r with
          | none => exact ⟨none, rfl, soundResult_none _ _⟩
          | some q =>
              obtain ⟨x, rest, tailEq, value, rfl⟩ := sound q rfl
              have nonempty := value.length_pos
              have insideWord := at_p.held.add_length_lt
              have lengthEq : (c :: xs).length = x.length + rest.length := by
                rw [tailEq, List.length_append]
              have isKey : d ≠ 0 → d % 2 = 1 → Str x := by
                intro nonzero odd
                obtain ⟨c', xs', rfl, -⟩ := value.head
                cases tailEq
                cases digit : isdigit c with
                | true => exact value.str_of_isdigit digit
                | false => exact absurd ⟨nonzero, odd, digit⟩ keyDigit
              have counted := inside.le_length
              have next := inside.step value isKey
              have following :
                  ptrAdd (buffer.base + before.length + consumed.length + x.length - 1) 1 =
                    buffer.base + before.length + (consumed ++ x).length := by
                rw [ptrAdd_of_lt (by omega), List.length_append]
                omega
              have noWrap : (if d ≠ 0 then (d + 1) % wordSize else d) =
                  if d ≠ 0 then d + 1 else d := by
                rw [Nat.mod_eq_of_lt (by omega)]
              simp only [following, noWrap]
              rw [tailEq, ← List.append_assoc]
              exact ih.elems before (consumed ++ x) _ rest outer next
                (by rw [bytesEq, tailEq, List.append_assoc]) (by omega)

theorem bencValidateAux_sound (noWrap : ¬ WrappedLength buffer) {fuel : Nat}
    (ih : ScanSound buffer fuel) (before tail : List UInt8) (opens : Opens before)
    (bytesEq : buffer.bytes = before ++ tail) (nonempty : tail ≠ [])
    (enough : 2 * tail.length + 1 ≤ fuel + 1) :
    ∃ r, bencValidateAux buffer (buffer.stop - 1) (fuel + 1)
        (buffer.base + before.length) = .ok r ∧
      SoundResult (buffer.base + before.length) tail r := by
  have at_p := Buffer.rest_of_split before tail bytesEq
  obtain ⟨c, xs, rfl⟩ := List.exists_cons_of_ne_nil nonempty
  simp only [List.length_cons] at enough
  simp only [bencValidateAux, at_p.read_eq, at_p.ptrAdd_one, bind, Except.bind]
  split
  · rename_i isDict
    subst isDict
    exact ih.elems before _ 1 xs opens (.key [] (by simp) (by simp)) bytesEq (by omega)
  split
  · rename_i isList
    subst isList
    exact ih.elems before _ 0 xs opens (.list [] (by simp)) bytesEq (by omega)
  split
  · rename_i isInt
    subst isInt
    obtain ⟨r, result, sound⟩ := bencValidateInt_sound fuel at_p.next (by omega)
    refine ⟨r, result, fun q rEq => ?_⟩
    obtain ⟨negative, ds, rest, rfl, digits, rfl⟩ := sound q rEq
    refine ⟨integer negative ds, rest, by simp [integer, sign], .int negative ds digits, ?_⟩
    simp [integer, sign]
    omega
  split
  · rename_i digit
    exact bencValidateStr_sound noWrap opens bytesEq rfl digit (by
      simp only [List.length_cons]
      omega)
  · exact ⟨none, rfl, soundResult_none _ _⟩

/-- Induction on the fuel: every routine calls the others with one less. -/
theorem scanSound (noWrap : ¬ WrappedLength buffer) (fuel : Nat) : ScanSound buffer fuel := by
  induction fuel with
  | zero =>
      constructor
      · intro before tail _ _ nonempty enough
        have := List.length_pos_of_ne_nil nonempty
        omega
      · intro before consumed d tail _ _ _ enough
        omega
  | succ fuel ih => exact ⟨bencValidateAux_sound noWrap ih, bencValidateElems_sound ih⟩

/-! ## The validator as a whole -/

/-- The validator terminates on the buffer, reads only the buffer, and returns
zero exactly for a value of the grammar. -/
def ValidatesGrammar (buffer : Buffer) : Prop :=
  ∃ bound, ∀ fuel, bound ≤ fuel → ∃ result, bencValidate buffer fuel = .ok result ∧
    (result = 0 ↔ Value buffer.bytes)

/-- A buffer that holds one value is accepted, whatever its address. -/
theorem bencValidate_of_value (value : Value buffer.bytes) {fuel : Nat}
    (enough : 2 * buffer.bytes.length ≤ fuel) : bencValidate buffer fuel = .ok 0 := by
  have nonempty := value.length_pos
  have whole : buffer.Rest buffer.base (buffer.bytes ++ []) := by
    simpa using Buffer.rest_of_split [] buffer.bytes rfl
  have recognised := value.recognised fuel buffer.base [] whole enough
  simp only [Buffer.stop] at recognised
  simp [bencValidate, Nat.ne_of_gt nonempty, recognised, bind, Except.bind, pure, Except.pure]

/-- With no wrapped string length, an accepted buffer holds one value. -/
theorem bencValidate_sound (noWrap : ¬ WrappedLength buffer) {fuel : Nat}
    (enough : 2 * buffer.bytes.length + 1 ≤ fuel) :
    ∃ result, bencValidate buffer fuel = .ok result ∧ (result = 0 → Value buffer.bytes) := by
  by_cases empty : buffer.bytes.length = 0
  · exact ⟨EINVAL, by simp [bencValidate, empty, pure, Except.pure], by simp [EINVAL]⟩
  · obtain ⟨r, result, sound⟩ := (scanSound noWrap fuel).aux [] buffer.bytes .start rfl
      (by rintro nil; simp [nil] at empty) enough
    simp only [List.length_nil, Nat.add_zero, Buffer.stop] at result sound
    refine ⟨if r = some (buffer.base + buffer.bytes.length - 1) then 0 else EINVAL,
      by simp only [bencValidate, if_neg empty, result, bind, Except.bind, pure,
        Except.pure], ?_⟩
    intro accepted
    split at accepted
    · rename_i rEq
      obtain ⟨x, rest, splitEq, value, lastEq⟩ := sound _ rEq
      have lengthEq := congrArg List.length splitEq
      have valueLength := value.length_pos
      rw [List.length_append] at lengthEq
      have restNil : rest = [] := List.length_eq_zero_iff.mp (by omega)
      rw [splitEq, restNil, List.append_nil]
      exact value
    · cases accepted

/-- The validator decides the grammar on every buffer in which no string
length wraps past its bound check. -/
theorem bencValidate_validatesGrammar (buffer : Buffer) (noWrap : ¬ WrappedLength buffer) :
    ValidatesGrammar buffer := by
  refine ⟨2 * buffer.bytes.length + 1, fun fuel enough => ?_⟩
  obtain ⟨result, resultEq, sound⟩ := bencValidate_sound noWrap enough
  refine ⟨result, resultEq, sound, fun value => ?_⟩
  rw [bencValidate_of_value value (by omega)] at resultEq
  cases resultEq
  rfl

/-! ## Where the bound check wraps -/

/-- Twenty digits are needed to wrap a pointer, so short buffers are safe. -/
theorem not_wrappedLength_of_short
    (short : buffer.stop + 10 ^ buffer.bytes.length ≤ wordSize) :
    ¬ WrappedLength buffer := by
  rintro ⟨before, ds, rest, -, digits, bytesEq, overrun, passes⟩
  have lengthEq := congrArg List.length bytesEq
  simp only [List.length_append, List.length_cons] at lengthEq
  have small : digitsVal ds < 10 ^ buffer.bytes.length :=
    Nat.lt_of_lt_of_le (digitsVal_lt digits.2)
      (Nat.pow_le_pow_right (by omega) (by omega))
  have stopEq : buffer.stop = buffer.base + buffer.bytes.length := rfl
  rw [ptrAdd_of_lt (by omega)] at passes
  omega

/-- `4:spam` -/
def spamBuffer : Buffer where
  base := 4096
  bytes := ['4', ':', 's', 'p', 'a', 'm'].map Char.toUInt8
  base_pos := page_pos
  fits := by decide

theorem validatesGrammar_spam : ¬ WrappedLength spamBuffer ∧ ValidatesGrammar spamBuffer := by
  have noWrap : ¬ WrappedLength spamBuffer := not_wrappedLength_of_short (by decide)
  exact ⟨noWrap, bencValidate_validatesGrammar spamBuffer noWrap⟩

/-- `18446744073709551617:a`, a string whose length is `2 ^ 64 + 1`. -/
def wrappedBuffer : Buffer where
  base := 4096
  bytes := ("18446744073709551617:a".toList).map Char.toUInt8
  base_pos := page_pos
  fits := by decide

theorem bencValidate_wrappedBuffer (fuel : Nat) :
    bencValidate wrappedBuffer (fuel + 30) = .ok 0 :=
  rfl

theorem not_value_wrappedBuffer : ¬ Value wrappedBuffer.bytes := by
  intro value
  have string : Str wrappedBuffer.bytes := value.str_of_isdigit (by decide)
  generalize bytesEq : wrappedBuffer.bytes = x at string
  obtain ⟨ds, bs, digits, lengthEq⟩ := string
  have splitEq : ("18446744073709551617".toList).map Char.toUInt8 ++
      ':'.toUInt8 :: ['a'.toUInt8] = ds ++ ':'.toUInt8 :: bs := bytesEq
  obtain ⟨rfl, rfl⟩ := digits_colon_unique (by decide +kernel) digits.2 splitEq
  exact absurd lengthEq (by decide)

/-- The length `2 ^ 64 + 1` is taken for one, and a string of one byte is
accepted in its place. -/
theorem not_validatesGrammar_wrappedBuffer : ¬ ValidatesGrammar wrappedBuffer := by
  rintro ⟨bound, returns⟩
  obtain ⟨result, resultEq, iff⟩ := returns (bound + 30) (Nat.le_add_right _ _)
  rw [bencValidate_wrappedBuffer] at resultEq
  cases resultEq
  exact not_value_wrappedBuffer (iff.mp rfl)

end Btpd.Benc
