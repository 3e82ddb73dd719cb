import Btpd.Benc.Access
import Btpd.Benc.Grammar

/-!
# The accessors on values of the grammar

Each accessor is computed on a value of the grammar that lies anywhere in a
buffer, whatever surrounds it.  `strtoul` does not saturate there and no
pointer wraps, because the value itself fits in the buffer.
-/

namespace Btpd.Benc

variable {buffer : Buffer}

namespace Buffer.Holds

variable {p : Nat} {xs : List UInt8} {c : UInt8}

theorem ptrAdd_one (held : buffer.Holds p (c :: xs)) : ptrAdd p 1 = p + 1 := by
  apply ptrAdd_of_lt
  have := held.add_length_lt
  simp only [List.length_cons] at this
  omega

theorem ptrAdd_length (held : buffer.Holds p xs) : ptrAdd p xs.length = p + xs.length :=
  ptrAdd_of_lt held.add_length_lt

end Buffer.Holds

/-! ## Strings -/

theorem readDigits_eq {fuel p : Nat} {ds rest : List UInt8} {c : UInt8} (acc : Nat)
    (held : buffer.Holds p (ds ++ c :: rest)) (digits : ∀ d ∈ ds, isdigit d = true)
    (notDigit : isdigit c = false) (enough : ds.length < fuel) :
    readDigits buffer fuel p acc = .ok (appendDigits acc ds, p + ds.length) := by
  obtain ⟨fuel, rfl⟩ := Nat.exists_eq_add_one_of_ne_zero (show fuel ≠ 0 by omega)
  induction ds generalizing fuel p acc with
  | nil =>
      have at_c : buffer.Holds p (c :: rest) := held
      simp [readDigits, at_c.read_eq, notDigit, bind, Except.bind, pure, Except.pure]
  | cons d ds ih =>
      simp only [List.length_cons] at enough
      obtain ⟨fuel, rfl⟩ := Nat.exists_eq_add_one_of_ne_zero (show fuel ≠ 0 by omega)
      rw [readDigits, held.read_eq]
      simp only [bind, Except.bind, digits d (by simp), if_true, held.ptrAdd_one]
      rw [ih _ held.tail (fun d' mem => digits d' (List.mem_cons_of_mem _ mem)) fuel
        (by omega), appendDigits_cons, List.length_cons]
      congr 2
      omega

/-- The header of a string is read in full: its length, which is below
`ULONG_MAX`, and the address of its colon. -/
theorem bencMemHead_eq {fuel p : Nat} {ds bs : List UInt8}
    (held : buffer.Holds p (ds ++ ':'.toUInt8 :: bs)) (digits : IsDigits ds)
    (lengthEq : digitsVal ds = bs.length) (enough : ds.length < fuel) :
    bencMemHead buffer fuel p = .ok (bs.length, p + ds.length) := by
  have scanned := readDigits_eq 0 held digits.2 isdigit_colon enough
  have colon := held.right
  have insideWord := held.add_length_lt
  have insideMax : bs.length ≤ ULONG_MAX := by
    simp only [List.length_append, List.length_cons] at insideWord
    unfold ULONG_MAX
    omega
  have value : appendDigits 0 ds = bs.length := lengthEq
  simp only [bencMemHead, strtoul, scanned, bind, Except.bind, pure, Except.pure,
    value, Nat.min_eq_left insideMax, colon.read_eq, if_true]

theorem bencIsstr_of_digits {p : Nat} {ds rest : List UInt8}
    (held : buffer.Holds p (ds ++ rest)) (digits : IsDigits ds) :
    bencIsstr buffer p = .ok true := by
  obtain ⟨nonempty, allDigits⟩ := digits
  obtain ⟨c, tail, rfl⟩ := List.exists_cons_of_ne_nil nonempty
  have at_c : buffer.Holds p (c :: (tail ++ rest)) := held
  simp [bencIsstr, at_c.read_eq, allDigits, bind, Except.bind, pure, Except.pure]

theorem bencMem_eq {fuel p : Nat} {ds bs : List UInt8}
    (held : buffer.Holds p (ds ++ ':'.toUInt8 :: bs)) (digits : IsDigits ds)
    (lengthEq : digitsVal ds = bs.length) (enough : ds.length < fuel) :
    bencMem buffer fuel p = .ok (some (p + ds.length + 1, bs.length)) := by
  simp only [bencMem, bencIsstr_of_digits held digits, bind, Except.bind, if_true,
    bencMemHead_eq held digits lengthEq enough, held.right.ptrAdd_one, pure, Except.pure]

/-- The address that follows an element, as `benc_next` and `benc_mem` report
it: null before the byte that closes the container. -/
def nextElem (p : Nat) (c : UInt8) : Option Nat :=
  if c = 'e'.toUInt8 then none else some p

theorem bencMemNext_eq {fuel p : Nat} {ds bs rest : List UInt8} {c : UInt8}
    (held : buffer.Holds p (ds ++ ':'.toUInt8 :: bs ++ c :: rest)) (digits : IsDigits ds)
    (lengthEq : digitsVal ds = bs.length) (enough : ds.length < fuel) :
    bencMemNext buffer fuel p = .ok (some (p + ds.length + 1, bs.length,
      nextElem (p + (ds ++ ':'.toUInt8 :: bs).length) c)) := by
  have header := bencMemHead_eq held.left digits lengthEq enough
  have following := held.right
  have insideWord := following.add_length_lt
  have lengths : (ds ++ ':'.toUInt8 :: bs).length = ds.length + (bs.length + 1) := by
    simp
  rw [lengths] at following insideWord ⊢
  have address : ptrAdd (p + ds.length) (bs.length + 1) = p + (ds.length + (bs.length + 1)) := by
    rw [ptrAdd_of_lt (by omega)]
    omega
  simp only [bencMemNext, bencIsstr_of_digits held.left digits, bind, Except.bind, if_true,
    header, held.left.right.ptrAdd_one, address, following.read_eq, pure, Except.pure, nextElem]

/-! ## Lengths -/

theorem bencIntEnd_eq (fuel : Nat) {p : Nat} {xs rest : List UInt8}
    (held : buffer.Holds p (xs ++ 'e'.toUInt8 :: rest)) (noE : 'e'.toUInt8 ∉ xs)
    (enough : xs.length < fuel) :
    bencIntEnd buffer fuel p = .ok (p + xs.length) := by
  obtain ⟨fuel, rfl⟩ := Nat.exists_eq_add_one_of_ne_zero (show fuel ≠ 0 by omega)
  induction xs generalizing fuel p with
  | nil =>
      have at_e : buffer.Holds p ('e'.toUInt8 :: rest) := held
      simp [bencIntEnd, at_e.read_eq, bind, Except.bind, pure, Except.pure]
  | cons c xs ih =>
      simp only [List.length_cons] at enough
      obtain ⟨fuel, rfl⟩ := Nat.exists_eq_add_one_of_ne_zero (show fuel ≠ 0 by omega)
      have notE : c ≠ 'e'.toUInt8 := fun equal => noE (by simp [equal])
      rw [bencIntEnd, held.read_eq]
      simp only [bind, Except.bind, if_neg notE, held.ptrAdd_one]
      rw [ih held.tail (fun mem => noE (List.mem_cons_of_mem _ mem)) fuel (by omega),
        List.length_cons]
      congr 1
      omega

theorem e_not_mem_integer {negative : Bool} {ds : List UInt8} (digits : IsDigits ds) :
    'e'.toUInt8 ∉ (if negative then ['-'.toUInt8] else []) ++ ds := by
  intro mem
  rcases List.mem_append.mp mem with mem | mem
  · revert mem
    cases negative <;> decide
  · exact absurd (digits.2 _ mem) (by decide)

/-- Pointer difference plus a `size_t`, for an address at or after `p`. -/
theorem sub_word (p k n : Nat) (h : k + n < wordSize) :
    (p + k + wordSize - p + n) % wordSize = k + n := by
  have : p + k + wordSize - p + n = k + n + wordSize := by omega
  rw [this, Nat.add_mod_right, Nat.mod_eq_of_lt h]

/-- `benc_length` measures `x` wherever it lies. -/
def Measured (buffer : Buffer) (x : List UInt8) : Prop :=
  ∀ fuel p, buffer.Holds p x → 2 * x.length ≤ fuel → bencLength buffer fuel p = .ok x.length

theorem measured_of_str {x : List UInt8} (string : Str x) : Measured buffer x := by
  intro fuel p held enough
  obtain ⟨c, tail, xEq, digit⟩ := string.head_isdigit
  obtain ⟨ds, bs, digits, lengthEq⟩ := string
  simp only [List.length_append, List.length_cons] at enough
  obtain ⟨fuel, rfl⟩ := Nat.exists_eq_add_one_of_ne_zero (show fuel ≠ 0 by omega)
  have readEq : buffer.read p = .ok c := (xEq ▸ held).read_eq
  have notOpener : ¬ (c = 'd'.toUInt8 ∨ c = 'l'.toUInt8) ∧ c ≠ 'i'.toUInt8 := by
    refine ⟨?_, ?_⟩
    · rintro (rfl | rfl) <;> (revert digit; decide)
    · rintro rfl
      revert digit
      decide
  have insideWord := held.add_length_lt
  simp only [List.length_append, List.length_cons] at insideWord
  simp only [bencLength, readEq, bind, Except.bind, if_neg notOpener.1, if_neg notOpener.2,
    bencMem_eq held digits lengthEq (show ds.length < fuel by omega), pure, Except.pure]
  rw [Nat.add_assoc p, sub_word _ _ _ (by omega)]
  simp only [List.length_append, List.length_cons]
  congr 1
  omega

theorem bencLengthElems_eq (fuel blen : Nat) (elems : List (List UInt8))
    (values : ∀ x ∈ elems, Value x) (measured : ∀ x ∈ elems, Measured buffer x)
    {p : Nat} {rest : List UInt8}
    (held : buffer.Holds p (elems.flatten ++ 'e'.toUInt8 :: rest))
    (enough : 2 * elems.flatten.length + 1 ≤ fuel) (small : blen ≤ p + 1) :
    bencLengthElems buffer fuel p blen = .ok (blen + elems.flatten.length) := by
  obtain ⟨fuel, rfl⟩ := Nat.exists_eq_add_one_of_ne_zero (show fuel ≠ 0 by omega)
  induction elems generalizing fuel p blen with
  | nil =>
      have at_e : buffer.Holds p ('e'.toUInt8 :: rest) := held
      simp [bencLengthElems, at_e.read_eq, bind, Except.bind, pure, Except.pure]
  | cons x elems ih =>
      have at_x : buffer.Holds p (x ++ (elems.flatten ++ 'e'.toUInt8 :: rest)) := by
        simpa using held
      have value := values x (by simp)
      have nonempty := value.length_pos
      have insideWord := held.add_length_lt
      simp only [List.flatten_cons, List.length_append, List.length_cons] at enough insideWord
      obtain ⟨fuel, rfl⟩ := Nat.exists_eq_add_one_of_ne_zero (show fuel ≠ 0 by omega)
      have len := measured x (by simp) (fuel + 1) p at_x.left (by omega)
      have address := at_x.left.ptrAdd_length
      have later := ih (blen + x.length) (fun y mem => values y (List.mem_cons_of_mem _ mem))
        (fun y mem => measured y (List.mem_cons_of_mem _ mem)) at_x.right (by omega) fuel
        (by omega)
      obtain ⟨c, tail, rfl, -⟩ := value.head
      have readEq : buffer.read p = .ok c := at_x.read_eq
      rw [bencLengthElems, readEq]
      simp only [bind, Except.bind, if_neg value.head_ne_e, len]
      rw [address, Nat.mod_eq_of_lt (by omega), later, List.flatten_cons, List.length_append,
        Nat.add_assoc]

/-- The length of a container is counted from the two bytes around it. -/
theorem measured_of_container {opener : UInt8} {elems : List (List UInt8)}
    (isOpener : opener = 'd'.toUInt8 ∨ opener = 'l'.toUInt8)
    (values : ∀ x ∈ elems, Value x) (measured : ∀ x ∈ elems, Measured buffer x) :
    Measured buffer (container opener elems) := by
  intro fuel p held enough
  have inner : buffer.Holds (p + 1) (elems.flatten ++ 'e'.toUInt8 :: []) :=
    (show buffer.Holds p (opener :: (elems.flatten ++ ['e'.toUInt8])) from held).tail
  have at_p : buffer.Holds p (opener :: (elems.flatten ++ ['e'.toUInt8])) := held
  have positive := buffer.base_pos
  have afterBase := held.base_le
  rw [length_container] at enough ⊢
  obtain ⟨fuel, rfl⟩ := Nat.exists_eq_add_one_of_ne_zero (show fuel ≠ 0 by omega)
  have counted := bencLengthElems_eq fuel 2 elems values measured inner
    (by omega) (by omega)
  rw [bencLength, at_p.read_eq]
  simp only [bind, Except.bind, if_pos isOpener, at_p.ptrAdd_one, counted]
  congr 1
  omega

/-- `benc_length` is right on every value of the grammar. -/
theorem Value.measured {x : List UInt8} (value : Value x) : Measured buffer x := by
  induction value with
  | str string => exact measured_of_str string
  | int negative ds digits =>
      intro fuel p held enough
      generalize signEq : (if negative then ['-'.toUInt8] else []) = s
      have noE : 'e'.toUInt8 ∉ s ++ ds := signEq ▸ e_not_mem_integer digits
      have at_i : buffer.Holds p ('i'.toUInt8 :: ((s ++ ds) ++ 'e'.toUInt8 :: [])) := by
        simpa [integer, signEq] using held
      have lengthEq : (integer negative ds).length = (s ++ ds).length + 2 := by
        simp [integer, signEq, Nat.add_assoc]
      have insideWord := at_i.add_length_lt
      simp only [List.length_cons, List.length_append, List.length_nil] at insideWord
      rw [lengthEq] at enough ⊢
      simp only [List.length_append] at enough
      obtain ⟨fuel, rfl⟩ := Nat.exists_eq_add_one_of_ne_zero (show fuel ≠ 0 by omega)
      have closing := bencIntEnd_eq fuel at_i.tail noE (by
        simp only [List.length_append]
        omega)
      have notContainer : ¬ ('i'.toUInt8 = 'd'.toUInt8 ∨ 'i'.toUInt8 = 'l'.toUInt8) := by
        decide
      rw [bencLength, at_i.read_eq]
      simp only [bind, Except.bind, if_neg notContainer, at_i.ptrAdd_one, closing, pure,
        Except.pure, if_true, List.length_append]
      rw [Nat.add_assoc p 1, sub_word _ _ _ (by omega)]
      congr 1
      omega
  | list elems values ih => exact measured_of_container (.inr rfl) values ih
  | dict pairs keys values ih =>
      refine measured_of_container (.inl rfl)
        (fun x mem => value_of_mem_pairElems keys values mem) (fun x mem => ?_)
      simp only [pairElems, List.mem_flatMap, List.mem_cons, List.not_mem_nil, or_false] at mem
      obtain ⟨pair, pairMem, rfl | rfl⟩ := mem
      · exact measured_of_str (keys pair pairMem)
      · exact ih pair pairMem

/-! ## Walking a container -/

theorem bencNext_eq {fuel p : Nat} {x rest : List UInt8} {c : UInt8} (value : Value x)
    (held : buffer.Holds p (x ++ c :: rest)) (enough : 2 * x.length ≤ fuel) :
    bencNext buffer fuel p = .ok (nextElem (p + x.length) c) := by
  simp only [bencNext, value.measured fuel p held.left enough, bind, Except.bind,
    held.left.ptrAdd_length, held.right.read_eq, pure, Except.pure, nextElem]

theorem bencFirst_eq {p : Nat} {opener c : UInt8} {rest : List UInt8}
    (isOpener : opener = 'd'.toUInt8 ∨ opener = 'l'.toUInt8)
    (held : buffer.Holds p (opener :: c :: rest)) :
    bencFirst buffer p = .ok (nextElem (p + 1) c) := by
  have isList : (opener = 'l'.toUInt8 || opener = 'd'.toUInt8) = true := by
    rcases isOpener with rfl | rfl <;> decide
  simp only [bencFirst, bencIslst, held.read_eq, bind, Except.bind, pure, Except.pure, isList,
    if_true, held.ptrAdd_one, held.tail.read_eq, nextElem]

/-- The addresses of consecutive elements, the first of which lies at `p`. -/
def addresses (p : Nat) : List (List UInt8) → List Nat
  | [] => []
  | x :: elems => p :: addresses (p + x.length) elems

/-- The element at `p` that a walk over `elems` continues with. -/
def startOf (p : Nat) (elems : List (List UInt8)) : Option Nat :=
  match elems with
  | [] => none
  | _ :: _ => some p

/-- The first byte of the rest of a container tells whether an element
follows. -/
theorem exists_nextElem (p : Nat) (elems : List (List UInt8)) (rest : List UInt8)
    (values : ∀ x ∈ elems, Value x) :
    ∃ c tail, elems.flatten ++ 'e'.toUInt8 :: rest = c :: tail ∧
      nextElem p c = startOf p elems := by
  cases elems with
  | nil => exact ⟨'e'.toUInt8, rest, rfl, rfl⟩
  | cons x elems =>
      have value := values x (by simp)
      obtain ⟨c, tail, rfl, -⟩ := value.head
      exact ⟨c, tail ++ (elems.flatten ++ 'e'.toUInt8 :: rest), by simp,
        if_neg value.head_ne_e⟩

/-- One turn of a loop over the elements of a container. -/
theorem bencNext_step (fuel : Nat) {p : Nat} {x rest : List UInt8} {elems : List (List UInt8)}
    (values : ∀ y ∈ x :: elems, Value y)
    (held : buffer.Holds p ((x :: elems).flatten ++ 'e'.toUInt8 :: rest))
    (enough : 2 * x.length ≤ fuel) :
    bencNext buffer fuel p = .ok (startOf (p + x.length) elems) := by
  obtain ⟨c, tail, tailEq, next⟩ := exists_nextElem (p + x.length) elems rest
    (fun y mem => values y (List.mem_cons_of_mem _ mem))
  have at_x : buffer.Holds p (x ++ c :: tail) := by
    rw [← tailEq]
    simpa using held
  rw [bencNext_eq (values x (by simp)) at_x enough, next]

/-- A loop over the elements of a container is a fold over their addresses. -/
theorem bencForeach_eq {σ : Type} {body : σ → Nat → Exec (Option σ)} (step : σ → Nat → σ)
    (elems : List (List UInt8)) (values : ∀ x ∈ elems, Value x)
    {fuel bound p : Nat} {rest : List UInt8}
    (held : buffer.Holds p (elems.flatten ++ 'e'.toUInt8 :: rest))
    (steps : ∀ s, ∀ q ∈ addresses p elems, body s q = .ok (some (step s q)))
    (enough : 2 * elems.flatten.length ≤ fuel) (turns : elems.length < bound) (s : σ) :
    bencForeach buffer fuel body bound (startOf p elems) s =
      .ok (some ((addresses p elems).foldl step s)) := by
  obtain ⟨bound, rfl⟩ := Nat.exists_eq_add_one_of_ne_zero (show bound ≠ 0 by omega)
  induction elems generalizing bound p s with
  | nil => rfl
  | cons x elems ih =>
      simp only [List.flatten_cons, List.length_append, List.length_cons] at enough turns
      obtain ⟨bound, rfl⟩ := Nat.exists_eq_add_one_of_ne_zero (show bound ≠ 0 by omega)
      have at_rest : buffer.Holds (p + x.length) (elems.flatten ++ 'e'.toUInt8 :: rest) :=
        Buffer.Holds.right (by simpa using held)
      have next := bencNext_step fuel values held (by omega)
      have now := steps s p (by simp [addresses])
      simp only [startOf, bencForeach, now, next, bind, Except.bind]
      exact ih (fun y mem => values y (List.mem_cons_of_mem _ mem)) at_rest
        (fun s q mem => steps s q (by simp [addresses, mem])) (by omega) _ bound (by omega)

theorem length_addresses (p : Nat) (elems : List (List UInt8)) :
    (addresses p elems).length = elems.length := by
  induction elems generalizing p with
  | nil => rfl
  | cons x elems ih => simp [addresses, ih]

/-- Elements take up at least one byte each. -/
theorem length_le_flatten {elems : List (List UInt8)} (values : ∀ x ∈ elems, Value x) :
    elems.length ≤ elems.flatten.length := by
  induction elems with
  | nil => simp
  | cons x elems ih =>
      have := (values x (by simp)).length_pos
      have := ih (fun y mem => values y (List.mem_cons_of_mem _ mem))
      simp only [List.flatten_cons, List.length_append, List.length_cons]
      omega

section Container

variable {opener : UInt8} {elems : List (List UInt8)} {fuel p : Nat}

theorem bencFirst_container (isOpener : opener = 'd'.toUInt8 ∨ opener = 'l'.toUInt8)
    (values : ∀ x ∈ elems, Value x) (held : buffer.Holds p (container opener elems)) :
    bencFirst buffer p = .ok (startOf (p + 1) elems) := by
  obtain ⟨c, tail, tailEq, next⟩ := exists_nextElem (p + 1) elems [] values
  have at_p : buffer.Holds p (opener :: c :: tail) := by
    rw [← tailEq]
    exact held
  rw [bencFirst_eq isOpener at_p, next]

theorem foldl_concat {α : Type} (seen xs : List α) :
    xs.foldl (fun seen q => seen ++ [q]) seen = seen ++ xs := by
  induction xs generalizing seen with
  | nil => simp
  | cons x xs ih => simp [ih]

theorem foldl_count {α : Type} (n : Nat) (xs : List α) :
    xs.foldl (fun n _ => n + 1) n = n + xs.length := by
  induction xs generalizing n with
  | nil => rfl
  | cons x xs ih =>
      rw [List.foldl_cons, ih, List.length_cons]
      omega

/-- The walk over a container meets its elements, in order. -/
theorem bencElems_container (isOpener : opener = 'd'.toUInt8 ∨ opener = 'l'.toUInt8)
    (values : ∀ x ∈ elems, Value x) (held : buffer.Holds p (container opener elems))
    (enough : 2 * (container opener elems).length ≤ fuel) :
    bencElems buffer fuel p = .ok (addresses (p + 1) elems) := by
  have inner : buffer.Holds (p + 1) (elems.flatten ++ 'e'.toUInt8 :: []) :=
    (show buffer.Holds p (opener :: (elems.flatten ++ ['e'.toUInt8])) from held).tail
  have atLeast := length_le_flatten values
  rw [length_container] at enough
  have walked : bencForeach buffer fuel (fun seen q => pure (some (seen ++ [q]))) fuel
      (startOf (p + 1) elems) [] = .ok (some ((addresses (p + 1) elems).foldl _ [])) :=
    bencForeach_eq (fun seen q => seen ++ [q]) elems values inner (fun _ _ _ => rfl)
      (by omega) (by omega) []
  rw [foldl_concat, List.nil_append] at walked
  rw [bencElems, bencFirst_container isOpener values held]
  show (bencForeach _ _ _ _ _ _ >>= _) = _
  rw [walked]
  rfl

theorem bencNelems_container (isOpener : opener = 'd'.toUInt8 ∨ opener = 'l'.toUInt8)
    (values : ∀ x ∈ elems, Value x) (held : buffer.Holds p (container opener elems))
    (enough : 2 * (container opener elems).length ≤ fuel) :
    bencNelems buffer fuel p = .ok elems.length := by
  have inner : buffer.Holds (p + 1) (elems.flatten ++ 'e'.toUInt8 :: []) :=
    (show buffer.Holds p (opener :: (elems.flatten ++ ['e'.toUInt8])) from held).tail
  have atLeast := length_le_flatten values
  rw [length_container] at enough
  have walked : bencForeach buffer fuel (fun n _ => pure (some (n + 1))) fuel
      (startOf (p + 1) elems) 0 = .ok (some ((addresses (p + 1) elems).foldl _ 0)) :=
    bencForeach_eq (fun n _ => n + 1) elems values inner (fun _ _ _ => rfl)
      (by omega) (by omega) 0
  rw [foldl_count, length_addresses, Nat.zero_add] at walked
  rw [bencNelems, bencFirst_container isOpener values held]
  show (bencForeach _ _ _ _ _ _ >>= _) = _
  rw [walked]
  rfl

end Container

/-! ## Looking a key up -/

/-- `strncmp` over a whole string, together with the comparison of lengths,
decides equality of byte strings. -/
theorem strncmpEq_eq {p : Nat} (bs key : List UInt8) (held : buffer.Holds p bs)
    (keyNonzero : 0 ∉ key) :
    ∃ b, strncmpEq buffer p key bs.length = .ok b ∧
      (b && decide (key.length = bs.length)) = decide (bs = key) := by
  induction bs generalizing p key with
  | nil => exact ⟨true, by simp [strncmpEq, pure, Except.pure], by cases key <;> simp⟩
  | cons c bs ih =>
      cases key with
      | nil =>
          exact ⟨c = 0, by simp [strncmpEq, held.read_eq, bind, Except.bind, pure, Except.pure],
            by simp⟩
      | cons k key =>
          by_cases same : c = k
          · obtain ⟨b, compared, agrees⟩ := ih key held.tail
              (fun mem => keyNonzero (List.mem_cons_of_mem _ mem))
            refine ⟨b, ?_, by simpa [same] using agrees⟩
            simp only [List.length_cons, strncmpEq, held.read_eq, bind, Except.bind, same,
              if_true, held.ptrAdd_one, compared]
          · refine ⟨false, ?_, by simp [same]⟩
            simp only [List.length_cons, strncmpEq, held.read_eq, bind, Except.bind,
              if_neg same, pure, Except.pure]

/-- The bytes of a string, without its header. -/
def strBytes (x : List UInt8) : List UInt8 := (x.dropWhile isdigit).drop 1

theorem strBytes_eq {ds bs : List UInt8} (digits : IsDigits ds) :
    strBytes (ds ++ ':'.toUInt8 :: bs) = bs := by
  have dropped : (ds ++ ':'.toUInt8 :: bs).dropWhile isdigit = ':'.toUInt8 :: bs := by
    rw [List.dropWhile_append_of_pos digits.2, List.dropWhile_cons_of_neg (by decide)]
  rw [strBytes, dropped]
  rfl

/-- The address of the value that a dictionary, the first pair of which lies at
`p`, has for `key`: the first of them when a key is repeated. -/
def findValue (key : List UInt8) : Nat → List (List UInt8 × List UInt8) → Option Nat
  | _, [] => none
  | p, (k, v) :: pairs =>
      if strBytes k = key then
        some (p + k.length)
      else
        findValue key (p + k.length + v.length) pairs

theorem bencDgetLoop_eq {fuel : Nat} {key : List UInt8} (keyNonzero : 0 ∉ key)
    (pairs : List (List UInt8 × List UInt8))
    (keys : ∀ pair ∈ pairs, Str pair.1) (values : ∀ pair ∈ pairs, Value pair.2)
    {p : Nat} {rest : List UInt8}
    (held : buffer.Holds p ((pairElems pairs).flatten ++ 'e'.toUInt8 :: rest))
    (enough : 2 * (pairElems pairs).flatten.length ≤ fuel) (bound : Nat)
    (turns : pairs.length < bound) :
    bencDgetLoop buffer fuel key bound (startOf p (pairElems pairs)) =
      .ok (findValue key p pairs) := by
  obtain ⟨bound, rfl⟩ := Nat.exists_eq_add_one_of_ne_zero (show bound ≠ 0 by omega)
  induction pairs generalizing p bound with
  | nil => rfl
  | cons pair pairs ih =>
      obtain ⟨k, v⟩ := pair
      have laterKeys : ∀ pair ∈ pairs, Str pair.1 :=
        fun pair mem => keys pair (List.mem_cons_of_mem _ mem)
      have laterValues : ∀ pair ∈ pairs, Value pair.2 :=
        fun pair mem => values pair (List.mem_cons_of_mem _ mem)
      have value : Value v := values (k, v) (by simp)
      have string : Str k := keys (k, v) (by simp)
      have kLength := string.length_pos
      simp only [pairElems_cons, List.flatten_cons, List.length_append,
        List.length_cons] at enough turns
      have at_k : buffer.Holds p (k ++ (v ++
          ((pairElems pairs).flatten ++ 'e'.toUInt8 :: rest))) := by
        simpa using held
      obtain ⟨bound, rfl⟩ := Nat.exists_eq_add_one_of_ne_zero (show bound ≠ 0 by omega)
      have later := ih laterKeys laterValues at_k.right.right (by omega) bound (by omega)
      have fromValue : ∀ y ∈ v :: pairElems pairs, Value y := by
        intro y mem
        rcases List.mem_cons.mp mem with rfl | mem
        · exact value
        · exact value_of_mem_pairElems laterKeys laterValues mem
      have at_v : buffer.Holds (p + k.length)
          ((v :: pairElems pairs).flatten ++ 'e'.toUInt8 :: rest) := by
        simpa using at_k.right
      have next := bencNext_step fuel fromValue at_v (by omega)
      obtain ⟨c, tail, vEq, -⟩ := value.head
      obtain ⟨ds, bs, digits, lengthEq⟩ := string
      have at_c : buffer.Holds p (ds ++ ':'.toUInt8 :: bs ++ c :: (tail ++
          ((pairElems pairs).flatten ++ 'e'.toUInt8 :: rest))) := by
        rw [vEq] at at_k
        simpa using at_k
      simp only [List.length_append, List.length_cons] at enough
      have header := bencMemNext_eq at_c digits lengthEq (show ds.length < fuel by omega)
      rw [nextElem, if_neg (vEq ▸ value).head_ne_e] at header
      obtain ⟨b, compared, same⟩ := strncmpEq_eq bs key at_c.left.right.tail keyNonzero
      simp only [pairElems_cons, startOf, bencDgetLoop, header, bind, Except.bind, compared,
        same, decide_eq_true_eq, findValue, strBytes_eq digits]
      by_cases found : bs = key
      · rw [if_pos found, if_pos found]
        rfl
      · rw [if_neg found, if_neg found]
        simp only [next]
        exact later

/-- `benc_dget_any` finds the first pair with the given key. -/
theorem bencDgetAny_dict {fuel p : Nat} {key : List UInt8} (keyNonzero : 0 ∉ key)
    (pairs : List (List UInt8 × List UInt8))
    (keys : ∀ pair ∈ pairs, Str pair.1) (values : ∀ pair ∈ pairs, Value pair.2)
    (held : buffer.Holds p (container 'd'.toUInt8 (pairElems pairs)))
    (enough : 2 * (container 'd'.toUInt8 (pairElems pairs)).length ≤ fuel) :
    bencDgetAny buffer fuel p key = .ok (findValue key (p + 1) pairs) := by
  have at_p : buffer.Holds p ('d'.toUInt8 :: ((pairElems pairs).flatten ++
    'e'.toUInt8 :: [])) := held
  have elemValues : ∀ x ∈ pairElems pairs, Value x :=
    fun x mem => value_of_mem_pairElems keys values mem
  have atLeast := length_le_flatten elemValues
  have twice : (pairElems pairs).length = 2 * pairs.length := by
    simp [pairElems, List.length_flatMap, Nat.mul_comm]
  rw [length_container] at enough
  have looped := bencDgetLoop_eq keyNonzero pairs keys values at_p.tail
    (show 2 * (pairElems pairs).flatten.length ≤ fuel by omega) fuel (by omega)
  simp only [bencDgetAny, bencIsdct, at_p.read_eq, bind, Except.bind, pure, Except.pure,
    decide_true, if_true, bencFirst_container (.inl rfl) elemValues held, looped]

end Btpd.Benc
