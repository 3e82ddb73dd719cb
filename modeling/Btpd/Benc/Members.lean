import Btpd.Benc.Agreement
import Btpd.Benc.Print

/-!
# Accessors on any value of the grammar

What the accessors give on a value whose kind is not known beforehand: they
return, and a member that is found is a value of the grammar itself.
-/

namespace Btpd.Benc

variable {buffer : Buffer} {fuel p : Nat} {x : List UInt8}

/-- There is a byte at the place of a value. -/
theorem Value.read (value : Value x) (held : buffer.Holds p x) :
    ∃ c, buffer.read p = .ok c := by
  rcases value.head with ⟨c, tail, rfl, -⟩
  exact ⟨c, held.read_eq⟩

theorem Value.bencIsstr (value : Value x) (held : buffer.Holds p x) :
    ∃ b, bencIsstr buffer p = .ok b := by
  rcases value.read held with ⟨c, read⟩
  exact ⟨isdigit c, by simp [Benc.bencIsstr, read, bind, Except.bind, pure, Except.pure]⟩

theorem Value.bencIslst (value : Value x) (held : buffer.Holds p x) :
    ∃ b, bencIslst buffer p = .ok b := by
  rcases value.read held with ⟨c, read⟩
  refine ⟨c = 'l'.toUInt8 || c = 'd'.toUInt8, ?_⟩
  simp only [Benc.bencIslst, read, bind, Except.bind, pure, Except.pure]

theorem Value.bencIsint (value : Value x) (held : buffer.Holds p x) :
    ∃ b, bencIsint buffer p = .ok b := by
  rcases value.read held with ⟨c, read⟩
  refine ⟨decide (c = 'i'.toUInt8), ?_⟩
  simp only [Benc.bencIsint, read, bind, Except.bind, pure, Except.pure]

/-- The bytes of a string are where `benc_mem` says. -/
theorem Str.bencMem (string : Str x) (held : buffer.Holds p x) (enough : x.length ≤ fuel) :
    ∃ q, bencMem buffer fuel p = .ok (some (q, (strBytes x).length)) ∧
      buffer.Holds q (strBytes x) := by
  cases string with
  | mk ds bs digits lengthEq =>
      rw [strBytes_eq digits]
      rw [List.length_append, List.length_cons] at enough
      exact ⟨_, bencMem_eq held digits lengthEq (by omega), held.right.tail⟩

theorem Str.bencStr (string : Str x) (held : buffer.Holds p x) (enough : x.length ≤ fuel) :
    bencStr buffer fuel p = .ok (some (strBytes x)) := by
  rcases string.bencMem held enough with ⟨q, found, bytes⟩
  rw [Benc.bencStr, found]
  show (readBytes buffer _ q >>= fun bytes => pure (some bytes)) = _
  rw [readBytes_eq bytes]
  rfl

/-- `strtoll` at the digits of an integer, behind its sign. -/
theorem exists_strtoll (negative : Bool) (ds : List UInt8) (digits : IsDigits ds)
    {rest : List UInt8}
    (held : buffer.Holds p ((if negative then ['-'.toUInt8] else []) ++
      (ds ++ 'e'.toUInt8 :: rest))) (enough : ds.length < fuel) :
    ∃ n, strtoll buffer fuel p =
      .ok (n, p + (if negative then ['-'.toUInt8] else []).length + ds.length) := by
  obtain ⟨fuel, rfl⟩ := Nat.exists_eq_add_one_of_ne_zero (show fuel ≠ 0 by omega)
  rcases List.exists_cons_of_ne_nil digits.1 with ⟨d, ds', split⟩
  have isDigit : isdigit d = true := digits.2 d (by simp [split])
  have notSign := sign_ne_of_isdigit isDigit
  have notMinus : ¬ d = '-'.toUInt8 := fun isMinus => notSign (.inl isMinus)
  have notPlus : ¬ d = '+'.toUInt8 := fun isPlus => notSign (.inr isPlus)
  have notE : isdigit 'e'.toUInt8 = false := by decide
  cases negative with
  | false =>
      have at_d : buffer.Holds p (ds ++ 'e'.toUInt8 :: rest) := held
      have scanned : readDigits buffer (fuel + 1) p 0 = _ :=
        readDigits_eq 0 at_d digits.2 notE (by omega)
      have first : buffer.Holds p (d :: (ds' ++ 'e'.toUInt8 :: rest)) := by
        rw [split] at at_d
        exact at_d
      refine ⟨max LLONG_MIN (min (appendDigits 0 ds : Int) LLONG_MAX), ?_⟩
      simp only [strtoll, skipSpace, first.read_eq, isspace_of_isdigit isDigit,
        Bool.false_eq_true, if_false, bind, Except.bind, pure, Except.pure, notPlus, notMinus,
        or_self, isDigit, if_true, scanned, List.length_nil, Nat.add_zero]
  | true =>
      have at_sign : buffer.Holds p ('-'.toUInt8 :: (ds ++ 'e'.toUInt8 :: rest)) := held
      have at_d := at_sign.tail
      have scanned : readDigits buffer (fuel + 1) (p + 1) 0 = _ :=
        readDigits_eq 0 at_d digits.2 notE (by omega)
      have first : buffer.Holds (p + 1) (d :: (ds' ++ 'e'.toUInt8 :: rest)) := by
        rw [split] at at_d
        exact at_d
      have noSpace : isspace '-'.toUInt8 = false := by decide
      refine ⟨max LLONG_MIN (min (-(appendDigits 0 ds : Int)) LLONG_MAX), ?_⟩
      simp only [strtoll, skipSpace, at_sign.read_eq, noSpace, Bool.false_eq_true, if_false,
        bind, Except.bind, pure, Except.pure, true_or, if_true, at_sign.ptrAdd_one,
        first.read_eq, isDigit, scanned, List.length_singleton]

/-- The number of an integer. -/
theorem Value.bencInt (value : Value x) (held : buffer.Holds p x) (enough : x.length ≤ fuel)
    (int : Benc.bencIsint buffer p = .ok true) : ∃ n, bencInt buffer fuel p = .ok n := by
  have opener : ∀ c tail, x = c :: tail → c = 'i'.toUInt8 := by
    rintro c tail rfl
    rw [Benc.bencIsint, held.read_eq] at int
    exact of_decide_eq_true (Except.ok.inj int)
  cases value with
  | str string =>
      rcases string.head_isdigit with ⟨c, tail, rfl, digit⟩
      cases opener c tail rfl
      exact absurd digit (by decide)
  | list elems values => exact absurd (opener _ _ rfl) (by decide)
  | dict pairs keys values => exact absurd (opener _ _ rfl) (by decide)
  | int negative ds digits =>
      have at_i : buffer.Holds p ('i'.toUInt8 ::
        ((if negative then ['-'.toUInt8] else []) ++ (ds ++ ['e'.toUInt8]))) := held
      have short : ds.length < fuel := by
        simp only [integer, List.length_cons, List.length_append] at enough
        omega
      rcases exists_strtoll negative ds digits at_i.tail short with ⟨n, number⟩
      have closed := at_i.tail.right.right
      refine ⟨n, ?_⟩
      simp only [Benc.bencInt, int, bind, Except.bind, if_true, at_i.ptrAdd_one, number,
        closed.read_eq, pure, Except.pure]

/-! ## Members -/

/-- What a look-up gives: nothing, or the place of a value. -/
def Found (buffer : Buffer) (r : Option Nat) : Prop :=
  ∀ q, r = some q → ∃ v, Value v ∧ buffer.Holds q v

theorem found_findValue (key : List UInt8) (pairs : List (List UInt8 × List UInt8))
    (values : ∀ pair ∈ pairs, Value pair.2) {rest : List UInt8}
    (held : buffer.Holds p ((pairElems pairs).flatten ++ rest)) :
    Found buffer (findValue key p pairs) := by
  induction pairs generalizing p with
  | nil =>
      intro q same
      cases same
  | cons pair pairs ih =>
      rcases pair with ⟨k, v⟩
      have at_k : buffer.Holds p (k ++ (v ++ ((pairElems pairs).flatten ++ rest))) := by
        simpa using held
      rw [findValue]
      split
      · intro q same
        cases same
        exact ⟨v, values (k, v) (by simp), at_k.right.left⟩
      · exact ih (fun pair mem => values pair (List.mem_cons_of_mem _ mem)) at_k.right.right

/-- A look-up in a value returns. -/
theorem Value.bencDgetAny (value : Value x) (held : buffer.Holds p x) {key : List UInt8}
    (keyNonzero : 0 ∉ key) (enough : 2 * x.length ≤ fuel) :
    ∃ r, bencDgetAny buffer fuel p key = .ok r ∧ Found buffer r := by
  have other : ∀ c tail, x = c :: tail → c ≠ 'd'.toUInt8 →
      ∃ r, Benc.bencDgetAny buffer fuel p key = .ok r ∧ Found buffer r := by
    rintro c tail rfl notDict
    refine ⟨none, ?_, by intro q same; cases same⟩
    simp only [Benc.bencDgetAny, bencIsdct, held.read_eq, bind, Except.bind, pure, Except.pure,
      notDict, decide_false, Bool.false_eq_true, if_false]
  cases value with
  | str string =>
      rcases string.head_isdigit with ⟨c, tail, rfl, digit⟩
      apply other c tail rfl
      rintro rfl
      exact absurd digit (by decide)
  | int negative ds digits => exact other _ _ rfl (by decide)
  | list elems values => exact other _ _ rfl (by decide)
  | dict pairs keys values =>
      refine ⟨_, bencDgetAny_dict keyNonzero pairs keys values held enough, ?_⟩
      have at_p : buffer.Holds p ('d'.toUInt8 :: ((pairElems pairs).flatten ++ ['e'.toUInt8])) :=
        held
      exact found_findValue key pairs values at_p.tail

/-- A value that lies in the buffer is not longer than it. -/
theorem Buffer.Holds.length_le {buffer : Buffer} (held : buffer.Holds p x) :
    x.length ≤ buffer.bytes.length := by
  have first := held.base_le
  have last := held.add_length_le
  rw [Buffer.stop] at last
  omega

section Typed

variable {key : List UInt8} (value : Value x) (held : buffer.Holds p x) (keyNonzero : 0 ∉ key)
  (enough : 2 * buffer.bytes.length ≤ fuel)

include value held keyNonzero enough

/-- The bytes of a member that is a string. -/
theorem Value.bencDgetMem :
    ∃ r, bencDgetMem buffer fuel p key = .ok r ∧
      ∀ q len, r = some (q, len) → ∃ bytes, buffer.Holds q bytes ∧ bytes.length = len := by
  have short := held.length_le
  rcases value.bencDgetAny held keyNonzero (show 2 * x.length ≤ fuel by omega) with
    ⟨r, lookup, found⟩
  rw [Benc.bencDgetMem, bencDgetIf, lookup]
  cases r with
  | none => exact ⟨none, rfl, by intro q len same; cases same⟩
  | some q =>
      rcases found q rfl with ⟨v, valueV, at_v⟩
      have shortV := at_v.length_le
      rcases valueV.bencIsstr at_v with ⟨b, isStr⟩
      simp only [bind, Except.bind, pure, Except.pure, isStr]
      cases b with
      | false => exact ⟨none, rfl, by intro q len same; cases same⟩
      | true =>
          have string := str_of_bencIsstr valueV at_v isStr
          rcases string.bencMem at_v (show v.length ≤ fuel by omega) with ⟨at_, mem, bytes⟩
          refine ⟨some (at_, (strBytes v).length), mem, ?_⟩
          rintro q len same
          cases same
          exact ⟨strBytes v, bytes, rfl⟩

theorem Value.bencDgetStr : ∃ r, bencDgetStr buffer fuel p key = .ok r := by
  have short := held.length_le
  rcases value.bencDgetAny held keyNonzero (show 2 * x.length ≤ fuel by omega) with
    ⟨r, lookup, found⟩
  rw [Benc.bencDgetStr, bencDgetIf, lookup]
  cases r with
  | none => exact ⟨none, rfl⟩
  | some q =>
      rcases found q rfl with ⟨v, valueV, at_v⟩
      have shortV := at_v.length_le
      rcases valueV.bencIsstr at_v with ⟨b, isStr⟩
      simp only [bind, Except.bind, pure, Except.pure, isStr]
      cases b with
      | false => exact ⟨none, rfl⟩
      | true =>
          have string := str_of_bencIsstr valueV at_v isStr
          exact ⟨_, string.bencStr at_v (show v.length ≤ fuel by omega)⟩

theorem Value.bencDgetInt : ∃ n, bencDgetInt buffer fuel p key = .ok n := by
  have short := held.length_le
  rcases value.bencDgetAny held keyNonzero (show 2 * x.length ≤ fuel by omega) with
    ⟨r, lookup, found⟩
  rw [Benc.bencDgetInt, bencDgetIf, lookup]
  cases r with
  | none => exact ⟨0, rfl⟩
  | some q =>
      rcases found q rfl with ⟨v, valueV, at_v⟩
      have shortV := at_v.length_le
      rcases valueV.bencIsint at_v with ⟨b, isInt⟩
      simp only [bind, Except.bind, pure, Except.pure, isInt]
      cases b with
      | false => exact ⟨0, rfl⟩
      | true => exact valueV.bencInt at_v (show v.length ≤ fuel by omega) isInt

end Typed

end Btpd.Benc
