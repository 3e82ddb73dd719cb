import Btpd.Benc.Agreement

/-!
# Printed bencode

What `"%d:%s"` and `"i%llde"` write is a string and an integer of the grammar,
and the accessors read back from it exactly what was printed.  A dictionary
whose keys were printed is read by key: `bencDgetMem`, `bencDgetStr` and
`bencDgetInt` return the bytes and the number that were printed under the first
pair with that key.
-/

namespace Btpd.Benc

/-! ## Decimal numbers -/

/-- The digit of a number below ten. -/
def digit (n : Nat) : UInt8 := '0'.toUInt8 + n.toUInt8

/-- `"%u"`: the decimal digits of `n`, without leading zeros. -/
def decimal (n : Nat) : List UInt8 :=
  if n < 10 then [digit n] else decimal (n / 10) ++ [digit (n % 10)]

/-- `"%d"` and `"%lld"` -/
def printInt (n : Int) : List UInt8 :=
  (if n < 0 then ['-'.toUInt8] else []) ++ decimal n.natAbs

/-- `"i%llde"` -/
def bencodeInt (n : Int) : List UInt8 := 'i'.toUInt8 :: (printInt n ++ ['e'.toUInt8])

/-- `"%d:%s"` for a string whose length an `int` holds. -/
def bencodeStr (bs : List UInt8) : List UInt8 := decimal bs.length ++ ':'.toUInt8 :: bs

theorem digit_lt {n : Nat} (small : n < 10) :
    isdigit (digit n) = true ∧ digitVal (digit n) = n := by
  revert n
  decide

theorem isDigits_decimal (n : Nat) : IsDigits (decimal n) := by
  induction n using decimal.induct with
  | case1 n small =>
      rw [decimal, if_pos small]
      exact ⟨List.cons_ne_nil _ _, by simpa using (digit_lt small).1⟩
  | case2 n large ih =>
      rw [decimal, if_neg large]
      have last := (digit_lt (Nat.mod_lt n (by decide : 0 < 10))).1
      refine ⟨by simp, ?_⟩
      intro c mem
      rcases List.mem_append.mp mem with mem | mem
      · exact ih.2 c mem
      · rw [List.mem_singleton.mp mem]
        exact last

theorem appendDigits_append (v : Nat) (ds es : List UInt8) :
    appendDigits v (ds ++ es) = appendDigits (appendDigits v ds) es := by
  induction ds generalizing v with
  | nil => rfl
  | cons c ds ih => simp only [List.cons_append, appendDigits_cons, ih]

theorem digitsVal_decimal (n : Nat) : digitsVal (decimal n) = n := by
  induction n using decimal.induct with
  | case1 n small =>
      rw [decimal, if_pos small]
      simp [digitsVal, (digit_lt small).2]
  | case2 n large ih =>
      have last := (digit_lt (Nat.mod_lt n (by decide : 0 < 10))).2
      rw [digitsVal] at ih
      rw [decimal, if_neg large, digitsVal, appendDigits_append, ih, appendDigits_cons, last,
        appendDigits_nil]
      omega

theorem printInt_natCast (n : Nat) : printInt n = decimal n := by
  have nonneg : ¬ (n : Int) < 0 := by omega
  simp [printInt, nonneg]

/-! ## Values of the grammar -/

theorem str_bencodeStr (bs : List UInt8) : Str (bencodeStr bs) :=
  .mk _ _ (isDigits_decimal _) (digitsVal_decimal _)

theorem bencodeInt_eq_integer (n : Int) :
    bencodeInt n = integer (decide (n < 0)) (decimal n.natAbs) := by
  simp [bencodeInt, printInt, integer]

theorem value_bencodeInt (n : Int) : Value (bencodeInt n) := by
  rw [bencodeInt_eq_integer]
  exact .int _ _ (isDigits_decimal _)

@[simp]
theorem strBytes_bencodeStr (bs : List UInt8) : strBytes (bencodeStr bs) = bs :=
  strBytes_eq (isDigits_decimal _)

theorem length_bencodeStr (bs : List UInt8) :
    (bencodeStr bs).length = (decimal bs.length).length + 1 + bs.length := by
  simp [bencodeStr]
  omega

theorem length_bencodeInt (n : Int) : (bencodeInt n).length = (printInt n).length + 2 := by
  simp [bencodeInt]

/-! ## Reading back -/

variable {buffer : Buffer} {fuel p : Nat}

theorem bencIsint_int {rest : List UInt8} (held : buffer.Holds p ('i'.toUInt8 :: rest)) :
    bencIsint buffer p = .ok true := by
  simp [bencIsint, held.read_eq, bind, Except.bind, pure, Except.pure]

theorem bencIsstr_str {bs : List UInt8} (held : buffer.Holds p (bencodeStr bs)) :
    bencIsstr buffer p = .ok true :=
  bencIsstr_of_digits held (isDigits_decimal _)

theorem bencMem_str {bs : List UInt8} (held : buffer.Holds p (bencodeStr bs))
    (enough : (bencodeStr bs).length ≤ fuel) :
    ∃ q, bencMem buffer fuel p = .ok (some (q, bs.length)) ∧ buffer.Holds q bs := by
  rw [length_bencodeStr] at enough
  exact ⟨_, bencMem_eq held (isDigits_decimal _) (digitsVal_decimal _) (by omega),
    held.right.tail⟩

/-- `bcopy` reads the bytes that the buffer holds. -/
theorem readBytes_eq {bs : List UInt8} (held : buffer.Holds p bs) :
    readBytes buffer bs.length p = .ok bs := by
  induction bs generalizing p with
  | nil => rfl
  | cons c bs ih =>
      simp only [List.length_cons, readBytes, held.read_eq, held.ptrAdd_one, ih held.tail, bind,
        Except.bind, pure, Except.pure]

theorem bencStr_str {bs : List UInt8} (held : buffer.Holds p (bencodeStr bs))
    (enough : (bencodeStr bs).length ≤ fuel) :
    bencStr buffer fuel p = .ok (some bs) := by
  obtain ⟨q, mem, at_q⟩ := bencMem_str held enough
  simp only [bencStr, mem, readBytes_eq at_q, bind, Except.bind, pure, Except.pure]

theorem isspace_of_isdigit {c : UInt8} (digit : isdigit c = true) : isspace c = false := by
  have zero : ('0'.toUInt8).toNat = 48 := by decide
  have atLeast : 48 ≤ c.toNat := by
    simp only [isdigit, Bool.and_eq_true, decide_eq_true_eq, UInt8.le_iff_toNat_le] at digit
    omega
  have notBlank : ¬ c = ' '.toUInt8 := by
    rintro rfl
    exact absurd atLeast (by decide)
  have notControl : ¬ c ≤ 13 := by
    rw [UInt8.le_iff_toNat_le]
    have thirteen : (13 : UInt8).toNat = 13 := rfl
    omega
  simp [isspace, notBlank, notControl]

theorem sign_ne_of_isdigit {c : UInt8} (digit : isdigit c = true) :
    ¬ (c = '-'.toUInt8 ∨ c = '+'.toUInt8) := by
  rintro (rfl | rfl) <;> exact absurd digit (by decide)

/-- A printed `long long` is read back by `strtoll`, whatever follows it that is
no digit. -/
theorem strtoll_printInt {n : Int} (low : LLONG_MIN ≤ n) (high : n ≤ LLONG_MAX) {c : UInt8}
    {rest : List UInt8} (held : buffer.Holds p (printInt n ++ c :: rest))
    (notDigit : isdigit c = false) (enough : (printInt n).length < fuel) :
    strtoll buffer fuel p = .ok (n, p + (printInt n).length) := by
  obtain ⟨nonempty, digits⟩ := isDigits_decimal n.natAbs
  obtain ⟨d, ds, decimalEq⟩ := List.exists_cons_of_ne_nil nonempty
  have isDigit : isdigit d = true := digits d (by simp [decimalEq])
  have value : appendDigits 0 (decimal n.natAbs) = n.natAbs := digitsVal_decimal _
  have within : max LLONG_MIN (min n LLONG_MAX) = n := by
    rw [Int.min_eq_left high, Int.max_eq_right low]
  obtain ⟨fuel, rfl⟩ := Nat.exists_eq_add_one_of_ne_zero (show fuel ≠ 0 by omega)
  by_cases negative : n < 0
  · have printed : printInt n = '-'.toUInt8 :: decimal n.natAbs := by simp [printInt, negative]
    rw [printed] at held enough ⊢
    have at_d : buffer.Holds (p + 1) (decimal n.natAbs ++ c :: rest) := held.tail
    have first : buffer.Holds (p + 1) (d :: (ds ++ c :: rest)) := by
      rw [decimalEq] at at_d
      exact at_d
    have sign : buffer.read p = .ok '-'.toUInt8 := by
      rw [List.cons_append] at held
      exact held.read_eq
    have after : ptrAdd p 1 = p + 1 := by
      rw [List.cons_append] at held
      exact held.ptrAdd_one
    have noSpace : isspace '-'.toUInt8 = false := by decide
    simp only [List.length_cons] at enough
    have scanned : readDigits buffer (fuel + 1) (p + 1) 0 = _ :=
      readDigits_eq 0 at_d digits notDigit (by omega)
    have result : (-(n.natAbs : Int)) = n := by omega
    simp only [strtoll, skipSpace, sign, noSpace, Bool.false_eq_true, if_false, bind, Except.bind,
      pure, Except.pure, true_or, after, first.read_eq, isDigit, if_true, scanned, value, result, within, List.length_cons]
    congr 2
    omega
  · have printed : printInt n = decimal n.natAbs := by simp [printInt, negative]
    rw [printed] at held enough ⊢
    have first : buffer.Holds p (d :: (ds ++ c :: rest)) := by
      rw [decimalEq] at held
      exact held
    have notSign := sign_ne_of_isdigit isDigit
    have notMinus : ¬ d = '-'.toUInt8 := fun isMinus => notSign (.inl isMinus)
    have scanned : readDigits buffer (fuel + 1) p 0 = _ :=
      readDigits_eq 0 held digits notDigit (by omega)
    have result : (n.natAbs : Int) = n := by omega
    simp only [strtoll, skipSpace, first.read_eq, isspace_of_isdigit isDigit, Bool.false_eq_true,
      if_false, bind, Except.bind, pure, Except.pure, if_neg notSign, isDigit, if_true, scanned,
      value, if_neg notMinus, result, within]

theorem bencInt_int {n : Int} (low : LLONG_MIN ≤ n) (high : n ≤ LLONG_MAX)
    (held : buffer.Holds p (bencodeInt n)) (enough : (bencodeInt n).length ≤ fuel) :
    bencInt buffer fuel p = .ok n := by
  have at_i : buffer.Holds p ('i'.toUInt8 :: (printInt n ++ ['e'.toUInt8])) := held
  rw [length_bencodeInt] at enough
  have number : strtoll buffer fuel (p + 1) = _ :=
    strtoll_printInt low high at_i.tail (by decide) (by omega)
  have isInt := bencIsint_int at_i
  have closed := at_i.tail.right
  simp only [bencInt, isInt, bind, Except.bind, if_true, at_i.ptrAdd_one, number, closed.read_eq,
    pure, Except.pure]

/-! ## Members of a dictionary -/

/-- Where the first pair with a key lies. -/
theorem findValue_eq (key : List UInt8) (pairs : List (List UInt8 × List UInt8))
    {rest : List UInt8} (held : buffer.Holds p ((pairElems pairs).flatten ++ rest)) :
    match pairs.find? fun pair => strBytes pair.1 = key with
    | some pair => ∃ q, findValue key p pairs = some q ∧ buffer.Holds q pair.2
    | none => findValue key p pairs = none := by
  induction pairs generalizing p with
  | nil => rfl
  | cons pair pairs ih =>
      obtain ⟨k, v⟩ := pair
      have at_k : buffer.Holds p (k ++ (v ++ ((pairElems pairs).flatten ++ rest))) := by
        simpa using held
      by_cases same : strBytes k = key
      · rw [List.find?_cons_of_pos (by simpa using same)]
        exact ⟨p + k.length, by rw [findValue, if_pos same], at_k.right.left⟩
      · rw [List.find?_cons_of_neg (by simpa using same), findValue, if_neg same]
        exact ih at_k.right.right

section

variable (key : List UInt8) (keyNonzero : 0 ∉ key) {pairs : List (List UInt8 × List UInt8)}
  (keys : ∀ pair ∈ pairs, Str pair.1) (values : ∀ pair ∈ pairs, Value pair.2)
  (held : buffer.Holds p (container 'd'.toUInt8 (pairElems pairs)))
  (enough : 2 * (container 'd'.toUInt8 (pairElems pairs)).length ≤ fuel)

include keyNonzero keys values held enough

theorem bencDgetAny_found {k v : List UInt8}
    (found : (pairs.find? fun pair => strBytes pair.1 = key) = some (k, v)) :
    ∃ q, bencDgetAny buffer fuel p key = .ok (some q) ∧ buffer.Holds q v ∧
      2 * v.length ≤ fuel := by
  have at_p : buffer.Holds p ('d'.toUInt8 :: ((pairElems pairs).flatten ++ ['e'.toUInt8])) := held
  have first := findValue_eq key pairs at_p.tail
  rw [found] at first
  obtain ⟨q, valueEq, at_q⟩ := first
  have mem : v ∈ pairElems pairs := by
    have pairMem := List.mem_of_find?_eq_some found
    simp only [pairElems, List.mem_flatMap]
    exact ⟨_, pairMem, by simp⟩
  have within := enough_of_mem enough mem
  refine ⟨q, ?_, at_q, by omega⟩
  rw [bencDgetAny_dict keyNonzero pairs keys values held enough, valueEq]

theorem bencDgetAny_missing
    (missing : (pairs.find? fun pair => strBytes pair.1 = key) = none) :
    bencDgetAny buffer fuel p key = .ok none := by
  have at_p : buffer.Holds p ('d'.toUInt8 :: ((pairElems pairs).flatten ++ ['e'.toUInt8])) := held
  have first := findValue_eq key pairs at_p.tail
  rw [missing] at first
  rw [bencDgetAny_dict keyNonzero pairs keys values held enough, first]

theorem bencDgetDct_found {k : List UInt8} {elems : List (List UInt8)}
    (found : (pairs.find? fun pair => strBytes pair.1 = key) =
      some (k, container 'd'.toUInt8 elems)) :
    ∃ q, bencDgetDct buffer fuel p key = .ok (some q) ∧
      buffer.Holds q (container 'd'.toUInt8 elems) ∧
      2 * (container 'd'.toUInt8 elems).length ≤ fuel := by
  obtain ⟨q, any, at_q, within⟩ := bencDgetAny_found key keyNonzero keys values held enough found
  have opener : buffer.Holds q ('d'.toUInt8 :: (elems.flatten ++ ['e'.toUInt8])) := at_q
  refine ⟨q, ?_, at_q, within⟩
  simp only [bencDgetDct, bencDgetIf, any, bencIsdct, opener.read_eq, bind, Except.bind, pure,
    Except.pure, decide_true, if_true]

theorem bencDgetMem_found {k bs : List UInt8}
    (found : (pairs.find? fun pair => strBytes pair.1 = key) = some (k, bencodeStr bs)) :
    ∃ q, bencDgetMem buffer fuel p key = .ok (some (q, bs.length)) ∧ buffer.Holds q bs := by
  obtain ⟨q, any, at_q, within⟩ := bencDgetAny_found key keyNonzero keys values held enough found
  obtain ⟨r, mem, at_r⟩ : ∃ r, bencMem buffer fuel q = .ok (some (r, bs.length)) ∧
      buffer.Holds r bs := bencMem_str at_q (by omega)
  refine ⟨r, ?_, at_r⟩
  simp only [bencDgetMem, bencDgetIf, any, bencIsstr_str at_q, mem, bind, Except.bind, pure,
    Except.pure, if_true]

theorem bencDgetStr_found {k bs : List UInt8}
    (found : (pairs.find? fun pair => strBytes pair.1 = key) = some (k, bencodeStr bs)) :
    bencDgetStr buffer fuel p key = .ok (some bs) := by
  obtain ⟨q, any, at_q, within⟩ := bencDgetAny_found key keyNonzero keys values held enough found
  have str : bencStr buffer fuel q = .ok (some bs) := bencStr_str at_q (by omega)
  simp only [bencDgetStr, bencDgetIf, any, bencIsstr_str at_q, str, bind, Except.bind, pure,
    Except.pure, if_true]

theorem bencDgetInt_found {k : List UInt8} {n : Int} (low : LLONG_MIN ≤ n) (high : n ≤ LLONG_MAX)
    (found : (pairs.find? fun pair => strBytes pair.1 = key) = some (k, bencodeInt n)) :
    bencDgetInt buffer fuel p key = .ok n := by
  obtain ⟨q, any, at_q, within⟩ := bencDgetAny_found key keyNonzero keys values held enough found
  have number : bencInt buffer fuel q = .ok n := bencInt_int low high at_q (by omega)
  have isInt := bencIsint_int at_q
  simp only [bencDgetInt, bencDgetIf, any, isInt, number, bind, Except.bind, pure, Except.pure,
    if_true]

end

end Btpd.Benc
