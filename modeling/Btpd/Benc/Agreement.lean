import Btpd.Benc.Decode
import Btpd.Benc.ValidateCorrect

/-!
# Agreement of the validator with the accessors

`Agrees buffer fuel p n` says that the two decoders of `misc/benc.c` see the
same value at `p`: the validator consumes `n` bytes there, and every accessor
that later code calls on it returns what the validator consumed, for the value
itself and for everything inside it.

The relation is shown to hold of the whole buffer exactly when the buffer is a
value of the grammar.  An accepted buffer that is none has a string the length
of which wraps in the validator and saturates in `strtoul`.
-/

namespace Btpd.Benc

/-- The validator, entered at `p`, consumes `n` bytes of the buffer. -/
structure Consumed (buffer : Buffer) (fuel p n : Nat) : Prop where
  pos : 0 < n
  inside : p + n ≤ buffer.stop
  validated : bencValidateAux buffer (buffer.stop - 1) fuel p = .ok (some (p + n - 1))

/-- Elements, given by address and length, that follow each other without a
gap from `p` to `q`. -/
def Tiles : Nat → List (Nat × Nat) → Nat → Prop
  | p, [], q => p = q
  | p, elem :: elems, q => elem.1 = p ∧ Tiles (p + elem.2) elems q

/-- What the validator consumed at `p` is what the accessors find there. -/
inductive Agrees (buffer : Buffer) (fuel : Nat) : Nat → Nat → Prop
  | int {p n : Nat} (opener : buffer.read p = .ok 'i'.toUInt8)
      (consumed : Consumed buffer fuel p n)
      (length : bencLength buffer fuel p = .ok n) : Agrees buffer fuel p n
  | str {p n colon blen : Nat} (string : bencIsstr buffer p = .ok true)
      (consumed : Consumed buffer fuel p n)
      (skipped : readLength buffer (buffer.stop - 1) fuel p 0 = .ok (colon, blen))
      (ends : colon + 1 + blen = p + n)
      (length : bencLength buffer fuel p = .ok n)
      (mem : bencMem buffer fuel p = .ok (some (colon + 1, blen))) : Agrees buffer fuel p n
  | list {p n : Nat} (elems : List (Nat × Nat)) (opener : buffer.read p = .ok 'l'.toUInt8)
      (consumed : Consumed buffer fuel p n) (tiles : Tiles (p + 1) elems (p + n - 1))
      (length : bencLength buffer fuel p = .ok n)
      (visited : bencElems buffer fuel p = .ok (elems.map Prod.fst))
      (counted : bencNelems buffer fuel p = .ok elems.length)
      (inner : ∀ elem ∈ elems, Agrees buffer fuel elem.1 elem.2) : Agrees buffer fuel p n
  | dict {p n : Nat} (pairs : List ((Nat × Nat) × Nat × Nat))
      (opener : buffer.read p = .ok 'd'.toUInt8)
      (consumed : Consumed buffer fuel p n)
      (tiles : Tiles (p + 1) (pairElems pairs) (p + n - 1))
      (keys : ∀ pair ∈ pairs, bencIsstr buffer pair.1.1 = .ok true)
      (length : bencLength buffer fuel p = .ok n)
      (visited : bencElems buffer fuel p = .ok ((pairElems pairs).map Prod.fst))
      (counted : bencNelems buffer fuel p = .ok (pairElems pairs).length)
      (found : ∀ key, 0 ∉ key → ∃ value, bencDgetAny buffer fuel p key = .ok value)
      (inner : ∀ elem ∈ pairElems pairs, Agrees buffer fuel elem.1 elem.2) :
      Agrees buffer fuel p n

/-- The accessors terminate on the whole buffer and agree there with the
validator. -/
def AccessorsAgree (buffer : Buffer) : Prop :=
  ∃ bound, ∀ fuel, bound ≤ fuel → Agrees buffer fuel buffer.base buffer.bytes.length

variable {buffer : Buffer} {fuel p n : Nat}

/-! ## Values are agreed upon -/

/-- The addresses and lengths of consecutive elements, the first at `p`. -/
def spans (p : Nat) : List (List UInt8) → List (Nat × Nat)
  | [] => []
  | x :: elems => (p, x.length) :: spans (p + x.length) elems

/-- The addresses and lengths of consecutive pairs. -/
def pairSpans (p : Nat) : List (List UInt8 × List UInt8) → List ((Nat × Nat) × Nat × Nat)
  | [] => []
  | (k, v) :: pairs =>
      ((p, k.length), p + k.length, v.length) :: pairSpans (p + k.length + v.length) pairs

theorem map_fst_spans (p : Nat) (elems : List (List UInt8)) :
    (spans p elems).map Prod.fst = addresses p elems := by
  induction elems generalizing p with
  | nil => rfl
  | cons x elems ih => simp [spans, addresses, ih]

theorem length_spans (p : Nat) (elems : List (List UInt8)) :
    (spans p elems).length = elems.length := by
  induction elems generalizing p with
  | nil => rfl
  | cons x elems ih => simp [spans, ih]

theorem tiles_spans (p : Nat) (elems : List (List UInt8)) :
    Tiles p (spans p elems) (p + elems.flatten.length) := by
  induction elems generalizing p with
  | nil => rfl
  | cons x elems ih =>
      refine ⟨rfl, ?_⟩
      simpa [Nat.add_assoc] using ih (p + x.length)

theorem pairElems_pairSpans (p : Nat) (pairs : List (List UInt8 × List UInt8)) :
    pairElems (pairSpans p pairs) = spans p (pairElems pairs) := by
  induction pairs generalizing p with
  | nil => rfl
  | cons pair pairs ih => simp [pairSpans, spans, ih]

/-- Each element of a held sequence is held where its span says. -/
theorem holds_of_mem_spans {elems : List (List UInt8)} {rest : List UInt8}
    (held : buffer.Holds p (elems.flatten ++ rest)) {elem : Nat × Nat}
    (mem : elem ∈ spans p elems) :
    ∃ x ∈ elems, elem.2 = x.length ∧ buffer.Holds elem.1 x := by
  induction elems generalizing p with
  | nil => simp [spans] at mem
  | cons x elems ih =>
      have at_x : buffer.Holds p (x ++ (elems.flatten ++ rest)) := by simpa using held
      rcases List.mem_cons.mp mem with rfl | mem
      · exact ⟨x, by simp, rfl, at_x.left⟩
      · obtain ⟨y, yMem, lengthEq, at_y⟩ := ih at_x.right mem
        exact ⟨y, List.mem_cons_of_mem _ yMem, lengthEq, at_y⟩

theorem holds_key_of_mem_pairSpans {pairs : List (List UInt8 × List UInt8)}
    {rest : List UInt8} (held : buffer.Holds p ((pairElems pairs).flatten ++ rest))
    {pair : (Nat × Nat) × Nat × Nat} (mem : pair ∈ pairSpans p pairs) :
    ∃ kv ∈ pairs, buffer.Holds pair.1.1 kv.1 := by
  induction pairs generalizing p with
  | nil => simp [pairSpans] at mem
  | cons kv pairs ih =>
      obtain ⟨k, v⟩ := kv
      have at_k : buffer.Holds p (k ++ (v ++ ((pairElems pairs).flatten ++ rest))) := by
        simpa using held
      rcases List.mem_cons.mp mem with rfl | mem
      · exact ⟨(k, v), by simp, at_k.left⟩
      · obtain ⟨kv, kvMem, at_kv⟩ := ih at_k.right.right mem
        exact ⟨kv, List.mem_cons_of_mem _ kvMem, at_kv⟩

theorem Value.consumed {x : List UInt8} (value : Value x) (held : buffer.Holds p x)
    (enough : 2 * x.length ≤ fuel) : Consumed buffer fuel p x.length := by
  obtain ⟨after, at_p⟩ := held.exists_rest
  exact ⟨value.length_pos, held.add_length_le, value.recognised fuel p after at_p enough⟩

theorem agrees_of_str {x : List UInt8} (string : Str x) (held : buffer.Holds p x)
    (enough : 2 * x.length ≤ fuel) : Agrees buffer fuel p x.length := by
  have consumed := (Value.str string).consumed held enough
  have length := measured_of_str string fuel p held enough
  obtain ⟨ds, bs, digits, lengthEq⟩ := string
  obtain ⟨after, at_p⟩ := held.exists_rest
  have insideWord := held.add_length_lt
  simp only [List.length_append, List.length_cons] at enough insideWord
  have at_header : buffer.Rest p (ds ++ ':'.toUInt8 :: (bs ++ after)) := by
    simpa using at_p
  have skipped := readLength_zero at_header digits.2 (noDigit_colon _)
    (show ds.length < fuel by omega)
  rw [lengthEq, Nat.mod_eq_of_lt (by omega)] at skipped
  refine .str (bencIsstr_of_digits held digits) consumed skipped ?_ length
    (bencMem_eq held digits lengthEq (by omega))
  simp only [List.length_append, List.length_cons]
  omega

/-- Every element inside a container that fits the fuel fits it, too. -/
theorem enough_of_mem {opener : UInt8} {elems : List (List UInt8)} {x : List UInt8}
    (enough : 2 * (container opener elems).length ≤ fuel) (mem : x ∈ elems) :
    2 * x.length ≤ fuel := by
  have smaller := (List.sublist_flatten_of_mem mem).length_le
  rw [length_container] at enough
  omega

theorem tiles_container (opener : UInt8) (elems : List (List UInt8)) :
    Tiles (p + 1) (spans (p + 1) elems) (p + (container opener elems).length - 1) := by
  have tiles := tiles_spans (p + 1) elems
  have ends : p + 1 + elems.flatten.length = p + (container opener elems).length - 1 := by
    rw [length_container]
    omega
  rwa [ends] at tiles

/-- The accessors agree with the validator on a value of the grammar, wherever
it lies. -/
theorem Value.agrees {x : List UInt8} (value : Value x) (held : buffer.Holds p x)
    (enough : 2 * x.length ≤ fuel) : Agrees buffer fuel p x.length := by
  have consumed := value.consumed held enough
  have length := value.measured fuel p held enough
  induction value generalizing p with
  | str string => exact agrees_of_str string held enough
  | int negative ds digits =>
      have at_i : buffer.Holds p ('i'.toUInt8 :: _) := held
      exact .int at_i.read_eq consumed length
  | list elems values ih =>
      have at_l : buffer.Holds p ('l'.toUInt8 :: (elems.flatten ++ ['e'.toUInt8])) := held
      have visited := bencElems_container (.inr rfl) values held enough
      have counted := bencNelems_container (.inr rfl) values held enough
      rw [← map_fst_spans] at visited
      rw [← length_spans (p + 1)] at counted
      refine .list (spans (p + 1) elems) at_l.read_eq consumed (tiles_container _ _) length
        visited counted ?_
      intro elem mem
      obtain ⟨x, xMem, lengthEq, at_x⟩ := holds_of_mem_spans at_l.tail mem
      have xEnough := enough_of_mem enough xMem
      rw [lengthEq]
      exact ih x xMem at_x xEnough ((values x xMem).consumed at_x xEnough)
        ((values x xMem).measured fuel _ at_x xEnough)
  | dict pairs keys values ih =>
      have at_d : buffer.Holds p ('d'.toUInt8 :: ((pairElems pairs).flatten ++
        ['e'.toUInt8])) := held
      have elemValues : ∀ x ∈ pairElems pairs, Value x :=
        fun x mem => value_of_mem_pairElems keys values mem
      have visited := bencElems_container (.inl rfl) elemValues held enough
      have counted := bencNelems_container (.inl rfl) elemValues held enough
      rw [← map_fst_spans, ← pairElems_pairSpans] at visited
      rw [← length_spans (p + 1), ← pairElems_pairSpans] at counted
      have tiles := tiles_container (p := p) 'd'.toUInt8 (pairElems pairs)
      rw [← pairElems_pairSpans] at tiles
      refine .dict (pairSpans (p + 1) pairs) at_d.read_eq consumed tiles ?_ length visited
        counted ?_ ?_
      · intro pair mem
        obtain ⟨kv, kvMem, at_k⟩ := holds_key_of_mem_pairSpans at_d.tail mem
        obtain ⟨c, tail, kEq, digit⟩ := (keys kv kvMem).head_isdigit
        rw [kEq] at at_k
        simp [bencIsstr, at_k.read_eq, digit, bind, Except.bind, pure, Except.pure]
      · exact fun key keyNonzero =>
          ⟨_, bencDgetAny_dict keyNonzero pairs keys values held enough⟩
      · intro elem mem
        rw [pairElems_pairSpans] at mem
        obtain ⟨x, xMem, lengthEq, at_x⟩ := holds_of_mem_spans at_d.tail mem
        have xEnough := enough_of_mem enough xMem
        rw [lengthEq]
        simp only [pairElems, List.mem_flatMap, List.mem_cons, List.not_mem_nil,
          or_false] at xMem
        obtain ⟨pair, pairMem, rfl | rfl⟩ := xMem
        · exact agrees_of_str (keys pair pairMem) at_x xEnough
        · have value := values pair pairMem
          exact ih pair pairMem at_x xEnough (value.consumed at_x xEnough)
            (value.measured fuel _ at_x xEnough)

/-! ## What is agreed upon is a value -/

theorem Buffer.Holds.append {xs ys : List UInt8} (first : buffer.Holds p xs)
    (second : buffer.Holds (p + xs.length) ys) : buffer.Holds p (xs ++ ys) := by
  obtain ⟨before, after, bytesEq, rfl⟩ := first
  obtain ⟨before', after', bytesEq', positionEq⟩ := second
  have split : before ++ xs ++ after = before' ++ (ys ++ after') := by
    rw [← bytesEq, bytesEq', List.append_assoc]
  have beforeEq := (List.append_inj split (by
    simp only [List.length_append]
    omega)).1
  exact ⟨before, after', by rw [bytesEq', ← beforeEq]; simp, rfl⟩

/-- A container ends at the byte `e`. -/
theorem read_of_bencValidateElems {last d q : Nat}
    (validated : bencValidateElems buffer last fuel d p = .ok (some q)) :
    buffer.read q = .ok 'e'.toUInt8 := by
  induction fuel generalizing d p with
  | zero => cases validated
  | succ fuel ih =>
      rw [bencValidateElems] at validated
      split at validated
      · cases readEq : buffer.read p with
        | error fault => simp [readEq, bind, Except.bind] at validated
        | ok c =>
            simp only [readEq, bind, Except.bind] at validated
            split at validated
            · rename_i closes
              split at validated
              · cases validated
              · cases validated
                rw [readEq, closes]
            · split at validated
              · cases validated
              · cases element : bencValidateAux buffer last fuel p with
                | error fault => simp [element] at validated
                | ok result =>
                    cases result with
                    | none => simp [element, pure, Except.pure] at validated
                    | some r =>
                        simp only [element] at validated
                        exact ih validated
      · cases validated

/-- The bytes between `p` and `q`, cut up as the elements are. -/
theorem exists_values_of_tiles {elems : List (Nat × Nat)} {q : Nat}
    (at_p : buffer.Holds p []) (tiles : Tiles p elems q)
    (inner : ∀ elem ∈ elems, ∃ x, buffer.Holds elem.1 x ∧ x.length = elem.2 ∧ Value x) :
    ∃ xs : List (List UInt8), (∀ x ∈ xs, Value x) ∧ buffer.Holds p xs.flatten ∧
      p + xs.flatten.length = q := by
  induction elems generalizing p with
  | nil => exact ⟨[], by simp, at_p, tiles⟩
  | cons elem elems ih =>
      obtain ⟨rfl, tiles⟩ := tiles
      obtain ⟨x, at_x, lengthEq, value⟩ := inner elem (by simp)
      rw [← lengthEq] at tiles
      have after := at_x.nil_after
      obtain ⟨xs, values, at_xs, ends⟩ := ih after tiles
        (fun elem mem => inner elem (List.mem_cons_of_mem _ mem))
      refine ⟨x :: xs, by simpa using ⟨value, values⟩, by simpa using at_x.append at_xs, ?_⟩
      rw [List.flatten_cons, List.length_append, ← Nat.add_assoc, ends]

/-- A value that the accessors take for a string is one. -/
theorem str_of_bencIsstr {x : List UInt8} (value : Value x) (at_x : buffer.Holds p x)
    (string : bencIsstr buffer p = .ok true) : Str x := by
  obtain ⟨c, tail, rfl, -⟩ := value.head
  simp only [bencIsstr, at_x.read_eq, bind, Except.bind, pure, Except.pure,
    Except.ok.injEq] at string
  exact value.str_of_isdigit string

theorem exists_pairs_of_tiles {pairs : List ((Nat × Nat) × Nat × Nat)} {q : Nat}
    (at_p : buffer.Holds p []) (tiles : Tiles p (pairElems pairs) q)
    (keys : ∀ pair ∈ pairs, bencIsstr buffer pair.1.1 = .ok true)
    (inner : ∀ elem ∈ pairElems pairs,
      ∃ x, buffer.Holds elem.1 x ∧ x.length = elem.2 ∧ Value x) :
    ∃ kvs : List (List UInt8 × List UInt8), (∀ kv ∈ kvs, Str kv.1) ∧
      (∀ kv ∈ kvs, Value kv.2) ∧ buffer.Holds p (pairElems kvs).flatten ∧
      p + (pairElems kvs).flatten.length = q := by
  induction pairs generalizing p with
  | nil => exact ⟨[], by simp, by simp, at_p, tiles⟩
  | cons pair pairs ih =>
      obtain ⟨⟨pk, nk⟩, pv, nv⟩ := pair
      obtain ⟨keyEq, valueEq, tiles⟩ := tiles
      simp only at keyEq valueEq
      subst keyEq valueEq
      obtain ⟨k, at_k, rfl, keyValue⟩ := inner (pk, nk) (by simp)
      obtain ⟨v, at_v, rfl, value⟩ := inner (pk + k.length, nv) (by simp)
      have string := str_of_bencIsstr keyValue at_k (keys _ List.mem_cons_self)
      have after := at_v.nil_after
      obtain ⟨kvs, strings, values, at_kvs, ends⟩ := ih after tiles
        (fun pair mem => keys pair (List.mem_cons_of_mem _ mem))
        (fun elem mem => inner elem (by simp [mem]))
      refine ⟨(k, v) :: kvs, List.forall_mem_cons.mpr ⟨string, strings⟩,
        List.forall_mem_cons.mpr ⟨value, values⟩, by simpa using at_k.append (at_v.append at_kvs), ?_⟩
      simp only [pairElems_cons, List.flatten_cons, List.length_append]
      omega

/-- `benc_mem` on a header that ends in a colon. -/
theorem bencMem_header {ds rest : List UInt8}
    (held : buffer.Holds p (ds ++ ':'.toUInt8 :: rest)) (digits : IsDigits ds)
    (enough : ds.length < fuel) :
    bencMem buffer fuel p = .ok (some (p + ds.length + 1, min (digitsVal ds) ULONG_MAX)) := by
  have scanned := readDigits_eq 0 held digits.2 isdigit_colon enough
  have colon := held.right
  simp only [bencMem, bencIsstr_of_digits held digits, bencMemHead, strtoul, scanned, bind,
    Except.bind, pure, Except.pure, colon.read_eq, if_true, colon.ptrAdd_one]
  rfl

/-- A string on which the wrapping accumulator of the validator and the
saturating `strtoul` agree has the length that its digits denote. -/
theorem exists_str_of_agrees {colon blen : Nat} (enough : buffer.bytes.length + 2 ≤ fuel)
    (string : bencIsstr buffer p = .ok true) (consumed : Consumed buffer fuel p n)
    (ends : colon + 1 + blen = p + n)
    (mem : bencMem buffer fuel p = .ok (some (colon + 1, blen))) :
    ∃ x, buffer.Holds p x ∧ x.length = n ∧ Str x := by
  obtain ⟨fuel, rfl⟩ := Nat.exists_eq_add_one_of_ne_zero (show fuel ≠ 0 by omega)
  have validated := consumed.validated
  cases readEq : buffer.read p with
  | error fault => simp [bencIsstr, readEq, bind, Except.bind] at string
  | ok c =>
      simp only [bencIsstr, readEq, bind, Except.bind, pure, Except.pure,
        Except.ok.injEq] at string
      have notOpener : c ≠ 'd'.toUInt8 ∧ c ≠ 'l'.toUInt8 ∧ c ≠ 'i'.toUInt8 := by
        refine ⟨?_, ?_, ?_⟩ <;> (rintro rfl; revert string; decide)
      simp only [bencValidateAux, readEq, bind, Except.bind, if_neg notOpener.1,
        if_neg notOpener.2.1, if_neg notOpener.2.2, string, if_true] at validated
      obtain ⟨after, at_p⟩ := (Buffer.holds_of_read readEq).exists_rest
      obtain ⟨ds, rest, split, digits, noDigit⟩ := exists_digit_prefix ([c] ++ after)
      have nonempty : ds ≠ [] := by
        rintro rfl
        rw [noDigit c after split.symm] at string
        cases string
      rw [split] at at_p
      have insideWord := buffer.stop_lt
      have reaches := at_p.ends
      have afterBase := at_p.held.base_le
      simp only [List.length_append] at reaches
      have dsShort : ds.length ≤ buffer.bytes.length := by
        simp only [Buffer.stop] at reaches
        omega
      by_cases hasColon : ∃ tail, rest = ':'.toUInt8 :: tail
      · obtain ⟨tail, rfl⟩ := hasColon
        have header := bencMem_header at_p.held ⟨nonempty, digits⟩
          (show ds.length < fuel + 1 by omega)
        rw [header] at mem
        obtain ⟨rfl, blenEq⟩ : p + ds.length = colon ∧ min (digitsVal ds) ULONG_MAX = blen := by
          simpa using mem
        have inside := consumed.inside
        simp only [List.length_cons] at reaches
        have exact : digitsVal ds = blen := by
          simp only [ULONG_MAX] at blenEq
          omega
        have fitsTail : (tail.take blen).length = blen := by
          rw [List.length_take]
          omega
        refine ⟨ds ++ ':'.toUInt8 :: tail.take blen, ?_, ?_,
          ⟨ds, _, ⟨nonempty, digits⟩, by rw [fitsTail, exact]⟩⟩
        · have whole : buffer.Holds p
              ((ds ++ ':'.toUInt8 :: tail.take blen) ++ tail.drop blen) := by
            simpa using at_p.held
          exact whole.left
        · simp only [List.length_append, List.length_cons, fitsTail]
          omega
      · rw [bencValidateStr_other at_p digits noDigit
          (fun tail restEq => hasColon ⟨tail, restEq⟩) (by omega)] at validated
        cases validated

theorem exists_integer_of_consumed (enough : buffer.bytes.length + 2 ≤ fuel)
    (opener : buffer.read p = .ok 'i'.toUInt8) (consumed : Consumed buffer fuel p n) :
    ∃ x, buffer.Holds p x ∧ x.length = n ∧ Value x := by
  obtain ⟨fuel, rfl⟩ := Nat.exists_eq_add_one_of_ne_zero (show fuel ≠ 0 by omega)
  have validated := consumed.validated
  have notOther : 'i'.toUInt8 ≠ 'd'.toUInt8 ∧ 'i'.toUInt8 ≠ 'l'.toUInt8 := by decide
  obtain ⟨after, at_p⟩ := (Buffer.holds_of_read opener).exists_rest
  have at_i : buffer.Rest p ('i'.toUInt8 :: after) := at_p
  have reaches := at_i.ends
  have afterBase := at_i.held.base_le
  simp only [Buffer.stop, List.length_cons] at reaches
  obtain ⟨r, result, sound⟩ := bencValidateInt_sound fuel at_i.next (by omega)
  simp only [bencValidateAux, opener, bind, Except.bind, if_neg notOther.1,
    if_neg notOther.2, if_true, at_i.ptrAdd_one, result, Except.ok.injEq] at validated
  obtain ⟨negative, ds, rest, rfl, digits, lastEq⟩ := sound _ validated
  refine ⟨integer negative ds, ?_, ?_, .int negative ds digits⟩
  · have whole : buffer.Holds p (integer negative ds ++ rest) := by
      simpa [integer, sign] using at_i.held
    exact whole.left
  · have positive := consumed.pos
    have : (integer negative ds).length = 2 + (sign negative).length + ds.length := by
      simp only [integer, sign, List.length_cons, List.length_append, List.length_nil]
      omega
    omega

/-- The two bytes around the elements of a container. -/
theorem Buffer.Holds.container {opener : UInt8} {xs : List (List UInt8)}
    (openerRead : buffer.read p = .ok opener) (inner : buffer.Holds (p + 1) xs.flatten)
    (closing : buffer.read (p + 1 + xs.flatten.length) = .ok 'e'.toUInt8) :
    buffer.Holds p (container opener xs) :=
  (Buffer.holds_of_read openerRead).append (inner.append (Buffer.holds_of_read closing))

/-- Whatever is agreed upon is a value of the grammar. -/
theorem Agrees.exists_value (agrees : Agrees buffer fuel p n)
    (enough : buffer.bytes.length + 2 ≤ fuel) :
    ∃ x, buffer.Holds p x ∧ x.length = n ∧ Value x := by
  obtain ⟨fuel, rfl⟩ := Nat.exists_eq_add_one_of_ne_zero (show fuel ≠ 0 by omega)
  induction agrees with
  | @int p n opener consumed length =>
      exact exists_integer_of_consumed enough opener consumed
  | @str p n colon blen string consumed skipped ends length mem =>
      obtain ⟨x, at_x, lengthEq, isStr⟩ :=
        exists_str_of_agrees enough string consumed ends mem
      exact ⟨x, at_x, lengthEq, .str isStr⟩
  | @list p n elems opener consumed tiles length visited counted inner ih =>
      have inside : buffer.Holds (p + 1) [] := (Buffer.holds_of_read opener).nil_after
      obtain ⟨xs, values, at_xs, ends⟩ := exists_values_of_tiles inside tiles ih
      have validated := consumed.validated
      have notDict : 'l'.toUInt8 ≠ 'd'.toUInt8 := by decide
      simp only [bencValidateAux, opener, bind, Except.bind, if_neg notDict, if_true]
        at validated
      have closing := read_of_bencValidateElems validated
      rw [← ends] at closing
      refine ⟨_, Buffer.Holds.container opener at_xs closing, ?_, .list xs values⟩
      have positive := consumed.pos
      rw [length_container]
      omega
  | @dict p n pairs opener consumed tiles keys length visited counted found inner ih =>
      have inside : buffer.Holds (p + 1) [] := (Buffer.holds_of_read opener).nil_after
      obtain ⟨kvs, strings, values, at_kvs, ends⟩ :=
        exists_pairs_of_tiles inside tiles keys ih
      have validated := consumed.validated
      simp only [bencValidateAux, opener, bind, Except.bind, if_true] at validated
      have closing := read_of_bencValidateElems validated
      rw [← ends] at closing
      refine ⟨_, Buffer.Holds.container opener at_kvs closing, ?_, .dict kvs strings values⟩
      have positive := consumed.pos
      rw [length_container]
      omega

/-- The accessors agree with the validator on exactly the buffers that are one
value of the grammar. -/
theorem accessorsAgree_iff (buffer : Buffer) :
    AccessorsAgree buffer ↔ Value buffer.bytes := by
  constructor
  · rintro ⟨bound, agrees⟩
    obtain ⟨x, at_x, lengthEq, value⟩ :=
      (agrees (bound + (buffer.bytes.length + 2)) (by omega)).exists_value (by omega)
    rwa [buffer.holds_base.unique at_x lengthEq.symm]
  · intro value
    exact ⟨2 * buffer.bytes.length, fun fuel enough => value.agrees buffer.holds_base enough⟩

/-- The validator accepts a buffer on which the accessors part from it: the
length of the string wraps to one byte for the first and saturates for the
others. -/
theorem accepted_not_accessorsAgree :
    bencValidate wrappedBuffer 30 = .ok 0 ∧ ¬ AccessorsAgree wrappedBuffer := by
  have accepted : bencValidate wrappedBuffer 30 = .ok 0 := bencValidate_wrappedBuffer 0
  exact ⟨accepted, fun agree =>
    not_value_wrappedBuffer ((accessorsAgree_iff wrappedBuffer).mp agree)⟩

end Btpd.Benc
