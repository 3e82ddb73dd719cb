import Btpd.Benc.Memory

/-!
# The bencode grammar

`Value xs` says that the bytes `xs` are exactly one bencoded value, with string
lengths read as unbounded natural numbers.  It is stated over byte lists alone
and knows nothing of pointers or of the C routines; those are compared with it
in later files.

`Opens before` describes the places at which a left-to-right scan of a buffer
meets the first byte of a value: some containers have been opened, and in each
of them a number of complete elements has gone by.
-/

namespace Btpd.Benc

/-- `digits ':' bytes`, where the digits denote the number of bytes. -/
inductive Str : List UInt8 → Prop
  | mk (ds bs : List UInt8) (digits : IsDigits ds) (lengthEq : digitsVal ds = bs.length) :
      Str (ds ++ ':'.toUInt8 :: bs)

/-- The keys and values of a dictionary as one sequence of elements. -/
def pairElems {α : Type} (pairs : List (α × α)) : List α :=
  pairs.flatMap fun pair => [pair.1, pair.2]

/-- The bytes of a list or dictionary with the given elements. -/
def container (opener : UInt8) (elems : List (List UInt8)) : List UInt8 :=
  opener :: (elems.flatten ++ ['e'.toUInt8])

/-- The bytes of an integer with an optional minus sign. -/
def integer (negative : Bool) (ds : List UInt8) : List UInt8 :=
  'i'.toUInt8 :: ((if negative then ['-'.toUInt8] else []) ++ (ds ++ ['e'.toUInt8]))

/-- The bytes are exactly one bencoded value. -/
inductive Value : List UInt8 → Prop
  | str {x : List UInt8} (string : Str x) : Value x
  | int (negative : Bool) (ds : List UInt8) (digits : IsDigits ds) :
      Value (integer negative ds)
  | list (elems : List (List UInt8)) (values : ∀ x ∈ elems, Value x) :
      Value (container 'l'.toUInt8 elems)
  | dict (pairs : List (List UInt8 × List UInt8))
      (keys : ∀ pair ∈ pairs, Str pair.1) (values : ∀ pair ∈ pairs, Value pair.2) :
      Value (container 'd'.toUInt8 (pairElems pairs))

/-- A scan that has read `before` stands at the first byte of a value. -/
inductive Opens : List UInt8 → Prop
  | start : Opens []
  | element {before : List UInt8} (outer : Opens before) (elems : List (List UInt8))
      (values : ∀ x ∈ elems, Value x) :
      Opens (before ++ 'l'.toUInt8 :: elems.flatten)
  | key {before : List UInt8} (outer : Opens before)
      (pairs : List (List UInt8 × List UInt8))
      (keys : ∀ pair ∈ pairs, Str pair.1) (values : ∀ pair ∈ pairs, Value pair.2) :
      Opens (before ++ 'd'.toUInt8 :: (pairElems pairs).flatten)
  | value {before : List UInt8} (outer : Opens before)
      (pairs : List (List UInt8 × List UInt8))
      (keys : ∀ pair ∈ pairs, Str pair.1) (values : ∀ pair ∈ pairs, Value pair.2)
      {k : List UInt8} (string : Str k) :
      Opens (before ++ 'd'.toUInt8 :: ((pairElems pairs).flatten ++ k))

@[simp]
theorem pairElems_nil {α : Type} : pairElems ([] : List (α × α)) = [] :=
  rfl

@[simp]
theorem pairElems_cons {α : Type} (pair : α × α) (pairs : List (α × α)) :
    pairElems (pair :: pairs) = pair.1 :: pair.2 :: pairElems pairs :=
  rfl

theorem pairElems_append {α : Type} (first second : List (α × α)) :
    pairElems (first ++ second) = pairElems first ++ pairElems second := by
  simp [pairElems]

theorem length_container (opener : UInt8) (elems : List (List UInt8)) :
    (container opener elems).length = elems.flatten.length + 2 := by
  simp [container]

/-- A string starts with a digit. -/
theorem Str.head_isdigit {x : List UInt8} (string : Str x) :
    ∃ c tail, x = c :: tail ∧ isdigit c = true := by
  obtain ⟨ds, bs, ⟨nonempty, digits⟩, -⟩ := string
  obtain ⟨c, tail, rfl⟩ := List.exists_cons_of_ne_nil nonempty
  exact ⟨c, tail ++ ':'.toUInt8 :: bs, by simp, digits c (by simp)⟩

/-- Every value has a first byte, which is a digit or one of the three
openers. -/
theorem Value.head {x : List UInt8} (value : Value x) :
    ∃ c tail, x = c :: tail ∧
      (isdigit c = true ∨ c = 'i'.toUInt8 ∨ c = 'l'.toUInt8 ∨ c = 'd'.toUInt8) := by
  cases value with
  | str string =>
      obtain ⟨c, tail, xEq, digit⟩ := string.head_isdigit
      exact ⟨c, tail, xEq, .inl digit⟩
  | int negative ds digits => exact ⟨_, _, rfl, .inr (.inl rfl)⟩
  | list elems values => exact ⟨_, _, rfl, .inr (.inr (.inl rfl))⟩
  | dict pairs keys values => exact ⟨_, _, rfl, .inr (.inr (.inr rfl))⟩

/-- No value starts with the byte that closes a container. -/
theorem Value.head_ne_e {c : UInt8} {tail : List UInt8} (value : Value (c :: tail)) :
    c ≠ 'e'.toUInt8 := by
  obtain ⟨c', tail', consEq, kind⟩ := value.head
  cases consEq
  rintro rfl
  revert kind
  decide

theorem Value.length_pos {x : List UInt8} (value : Value x) : 0 < x.length := by
  obtain ⟨c, tail, rfl, -⟩ := value.head
  simp

theorem Str.length_pos {x : List UInt8} (string : Str x) : 0 < x.length :=
  (Value.str string).length_pos

/-- Keys and values of a dictionary are values. -/
theorem value_of_mem_pairElems {pairs : List (List UInt8 × List UInt8)}
    (keys : ∀ pair ∈ pairs, Str pair.1) (values : ∀ pair ∈ pairs, Value pair.2)
    {x : List UInt8} (mem : x ∈ pairElems pairs) : Value x := by
  simp only [pairElems, List.mem_flatMap, List.mem_cons, List.not_mem_nil, or_false] at mem
  obtain ⟨pair, pairMem, rfl | rfl⟩ := mem
  · exact .str (keys pair pairMem)
  · exact values pair pairMem

/-- A value that starts with a digit is a string. -/
theorem Value.str_of_isdigit {c : UInt8} {xs : List UInt8} (value : Value (c :: xs))
    (digit : isdigit c = true) : Str (c :: xs) := by
  generalize valueEq : c :: xs = x at value
  cases value with
  | str string => exact string
  | int negative ds digits =>
      cases valueEq
      exact absurd digit (by decide)
  | list elems values =>
      cases valueEq
      exact absurd digit (by decide)
  | dict pairs keys values =>
      cases valueEq
      exact absurd digit (by decide)

theorem isdigit_colon : isdigit ':'.toUInt8 = false := by decide

/-- The colon ends the digits: there is only one way to read a string header. -/
theorem digits_colon_unique {ds ds' rest rest' : List UInt8}
    (digits : ∀ c ∈ ds, isdigit c = true) (digits' : ∀ c ∈ ds', isdigit c = true)
    (equal : ds ++ ':'.toUInt8 :: rest = ds' ++ ':'.toUInt8 :: rest') :
    ds = ds' ∧ rest = rest' := by
  induction ds generalizing ds' with
  | nil =>
      cases ds' with
      | nil => simpa using equal
      | cons c ds' =>
          have notDigit := isdigit_colon
          rw [(List.cons.inj equal).1, digits' c (by simp)] at notDigit
          cases notDigit
  | cons c ds ih =>
      cases ds' with
      | nil =>
          have notDigit := isdigit_colon
          rw [← (List.cons.inj equal).1, digits c (by simp)] at notDigit
          cases notDigit
      | cons c' ds' =>
          obtain ⟨headEq, tailEq⟩ := List.cons.inj equal
          obtain ⟨dsEq, restEq⟩ := ih (fun d mem => digits d (List.mem_cons_of_mem _ mem))
            (fun d mem => digits' d (List.mem_cons_of_mem _ mem)) tailEq
          exact ⟨by rw [headEq, dsEq], restEq⟩

end Btpd.Benc
