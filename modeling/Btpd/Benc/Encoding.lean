import Btpd.Benc.Print

/-!
# The accessors invert the canonical encoding

`Bencode` is an abstract value and `encode` its canonical encoding, with every
number in decimal without leading zeros.  Wherever an encoding lies in a buffer,
with anything behind it, each accessor of `misc/benc.c` gives back the part of
the value it is named after.
-/

namespace Btpd.Benc

/-- A value: a number that a `long long` holds, a string of bytes, a list, or a dictionary. -/
inductive Bencode where
  | int (n : Int64)
  | str (bs : List UInt8)
  | list (xs : List Bencode)
  | dict (pairs : List (List UInt8 × Bencode))

namespace Bencode

mutual

/-- The canonical encoding. -/
def encode : Bencode → List UInt8
  | .int n => bencodeInt n.toInt
  | .str bs => bencodeStr bs
  | .list xs => container 'l'.toUInt8 (encodeElems xs)
  | .dict pairs => container 'd'.toUInt8 (pairElems (encodePairs pairs))

/-- The encodings of the elements of a list. -/
def encodeElems : List Bencode → List (List UInt8)
  | [] => []
  | x :: xs => encode x :: encodeElems xs

/-- The encodings of the pairs of a dictionary. -/
def encodePairs : List (List UInt8 × Bencode) → List (List UInt8 × List UInt8)
  | [] => []
  | (key, v) :: pairs => (bencodeStr key, encode v) :: encodePairs pairs

end

theorem encodeElems_eq_map (xs : List Bencode) : encodeElems xs = xs.map encode := by
  induction xs with
  | nil => rfl
  | cons x xs ih => rw [encodeElems, ih, List.map_cons]

theorem encodePairs_eq_map (pairs : List (List UInt8 × Bencode)) :
    encodePairs pairs = pairs.map fun pair => (bencodeStr pair.1, encode pair.2) := by
  induction pairs with
  | nil => rfl
  | cons pair pairs ih =>
      obtain ⟨key, v⟩ := pair
      rw [encodePairs, ih, List.map_cons]

mutual

/-- An encoding is a value of the grammar. -/
theorem value_encode (v : Bencode) : Value (encode v) := by
  cases v with
  | int n =>
      rw [encode]
      exact value_bencodeInt n.toInt
  | str bs =>
      rw [encode]
      exact .str (str_bencodeStr bs)
  | list xs =>
      rw [encode]
      exact .list _ (value_encodeElems xs)
  | dict pairs =>
      rw [encode]
      exact .dict _ (values_encodePairs pairs).1 (values_encodePairs pairs).2

theorem value_encodeElems (xs : List Bencode) : ∀ x ∈ encodeElems xs, Value x := by
  cases xs with
  | nil => simp [encodeElems]
  | cons x xs =>
      rw [encodeElems, List.forall_mem_cons]
      exact ⟨value_encode x, value_encodeElems xs⟩

theorem values_encodePairs (pairs : List (List UInt8 × Bencode)) :
    (∀ pair ∈ encodePairs pairs, Str pair.1) ∧ ∀ pair ∈ encodePairs pairs, Value pair.2 := by
  match pairs with
  | [] => simp [encodePairs]
  | (key, v) :: pairs =>
      rw [encodePairs, List.forall_mem_cons, List.forall_mem_cons]
      have later := values_encodePairs pairs
      exact ⟨⟨str_bencodeStr key, later.1⟩, value_encode v, later.2⟩

end

end Bencode

/-! ## What the accessors return -/

/-- A walk with `benc_next` from a pointer that may be null meets the given
elements, one after the other, and no others. -/
inductive Enumerates (buffer : Buffer) (fuel : Nat) : Option Nat → List (List UInt8) → Prop
  | done : Enumerates buffer fuel none []
  | element {q : Nat} {x : List UInt8} {next : Option Nat} {xs : List (List UInt8)}
      (held : buffer.Holds q x) (step : bencNext buffer fuel q = .ok next)
      (later : Enumerates buffer fuel next xs) : Enumerates buffer fuel (some q) (x :: xs)

/-- `benc_nelems` counts the given elements, and `benc_first` starts a walk over
them. -/
structure Walked (buffer : Buffer) (fuel p : Nat) (elems : List (List UInt8)) : Prop where
  counted : bencNelems buffer fuel p = .ok elems.length
  enumerated : ∃ first, bencFirst buffer p = .ok first ∧ Enumerates buffer fuel first elems

/-- `benc_dget_any` finds the value of the first pair with the key, if there is
one. -/
def LooksUp (buffer : Buffer) (fuel p : Nat) (pairs : List (List UInt8 × Bencode))
    (key : List UInt8) : Prop :=
  match pairs.find? fun pair => pair.1 = key with
  | some pair => ∃ q, bencDgetAny buffer fuel p key = .ok (some q) ∧
      buffer.Holds q pair.2.encode
  | none => bencDgetAny buffer fuel p key = .ok none

/-- The accessors for the kind of the value give back its parts. -/
def Parts (buffer : Buffer) (fuel p : Nat) : Bencode → Prop
  | .int n => bencInt buffer fuel p = .ok n.toInt
  | .str bs => ∃ q, bencMem buffer fuel p = .ok (some (q, bs.length)) ∧ buffer.Holds q bs
  | .list xs => Walked buffer fuel p (xs.map Bencode.encode)
  | .dict pairs =>
      Walked buffer fuel p
        (pairElems (pairs.map fun pair => (bencodeStr pair.1, pair.2.encode))) ∧
      ∀ key, 0 ∉ key → LooksUp buffer fuel p pairs key

variable {buffer : Buffer} {fuel p : Nat}

theorem enumerates_startOf {elems : List (List UInt8)} (values : ∀ x ∈ elems, Value x)
    {rest : List UInt8} (held : buffer.Holds p (elems.flatten ++ 'e'.toUInt8 :: rest))
    (enough : 2 * elems.flatten.length ≤ fuel) :
    Enumerates buffer fuel (startOf p elems) elems := by
  induction elems generalizing p with
  | nil => exact .done
  | cons x elems ih =>
      simp only [List.flatten_cons, List.length_append] at enough
      have at_x : buffer.Holds p (x ++ (elems.flatten ++ 'e'.toUInt8 :: rest)) := by
        simpa using held
      refine .element at_x.left (bencNext_step fuel values held (by omega)) ?_
      exact ih (fun y mem => values y (List.mem_cons_of_mem _ mem)) at_x.right (by omega)

theorem walked_container {opener : UInt8} {elems : List (List UInt8)}
    (isOpener : opener = 'd'.toUInt8 ∨ opener = 'l'.toUInt8) (values : ∀ x ∈ elems, Value x)
    (held : buffer.Holds p (container opener elems))
    (enough : 2 * (container opener elems).length ≤ fuel) : Walked buffer fuel p elems := by
  have inner : buffer.Holds p (opener :: (elems.flatten ++ ['e'.toUInt8])) := held
  have size := enough
  rw [length_container] at size
  exact {
    counted := bencNelems_container isOpener values held enough
    enumerated := ⟨_, bencFirst_container isOpener values held,
      enumerates_startOf values inner.tail (by omega)⟩
  }

theorem looksUp_dict {pairs : List (List UInt8 × Bencode)} {key : List UInt8}
    (keyNonzero : 0 ∉ key) (held : buffer.Holds p (Bencode.dict pairs).encode)
    (enough : 2 * (Bencode.dict pairs).encode.length ≤ fuel) :
    LooksUp buffer fuel p pairs key := by
  obtain ⟨keys, values⟩ := Bencode.values_encodePairs pairs
  have find : ((Bencode.encodePairs pairs).find? fun pair => strBytes pair.1 = key) =
      (pairs.find? fun pair => pair.1 = key).map
        fun pair => (bencodeStr pair.1, pair.2.encode) := by
    simp only [Bencode.encodePairs_eq_map, List.find?_map, Function.comp_def,
      strBytes_bencodeStr]
  rw [Bencode.encode] at held enough
  unfold LooksUp
  cases found : pairs.find? fun pair => pair.1 = key with
  | none =>
      rw [found] at find
      exact bencDgetAny_missing key keyNonzero keys values held enough find
  | some pair =>
      rw [found] at find
      obtain ⟨q, any, at_q, -⟩ := bencDgetAny_found key keyNonzero keys values held enough find
      exact ⟨q, any, at_q⟩

/-! ## Loops that keep an invariant -/

/-- The rule for a loop over the elements of a container: what one turn carries over to the
next element holds of all of them behind the loop. -/
theorem bencForeach_keeps {α σ : Type} {enc : α → List UInt8} {body : σ → Nat → Exec (Option σ)}
    (invariant : List α → σ → Prop)
    (step : ∀ seen x q s, invariant seen s → buffer.Holds q (enc x) →
      2 * (enc x).length ≤ fuel → ∃ s', body s q = .ok (some s') ∧ invariant (seen ++ [x]) s')
    (xs : List α) (values : ∀ x, Value (enc x)) {rest : List UInt8}
    (held : buffer.Holds p ((xs.map enc).flatten ++ 'e'.toUInt8 :: rest))
    (enough : 2 * (xs.map enc).flatten.length ≤ fuel) {bound : Nat} (turns : xs.length < bound)
    (seen : List α) (s : σ) (start : invariant seen s) :
    ∃ s', bencForeach buffer fuel body bound (startOf p (xs.map enc)) s = .ok (some s') ∧
      invariant (seen ++ xs) s' := by
  induction xs generalizing p bound seen s with
  | nil =>
      obtain ⟨bound, rfl⟩ := Nat.exists_eq_add_one_of_ne_zero (show bound ≠ 0 by omega)
      exact ⟨s, rfl, by rwa [List.append_nil]⟩
  | cons x xs ih =>
      obtain ⟨bound, rfl⟩ := Nat.exists_eq_add_one_of_ne_zero (show bound ≠ 0 by omega)
      simp only [List.map_cons, List.flatten_cons, List.length_append, List.length_cons]
        at enough turns
      have at_x : buffer.Holds p (enc x ++ ((xs.map enc).flatten ++ 'e'.toUInt8 :: rest)) := by
        simpa using held
      have allValues : ∀ y ∈ enc x :: xs.map enc, Value y := by
        rw [← List.map_cons, List.forall_mem_map]
        exact fun y _ => values y
      have next := bencNext_step fuel allValues held (by omega)
      obtain ⟨middle, bodyEq, kept⟩ := step seen x p s start at_x.left (by omega)
      obtain ⟨s', looped, all⟩ := ih at_x.right (by omega) (show xs.length < bound by omega) _ _ kept
      refine ⟨s', ?_, by rwa [List.append_assoc] at all⟩
      rw [List.map_cons, startOf, bencForeach, bodyEq, Exec.bind_ok]
      simp only [next, Exec.bind_ok]
      exact looped

/-! ## Every accessor -/

/-- On the canonical encoding of a value, wherever it lies, the accessors invert
it. -/
theorem accessors_invert (v : Bencode) (held : buffer.Holds p v.encode)
    (enough : 2 * v.encode.length ≤ fuel) :
    bencLength buffer fuel p = .ok v.encode.length ∧
      (∀ c rest, buffer.Holds p (v.encode ++ c :: rest) →
        bencNext buffer fuel p = .ok (nextElem (p + v.encode.length) c)) ∧
      Parts buffer fuel p v := by
  have value := v.value_encode
  refine ⟨value.measured fuel p held enough,
    fun c rest following => bencNext_eq value following enough, ?_⟩
  cases v with
  | int n =>
      rw [Bencode.encode] at held enough
      exact bencInt_int (Int64.le_toInt n) (Int.le_of_lt_add_one n.toInt_lt) held (by omega)
  | str bs =>
      rw [Bencode.encode] at held enough
      exact bencMem_str held (by omega)
  | list xs =>
      rw [Bencode.encode, Bencode.encodeElems_eq_map] at held enough
      have values := Bencode.value_encodeElems xs
      rw [Bencode.encodeElems_eq_map] at values
      exact walked_container (.inr rfl) values held enough
  | dict pairs =>
      refine ⟨?_, fun key keyNonzero => looksUp_dict keyNonzero held enough⟩
      obtain ⟨keys, values⟩ := Bencode.values_encodePairs pairs
      rw [Bencode.encode] at held enough
      rw [Bencode.encodePairs_eq_map] at held enough keys values
      exact walked_container (.inl rfl)
        (fun x mem => value_of_mem_pairElems keys values mem) held enough

/-- A dictionary whose key, number and string all look like the end of
something. -/
def deceptive : Bencode := .dict [(literal "e", .list [.int (-5), .str (literal "e:1e")])]

/-- The dictionary as the second element of a list. -/
def deceptiveBuffer : Buffer where
  base := 4096
  bytes := literal "l0:d1:eli-5e4:e:1eeee"
  base_pos := page_pos
  fits := by decide +kernel

theorem accessors_invert_deceptive :
    bencLength deceptiveBuffer 60 4099 = .ok deceptive.encode.length ∧
      (∀ c rest, deceptiveBuffer.Holds 4099 (deceptive.encode ++ c :: rest) →
        bencNext deceptiveBuffer 60 4099 =
          .ok (nextElem (4099 + deceptive.encode.length) c)) ∧
      Parts deceptiveBuffer 60 4099 deceptive :=
  accessors_invert deceptive ⟨literal "l0:", literal "e", by decide +kernel, by decide +kernel⟩
    (by decide +kernel)

end Btpd.Benc
