import Btpd.Content.Stream

/-!
# The streams are one flat array

A flat array is read and changed at any place.  The files put end to end are such an
array, and the calls on the two streams do to it what they say: whatever they leave in
the streams, a stream that is used again is where it should be, or its descriptor does
not work any more.
-/

namespace Btpd.Content

open Prog Segments

/-! ## Flat arrays -/

/-- A flat array of bytes. -/
abbrev Flat := Nat → UInt8

/-- The bytes from a place on. -/
def Flat.slice (a : Flat) (off len : Nat) : List UInt8 := (List.range len).map fun i => a (off + i)

/-- The array after the bytes have been put at a place. -/
def Flat.put (a : Flat) (off : Nat) (buf : List UInt8) : Flat := fun o =>
  if off ≤ o ∧ o < off + buf.length then buf.getD (o - off) 0 else a o

/-- What a call gives back and leaves behind on a flat array.  A call that fails reads
nothing, and puts the first bytes at most. -/
inductive Flat.Step : Flat → Event → Reply → Flat → Prop
  | got (a : Flat) (off len : Nat) : Step a (.get off len) (.got (a.slice off len)) a
  | getFailed (a : Flat) (off len : Nat) (e : Errno) : Step a (.get off len) (.failed e) a
  | done (a : Flat) (off : Nat) (buf : List UInt8) : Step a (.put off buf) .done (a.put off buf)
  | putFailed (a : Flat) (off : Nat) (buf : List UInt8) (m : Nat) (e : Errno) :
      Step a (.put off buf) (.failed e) (a.put off (buf.take m))

/-- One call after the other on a flat array. -/
inductive Flat.Run : Flat → List Event → List Reply → Flat → Prop
  | nil (a : Flat) : Run a [] [] a
  | cons {a a' a'' : Flat} {e : Event} {events : List Event} {reply : Reply}
      {replies : List Reply} : Step a e reply a' → Run a' events replies a'' →
      Run a (e :: events) (reply :: replies) a''

variable {a : Flat} {off len m n : Nat} {buf rest : List UInt8}

@[simp]
theorem Flat.slice_zero : a.slice off 0 = [] := rfl

theorem Flat.slice_add : a.slice off (m + n) = a.slice off m ++ a.slice (off + m) n := by
  unfold slice
  rw [List.range_add, List.map_append, List.map_map]
  congr 2
  funext i
  exact congrArg a (Nat.add_assoc off m i).symm

@[simp]
theorem Flat.put_nil : a.put off [] = a := by
  funext o
  refine if_neg ?_
  rintro ⟨le, lt⟩
  exact absurd lt (Nat.not_lt.mpr le)

/-- Bytes that are put behind each other are put together. -/
theorem Flat.put_append : (a.put off buf).put (off + buf.length) rest = a.put off (buf ++ rest) := by
  funext o
  unfold put
  rw [List.length_append]
  by_cases second : off + buf.length ≤ o ∧ o < off + buf.length + rest.length
  · rw [if_pos second, if_pos ⟨by omega, by omega⟩, List.getD_append_right _ _ _ _ (by omega),
      Nat.sub_add_eq]
  · rw [if_neg second]
    by_cases first : off ≤ o ∧ o < off + buf.length
    · rw [if_pos first, if_pos ⟨by omega, by omega⟩, List.getD_append _ _ _ _ (by omega)]
    · rw [if_neg first, if_neg (by omega)]

/-! ## Files put end to end -/

variable {lengths : List Nat} {file : Nat → File} {f : File} {i j pos : Nat}

/-- The files as a flat array. -/
def flat (lengths : List Nat) (file : Nat → File) : Flat := fun o =>
  match locate lengths o with
  | none => 0
  | some (i, j) => (file i).get j

theorem flat_start (inside : j < lengths.getD i 0) :
    flat lengths file (start lengths i + j) = (file i).get j := by
  unfold flat
  rw [locate_start inside]

theorem File.write_size :
    (f.write pos buf).size = if buf = [] then f.size else max f.size (pos + buf.length) := rfl

theorem File.write_byte : (f.write pos buf).byte j =
    if pos ≤ j ∧ j < pos + buf.length then buf.getD (j - pos) 0 else f.get j := rfl

theorem File.get_write : (f.write pos buf).get j =
    if pos ≤ j ∧ j < pos + buf.length then buf.getD (j - pos) 0 else f.get j := by
  have size : (f.write pos buf).size = if buf = [] then f.size else max f.size (pos + buf.length) :=
    File.write_size
  rw [get, write_byte]
  by_cases inside : pos ≤ j ∧ j < pos + buf.length
  · have some : buf ≠ [] := by
      rintro rfl
      exact absurd inside.2 (Nat.not_lt.mpr inside.1)
    rw [if_neg some] at size
    rw [if_pos inside, if_pos (by omega)]
  · rw [if_neg inside]
    by_cases old : j < f.size
    · rw [if_pos]
      split at size <;> omega
    · rw [get, if_neg old, ite_self]

/-- The files after the file of an entry has been replaced. -/
def replaceFile (inode : Nat → Nat) (file : Nat → File) (i : Nat) (f : File) : Nat → File :=
  fun j => if inode j = inode i then f else file j

theorem Streams.setFile_file {s : Streams} :
    (s.setFile i f).file = replaceFile s.inode s.file i f := by
  funext j
  exact Function.update_apply ..

/-- Different entries are different files. -/
def Streams.Apart (lengths : List Nat) (s : Streams) : Prop :=
  Set.InjOn s.inode (Set.Iio lengths.length)

/-- Where entries are different files, only the one that is replaced changes. -/
theorem flat_replaceFile {inode : Nat → Nat} (apart : Set.InjOn inode (Set.Iio lengths.length))
    (lt : i < lengths.length) :
    flat lengths (replaceFile inode file i f) = flat lengths (Function.update file i f) := by
  funext o
  unfold flat
  rcases found : locate lengths o with - | ⟨i', j⟩
  · rfl
  · have inside := lt_length (locate_eq_some.mp found).1
    dsimp only [replaceFile]
    by_cases same : i' = i
    · rw [if_pos (congrArg inode same), same, Function.update_self]
    · rw [if_neg fun eq => same (apart inside lt eq), Function.update_of_ne same]

/-- Bytes that are read from one file are those of the flat array. -/
theorem read_eq_slice (inside : pos + n ≤ lengths.getD i 0) :
    (file i).read pos n = (flat lengths file).slice (start lengths i + pos) n := by
  unfold File.read Flat.slice
  refine List.map_congr_left fun k mem => ?_
  have lt : k < n := List.mem_range.mp mem
  rw [Nat.add_assoc, flat_start (by omega)]

/-- Bytes that are written to one file are put into the flat array. -/
theorem flat_write (inside : pos + buf.length ≤ lengths.getD i 0) :
    flat lengths (Function.update file i ((file i).write pos buf)) =
      (flat lengths file).put (start lengths i + pos) buf := by
  funext o
  unfold Flat.put
  by_cases here : start lengths i + pos ≤ o ∧ o < start lengths i + pos + buf.length
  · obtain ⟨j, rfl⟩ : ∃ j, o = start lengths i + j := ⟨o - start lengths i, by omega⟩
    rw [if_pos here, flat_start (by omega), Function.update_self, File.get_write,
      if_pos ⟨by omega, by omega⟩]
    congr 1
    omega
  · rw [if_neg here]
    unfold flat
    rcases found : locate lengths o with - | ⟨i', j⟩
    · rfl
    · obtain ⟨lt, rfl⟩ := locate_eq_some.mp found
      dsimp only
      by_cases same : i' = i
      · subst same
        rw [Function.update_self, File.get_write, if_neg (by omega)]
      · rw [Function.update_of_ne same]

end Btpd.Content
