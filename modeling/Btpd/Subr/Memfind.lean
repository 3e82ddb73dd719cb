import Btpd.Benc.Memory
import Btpd.Http.Parser

/-!
# Searching a piece of memory

`memfind` compares the word at every place below `memlen - sublen + 1`, an
unsigned difference.  The model keeps the indices that are read, so that one can
say of a run where it looked, and it keeps what lies behind the piece: in an
`iobuf` the bytes past `off` are those of the allocation, and a search that
leaves the buffered bytes goes on there.
-/

namespace Btpd.Subr

open Benc (Fault Exec wordSize)

/-- A pointer with a length: what can be read from the pointer on, and the number
of bytes that the length promises. -/
structure Piece where
  readable : List UInt8
  len : Nat
  inside : len ≤ readable.length
  fits : readable.length < wordSize

/-- The bytes that belong to the piece. -/
def Piece.bytes (piece : Piece) : List UInt8 := piece.readable.take piece.len

@[simp]
theorem Piece.length_bytes (piece : Piece) : piece.bytes.length = piece.len :=
  (List.length_take).trans (Nat.min_eq_left piece.inside)

/-- The indices that were read, in order, and how the routine ended. -/
structure Reading (α : Type) where
  reads : List Nat
  result : Exec α

/-- `for (j = 0; j < sublen; j++) if (m[i+j] != s[j]) break;` from the index `p = i + j`
on, with what is left of the word.  The index would wrap around only after one that lies
outside every object. -/
def sameAt (mem : List UInt8) : List UInt8 → Nat → Reading Bool
  | [], _ => ⟨[], .ok true⟩
  | c :: sub, p =>
      match mem[p]? with
      | none => ⟨[p], .error .outOfBounds⟩
      | some b =>
          if b = c then ⟨p :: (sameAt mem sub (p + 1)).reads, (sameAt mem sub (p + 1)).result⟩
          else ⟨[p], .ok false⟩

/-- The outer loop at the place `i`, with the number of turns that are left. -/
def findFrom (mem sub : List UInt8) : Nat → Nat → Reading (Option Nat)
  | 0, _ => ⟨[], .ok none⟩
  | turns + 1, i =>
      match (sameAt mem sub i).result with
      | .error fault => ⟨(sameAt mem sub i).reads, .error fault⟩
      | .ok true => ⟨(sameAt mem sub i).reads, .ok (some i)⟩
      | .ok false =>
          ⟨(sameAt mem sub i).reads ++ (findFrom mem sub turns (i + 1)).reads,
            (findFrom mem sub turns (i + 1)).result⟩

/-- `memlen - sublen + 1` in `size_t`. -/
def lastPlace (memlen sublen : Nat) : Nat := (memlen + (wordSize - sublen) + 1) % wordSize

/-- `memfind`, with the place instead of the pointer. -/
def memfind (sub mem : Piece) : Reading (Option Nat) :=
  findFrom mem.readable sub.bytes (lastPlace mem.len sub.len) 0

/-- A buffer that grows: the allocation from `buf` on, the number of buffered bytes and
the mark of a failed allocation. -/
structure Iobuf where
  buf : List UInt8
  off : Nat
  error : Bool
  inside : off ≤ buf.length
  fits : buf.length < wordSize

/-- `iob->buf` with `iob->off`. -/
def Iobuf.piece (iob : Iobuf) : Piece := ⟨iob.buf, iob.off, iob.inside, iob.fits⟩

/-- `iobuf_find`. -/
def iobufFind (iob : Iobuf) (p : Piece) : Reading (Option Nat) :=
  if iob.error then ⟨[], .ok none⟩ else memfind p iob.piece

/-! ## One place -/

section Place

variable {mem sub : List UInt8} {p memlen : Nat}

/-- A comparison inside the memory says whether the word stands there. -/
theorem sameAt_result (mem sub : List UInt8) (p : Nat) (room : p + sub.length ≤ mem.length) :
    (sameAt mem sub p).result = .ok (sub.isPrefixOf (mem.drop p)) := by
  induction sub generalizing p with
  | nil => simp [sameAt]
  | cons c sub ih =>
      rw [List.length_cons] at room
      have here : p < mem.length := by omega
      have next : (sameAt mem sub (p + 1)).result =
          .ok (sub.isPrefixOf (mem.drop (p + 1))) := ih (p + 1) (by omega)
      rw [List.drop_eq_getElem_cons here, List.isPrefixOf_cons_cons]
      simp only [sameAt, List.getElem?_eq_getElem here]
      by_cases same : mem[p] = c
      · simp [same, next]
      · have other : (c == mem[p]) = false := beq_eq_false_iff_ne.mpr (Ne.symm same)
        simp [same, other]

/-- A comparison reads no further than the word is long. -/
theorem lt_of_mem_reads (mem sub : List UInt8) (p : Nat) {q : Nat}
    (read : q ∈ (sameAt mem sub p).reads) : q < p + sub.length := by
  induction sub generalizing p with
  | nil => simp [sameAt] at read
  | cons c sub ih =>
      rw [List.length_cons]
      simp only [sameAt] at read
      split at read
      · simp only [List.mem_singleton] at read
        omega
      · split at read
        · rcases List.mem_cons.mp read with rfl | later
          · omega
          · have := ih (p + 1) later
            omega
        · simp only [List.mem_singleton] at read
          omega

/-- A comparison looks at its place. -/
theorem mem_reads_self (word : sub ≠ []) : p ∈ (sameAt mem sub p).reads := by
  cases sub with
  | nil => exact absurd rfl word
  | cons c sub =>
      simp only [sameAt]
      split
      · simp
      · split <;> simp

/-- A comparison that does not meet another byte looks at the end of the word. -/
theorem beyond_of_sameAt (word : sub ≠ []) (long : memlen < p + sub.length)
    (readable : memlen ≤ mem.length) (alike : (sameAt mem sub p).result ≠ .ok false) :
    ∃ q ∈ (sameAt mem sub p).reads, memlen ≤ q := by
  induction sub generalizing p with
  | nil => exact absurd rfl word
  | cons c sub ih =>
      rw [List.length_cons] at long
      simp only [sameAt] at alike ⊢
      split
      · rename_i missing
        have := List.getElem?_eq_none_iff.mp missing
        exact ⟨p, List.mem_singleton_self p, by omega⟩
      · rename_i b found
        simp only [found] at alike
        split
        · rename_i same
          simp only [if_pos same] at alike
          cases sub with
          | nil =>
              rw [List.length_nil] at long
              exact ⟨p, List.mem_cons_self, by omega⟩
          | cons d sub =>
              rcases ih (by simp) (by omega) alike with ⟨q, read, far⟩
              exact ⟨q, List.mem_cons_of_mem _ read, far⟩
        · rename_i other
          rw [if_neg other] at alike
          exact absurd rfl alike

end Place

/-! ## The search -/

/-- The word stands at `i` and nowhere before. -/
def FirstAt (sub mem : List UInt8) (i : Nat) : Prop :=
  sub <+: mem.drop i ∧ ∀ j < i, ¬ sub <+: mem.drop j

/-- The run gives the first place of the word, or none when there is none, and looks at
no byte outside `mem`. -/
structure Finds (sub mem : List UInt8) (run : Reading (Option Nat)) : Prop where
  inside : ∀ p ∈ run.reads, p < mem.length
  answer : (∃ i, run.result = .ok (some i) ∧ FirstAt sub mem i) ∨
    run.result = .ok none ∧ ∀ i, ¬ sub <+: mem.drop i

section Search

variable {mem sub : List UInt8} {memlen : Nat}

/-- The turns of the outer loop that stay inside. -/
theorem findFrom_inside (mem sub : List UInt8) (turns i : Nat) (readable : memlen ≤ mem.length)
    (room : i + turns + sub.length ≤ memlen + 1) :
    (∀ p ∈ (findFrom mem sub turns i).reads, p < memlen) ∧
      ((∃ k, (findFrom mem sub turns i).result = .ok (some k) ∧ k + sub.length ≤ memlen ∧
          sub <+: mem.drop k ∧ ∀ j, i ≤ j → j < k → ¬ sub <+: mem.drop j) ∨
        (findFrom mem sub turns i).result = .ok none ∧
          ∀ j, i ≤ j → j < i + turns → ¬ sub <+: mem.drop j) := by
  induction turns generalizing i with
  | zero =>
      constructor
      · simp [findFrom]
      · exact Or.inr ⟨rfl, fun j from_i below => absurd below (by omega)⟩
  | succ turns ih =>
      have compared := sameAt_result mem sub i (by omega)
      have near : ∀ p ∈ (sameAt mem sub i).reads, p < memlen := by
        intro p read
        have := lt_of_mem_reads mem sub i read
        omega
      rcases ih (i + 1) (by omega) with ⟨later, answer⟩
      cases stands : sub.isPrefixOf (mem.drop i) with
      | true =>
          rw [stands] at compared
          simp only [findFrom, compared]
          constructor
          · exact near
          · apply Or.inl
            exact ⟨i, rfl, by omega, List.isPrefixOf_iff_prefix.mp stands,
              fun j from_i below => absurd below (by omega)⟩
      | false =>
          have notHere : ¬ sub <+: mem.drop i := by
            intro here
            rw [List.isPrefixOf_iff_prefix.mpr here] at stands
            cases stands
          have first : ∀ j, i ≤ j → (i + 1 ≤ j → ¬ sub <+: mem.drop j) →
              ¬ sub <+: mem.drop j := by
            intro j from_i rest
            rcases Nat.eq_or_lt_of_le from_i with rfl | after
            · exact notHere
            · exact rest after
          rw [stands] at compared
          simp only [findFrom, compared]
          constructor
          · intro p read
            rcases List.mem_append.mp read with now | then_
            · exact near p now
            · exact later p then_
          · rcases answer with ⟨k, result, fits, found, before⟩ | ⟨result, none⟩
            · apply Or.inl
              exact ⟨k, result, fits, found, fun j from_i below =>
                first j from_i fun after => before j after below⟩
            · apply Or.inr
              exact ⟨result, fun j from_i below =>
                first j from_i fun after => none j after (by omega)⟩

/-- A search that may go on past the memory looks past it. -/
theorem findFrom_beyond (word : sub ≠ []) (long : memlen < sub.length)
    (readable : memlen ≤ mem.length) (turns i : Nat) (low : i ≤ memlen)
    (many : memlen < i + turns) : ∃ p ∈ (findFrom mem sub turns i).reads, memlen ≤ p := by
  induction turns generalizing i with
  | zero => exact absurd many (by omega)
  | succ turns ih =>
      by_cases alike : (sameAt mem sub i).result = .ok false
      · simp only [findFrom, alike]
        rcases Nat.eq_or_lt_of_le low with rfl | below
        · exact ⟨i, List.mem_append_left _ (mem_reads_self word), Nat.le_refl _⟩
        · rcases ih (i + 1) below (by omega) with ⟨p, read, far⟩
          exact ⟨p, List.mem_append_right _ read, far⟩
      · rcases beyond_of_sameAt word (by omega) readable alike with ⟨p, read, far⟩
        have same : (findFrom mem sub (turns + 1) i).reads = (sameAt mem sub i).reads := by
          simp only [findFrom]
          split
          · rfl
          · rfl
          · rename_i other
            exact absurd other alike
        rw [same]
        exact ⟨p, read, far⟩

end Search

theorem lastPlace_eq {memlen sublen : Nat} (small : memlen < wordSize)
    (word : 0 < sublen) (short : sublen ≤ memlen + 1) :
    lastPlace memlen sublen = memlen + 1 - sublen := by
  have huge : memlen + (wordSize - sublen) + 1 = memlen + 1 - sublen + wordSize := by omega
  rw [lastPlace, huge, Nat.add_mod_right, Nat.mod_eq_of_lt (by omega)]

/-- The bound wraps around. -/
theorem lt_lastPlace {memlen sublen : Nat} (fits : sublen < wordSize)
    (long : memlen + 1 < sublen) : memlen < lastPlace memlen sublen := by
  rw [lastPlace, Nat.mod_eq_of_lt (by omega)]
  omega

/-- What stands in the readable bytes and ends inside the piece stands in the piece. -/
theorem prefix_bytes_iff {sub : List UInt8} (mem : Piece) {i : Nat}
    (room : i + sub.length ≤ mem.len) :
    sub <+: mem.bytes.drop i ↔ sub <+: mem.readable.drop i := by
  rw [Piece.bytes, List.drop_take, List.prefix_take_iff]
  exact ⟨fun stands => stands.1, fun stands => ⟨stands, by omega⟩⟩

/-- A word that stands somewhere ends there. -/
theorem add_length_le_of_prefix {sub mem : List UInt8} {i : Nat} (word : sub ≠ [])
    (stands : sub <+: mem.drop i) : i + sub.length ≤ mem.length := by
  have short := stands.length_le
  have : 0 < sub.length := List.length_pos_iff.mpr word
  rw [List.length_drop] at short
  omega

section Memfind

variable {sub mem : Piece}

/-- The search in a piece that is not too short for the word. -/
theorem memfind_finds (word : sub.bytes ≠ []) (short : sub.len ≤ mem.len + 1) :
    Finds sub.bytes mem.bytes (memfind sub mem) := by
  have positive : 0 < sub.len := by
    rw [← sub.length_bytes]
    exact List.length_pos_iff.mpr word
  have small : mem.len < wordSize := Nat.lt_of_le_of_lt mem.inside mem.fits
  have turns : lastPlace mem.len sub.len = mem.len + 1 - sub.len :=
    lastPlace_eq small positive short
  rcases findFrom_inside mem.readable sub.bytes (lastPlace mem.len sub.len) 0 mem.inside
    (by rw [turns, sub.length_bytes]; omega) with ⟨inside, answer⟩
  constructor
  · intro p read
    rw [mem.length_bytes]
    exact inside p read
  · rcases answer with ⟨k, result, fits, found, before⟩ | ⟨result, none⟩
    · apply Or.inl
      refine ⟨k, result, (prefix_bytes_iff mem fits).mpr found, ?_⟩
      intro j below stands
      exact before j (Nat.zero_le j) below ((prefix_bytes_iff mem (by omega)).mp stands)
    · apply Or.inr
      refine ⟨result, ?_⟩
      intro j stands
      have fits := add_length_le_of_prefix word stands
      rw [mem.length_bytes] at fits
      rw [sub.length_bytes] at fits
      exact none j (Nat.zero_le j) (by rw [turns]; omega)
        ((prefix_bytes_iff mem (by rw [sub.length_bytes]; exact fits)).mp stands)

/-- The search in a piece that is too short leaves it. -/
theorem memfind_strays (word : sub.bytes ≠ []) (long : mem.len + 1 < sub.len) :
    ∃ p ∈ (memfind sub mem).reads, mem.len ≤ p := by
  have fits : sub.len < wordSize := Nat.lt_of_le_of_lt sub.inside sub.fits
  apply findFrom_beyond word
  · rw [sub.length_bytes]
    omega
  · exact mem.inside
  · exact Nat.zero_le _
  · rw [Nat.zero_add]
    exact lt_lastPlace fits long

/-- When the search is right. -/
theorem finds_iff (word : sub.bytes ≠ []) :
    Finds sub.bytes mem.bytes (memfind sub mem) ↔ sub.len ≤ mem.len + 1 := by
  constructor
  · intro finds
    by_contra long
    rcases memfind_strays word (not_le.mp long) with ⟨p, read, far⟩
    have near := finds.inside p read
    rw [mem.length_bytes] at near
    omega
  · exact memfind_finds word

end Memfind

/-- In a piece that is not too short the search gives what the parser of the responses is
written with. -/
theorem memfind_result (sub mem : Piece) (word : sub.bytes ≠ [])
    (short : sub.len ≤ mem.len + 1) :
    (memfind sub mem).result = .ok (Text.search sub.bytes mem.bytes) ∧
      Http.memfind sub.bytes mem.bytes = .ok (Text.search sub.bytes mem.bytes) := by
  constructor
  · rcases (memfind_finds word short).answer with ⟨i, result, stands, before⟩ | ⟨result, none⟩
    · have fits := add_length_le_of_prefix word stands
      rw [result, Text.search_eq_some stands before (by omega)]
    · rw [result, Text.search_eq_none none]
  · rw [Http.memfind, mem.length_bytes, sub.length_bytes, if_neg (by omega)]

/-- `"\r\n\r\n"`. -/
def blankLine : Piece := ⟨[13, 10, 13, 10], 4, by decide, by decide⟩

/-- A response of which one byte has arrived, in a buffer that was used before. -/
def oneByte : Iobuf := ⟨[13, 10, 13, 10], 1, false, by decide, by decide⟩

/-- The search finds the end of a head in what was received earlier. -/
theorem memfind_stale :
    ¬ ∀ (iob : Iobuf) (p : Piece), p.bytes ≠ [] → iob.error = false →
      Finds p.bytes iob.piece.bytes (iobufFind iob p) := by
  intro all
  have finds := all oneByte blankLine (by decide) rfl
  have near := finds.inside 1
  have read : 1 ∈ (iobufFind oneByte blankLine).reads := by decide
  exact absurd (near read) (by decide)

/-- The search for a word in a piece of memory, and in a buffer that has not failed, is
right exactly when the piece is at most one byte shorter than the word; a buffer that has
failed gives nothing. -/
theorem memfind_finds_iff (sub : Piece) (word : sub.bytes ≠ []) :
    (∀ mem : Piece, Finds sub.bytes mem.bytes (memfind sub mem) ↔ sub.len ≤ mem.len + 1) ∧
    (∀ iob : Iobuf, iob.error = false →
      (Finds sub.bytes iob.piece.bytes (iobufFind iob sub) ↔ sub.len ≤ iob.off + 1)) ∧
    ∀ iob : Iobuf, iob.error = true → iobufFind iob sub = ⟨[], .ok none⟩ := by
  refine ⟨fun mem => finds_iff word, ?_, ?_⟩
  · intro iob works
    rw [iobufFind, works]
    exact finds_iff word
  · intro iob failed
    rw [iobufFind, if_pos failed]

/-- A response of which three bytes have arrived. -/
def threeBytes : Iobuf := ⟨[13, 10, 13, 10], 3, false, by decide, by decide⟩

/-- The search for the end of a head in three bytes and in one. -/
theorem memfind_finds_iff_threeBytes :
    Finds blankLine.bytes threeBytes.piece.bytes (memfind blankLine threeBytes.piece) ∧
    Finds blankLine.bytes threeBytes.piece.bytes (iobufFind threeBytes blankLine) ∧
    ¬ Finds blankLine.bytes oneByte.piece.bytes (iobufFind oneByte blankLine) ∧
    iobufFind { oneByte with error := true } blankLine = ⟨[], .ok none⟩ := by
  constructor
  · exact ((memfind_finds_iff blankLine (by decide)).1 threeBytes.piece).mpr (by decide)
  constructor
  · exact ((memfind_finds_iff blankLine (by decide)).2.1 threeBytes rfl).mpr (by decide)
  constructor
  · intro finds
    exact absurd (((memfind_finds_iff blankLine (by decide)).2.1 oneByte rfl).mp finds) (by decide)
  · exact (memfind_finds_iff blankLine (by decide)).2.2 _ rfl

end Btpd.Subr
