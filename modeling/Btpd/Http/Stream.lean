import Btpd.Http.Head

/-!
# What a response says

The meaning of a whole stream of bytes, without a buffer: its head, the framing that
the head announces and the body.  Where the parser looks at a buffer whose end is an
accident of the reads, the stream has to leave no doubt; `Regular` says when it
does.
-/

namespace Btpd.Http

open Text

/-! ## What the callback has been told -/

/-- The status codes, the headers, the bytes of the body and the last words. -/
structure Observed where
  codes : List Int
  headers : List (List UInt8 × List UInt8)
  data : List UInt8
  ends : List HttpResponse
  deriving DecidableEq, Repr

namespace Observed

def nothing : Observed := ⟨[], [], [], []⟩

/-- The observation with one more response. -/
def add (seen : Observed) : HttpResponse → Observed
  | .err => { seen with ends := seen.ends ++ [.err] }
  | .code code => { seen with codes := seen.codes ++ [code] }
  | .header n v => { seen with headers := seen.headers ++ [(n, v)] }
  | .data p => { seen with data := seen.data ++ p }
  | .done => { seen with ends := seen.ends ++ [.done] }

end Observed

/-- What the callback has been told, the pieces of the body put together. -/
def observe (told : List HttpResponse) : Observed :=
  told.foldl .add .nothing

@[simp]
theorem observe_append (told : List HttpResponse) (res : HttpResponse) :
    observe (told ++ [res]) = (observe told).add res := by
  simp [observe, List.foldl_append]

/-! ## The body -/

/-- The bytes of a body and how the response ends. -/
structure Body where
  data : List UInt8
  last : HttpResponse
  deriving DecidableEq, Repr

/-- A body with some bytes before it. -/
def Body.after (body : Body) (bytes : List UInt8) : Body := ⟨bytes ++ body.data, body.last⟩

/-- What is told in the end if the rest of the response says this. -/
def Observed.complete (seen : Observed) (body : Body) : Observed :=
  { seen with data := seen.data ++ body.data, ends := seen.ends ++ [body.last] }

@[simp]
theorem Observed.complete_after (seen : Observed) (body : Body) (bytes : List UInt8) :
    (seen.add (.data bytes)).complete body = seen.complete (body.after bytes) := by
  simp [Observed.complete, Observed.add, Body.after]

/-- The line of a chunk size and what stands behind its line feed. -/
def chunkLine (w : List UInt8) : Option (List UInt8 × List UInt8) :=
  (search [lf] w).map fun e => (w.take e, w.drop (e + 1))

/-- The size in such a line; `none` if it is wrong. -/
def chunkSize (line : List UInt8) : Option Nat :=
  match strtol 16 (line ++ [lf]) with
  | none => none
  | some number =>
      if number.value < 0 || !number.converted || number.erange then none
      else some number.value.toNat

/-- The line end behind the data of a chunk. -/
def afterChunk : List UInt8 → Option (List UInt8)
  | c :: d :: rest =>
      if c = cr ∧ d = lf then some rest else if c = lf then some (d :: rest) else none
  | _ => none

/-- What stands first in a chunked body: a chunk with another one behind it, or the
rest of the response. -/
inductive Chunk
  | next (data rest : List UInt8)
  | last (body : Body)
  deriving DecidableEq, Repr

/-- The data of a chunk of size `n` and its line end. -/
def chunkRest (n : Nat) (w : List UInt8) : Chunk :=
  if w.length < n then .last ⟨w, .err⟩
  else
    match afterChunk (w.drop n) with
    | none => .last ⟨w.take n, .err⟩
    | some rest => .next (w.take n) rest

/-- What follows a chunk-size line; the chunk of size 0 ends the response. -/
def sizedChunk (size : Option Nat) (rest : List UInt8) : Chunk :=
  match size with
  | none => .last ⟨[], .err⟩
  | some 0 => .last ⟨[], .done⟩
  | some (n + 1) => chunkRest (n + 1) rest

/-- A chunk-size line has less than 20 bytes before its line feed. -/
def firstChunk (w : List UInt8) : Chunk :=
  match chunkLine w with
  | none => .last ⟨[], .err⟩
  | some (line, rest) =>
      if 20 ≤ line.length then .last ⟨[], .err⟩ else sizedChunk (chunkSize line) rest

theorem afterChunk_length {w rest : List UInt8} (found : afterChunk w = some rest) :
    rest.length < w.length := by
  unfold afterChunk at found
  split at found
  · split at found
    · cases found
      simp only [List.length_cons]
      omega
    · split at found
      · cases found
        simp
      · cases found
  · cases found

theorem chunkRest_next {n : Nat} {w data rest : List UInt8}
    (found : chunkRest n w = .next data rest) :
    n ≤ w.length ∧ data = w.take n ∧ afterChunk (w.drop n) = some rest := by
  simp only [chunkRest] at found
  split at found
  · cases found
  · rename_i enough
    split at found
    · cases found
    · rename_i rest' ended
      cases found
      exact ⟨by omega, rfl, ended⟩

theorem chunkLine_length {w line rest : List UInt8} (found : chunkLine w = some (line, rest)) :
    w = line ++ lf :: rest := by
  rcases Option.map_eq_some_iff.mp found with ⟨e, at_e, same⟩
  cases same
  rcases prefix_of_search at_e with ⟨t, split⟩
  have front := List.take_append_drop e w
  rw [← split] at front
  have rest : w.drop (e + 1) = t := by
    rw [← List.drop_drop, ← split]
    rfl
  rw [rest]
  exact front.symm

theorem sizedChunk_next {size : Option Nat} {w data rest : List UInt8}
    (found : sizedChunk size w = .next data rest) : rest.length < w.length := by
  simp only [sizedChunk] at found
  split at found
  · cases found
  · cases found
  · have shorter := afterChunk_length (chunkRest_next found).2.2
    rw [List.length_drop] at shorter
    omega

theorem firstChunk_length {w data rest : List UInt8} (found : firstChunk w = .next data rest) :
    rest.length < w.length := by
  simp only [firstChunk] at found
  split at found
  · cases found
  · rename_i line behind at_line
    split at found
    · cases found
    · have split := congrArg List.length (chunkLine_length at_line)
      have shorter := sizedChunk_next found
      rw [List.length_append, List.length_cons] at split
      omega

/-- A chunk-size line of less than 20 bytes. -/
theorem firstChunk_line {w line rest : List UInt8} (at_line : chunkLine w = some (line, rest))
    (short : line.length < 20) : firstChunk w = sizedChunk (chunkSize line) rest := by
  simp only [firstChunk, at_line, if_neg (show ¬ 20 ≤ line.length by omega)]

/-- A chunked body. -/
def chunked (w : List UInt8) : Body :=
  match _found : firstChunk w with
  | .last body => body
  | .next data rest => (chunked rest).after data
termination_by w.length
decreasing_by exact firstChunk_length _found

theorem chunked_last {w : List UInt8} {body : Body} (found : firstChunk w = .last body) :
    chunked w = body := by
  rw [chunked]
  split
  · rename_i found'
    rw [found, Chunk.last.injEq] at found'
    exact found'.symm
  · rename_i found'
    rw [found] at found'
    cases found'

theorem chunked_next {w data rest : List UInt8} (found : firstChunk w = .next data rest) :
    chunked w = (chunked rest).after data := by
  rw [chunked]
  split
  · rename_i found'
    rw [found] at found'
    cases found'
  · rename_i found'
    rw [found, Chunk.next.injEq] at found'
    rw [found'.1, found'.2]

/-- What a chunk and what is behind it says. -/
def Chunk.body : Chunk → Body
  | .last body => body
  | .next data rest => (chunked rest).after data

theorem chunked_eq (w : List UInt8) : chunked w = (firstChunk w).body := by
  cases found : firstChunk w with
  | last body => exact chunked_last found
  | next data rest => exact chunked_next found

/-- A body whose length is `length`; without a length it ends with the stream, and no
response with length 0 is ever done. -/
def plain (length : Int) (w : List UInt8) : Body :=
  if length < 0 then ⟨w, .done⟩
  else if length = 0 then ⟨[], .err⟩
  else if w.length < length.toNat then ⟨w, .err⟩
  else ⟨w.take length.toNat, .done⟩

/-- What the rest of the stream says to a request in the middle of the body. -/
def bodyOf (req : HttpReq) (w : List UInt8) : Body :=
  match req.pstate with
  | .head => ⟨[], .err⟩
  | .chunkSize => chunked w
  | .chunkData => (chunkRest req.length.toNat w).body
  | .chunkCrlf => (chunkRest 0 w).body
  | .idData => plain req.length w

/-! ## The whole stream -/

/-- Where the first empty line of a stream ends a head, and of how many bytes it is. -/
def headEnd (w : List UInt8) : Option (Nat × Nat) :=
  match search [cr, lf, cr, lf] w, search [lf, lf] w with
  | some e, some f => if f + 2 < e + 4 then some (f, 2) else some (e, 4)
  | some e, none => some (e, 4)
  | none, some f => some (f, 2)
  | none, none => none

/-- A head with its empty line is not longer. -/
def headLimit : Nat := 2 ^ 15

/-- What `headers_parse` makes of a head. -/
def readHead (head : List UInt8) (e : Nat) : Except Fault (HttpReq × Bool) :=
  headersParse patient httpGet head (some e)

/-- What is told of a head that has been parsed and the bytes behind it. -/
def headMeaning (parsed : Except Fault (HttpReq × Bool)) (rest : List UInt8) : Observed :=
  match parsed with
  | .error _ => .nothing
  | .ok (req, false) => (observe req.told).add .err
  | .ok (req, true) => (observe req.told).complete (bodyOf req rest)

/-- What a stream says. -/
def meaning (w : List UInt8) : Observed :=
  match headEnd w with
  | none => Observed.nothing.add .err
  | some (e, dlen) =>
      if headLimit < e + dlen then Observed.nothing.add .err
      else headMeaning (readHead (w.take (e + dlen)) e) (w.drop (e + dlen))

/-! ## Streams that leave no doubt -/

/-- The number of a chunk-size line is in the line, and the line is short; or it is so
long that no reads bring its end into the buffer in time. -/
def LineRegular (line : List UInt8) : Prop :=
  (line.length < 20 ∧ line.dropWhile isspace ≠ []) ∨ 19 + readSize ≤ line.length

/-- Where a chunked body begins a chunk. -/
inductive ChunkAt (w : List UInt8) : List UInt8 → Prop
  | first : ChunkAt w w
  | next {v data rest : List UInt8} (here : ChunkAt w v) (chunk : firstChunk v = .next data rest) :
      ChunkAt w rest

/-- All chunk-size lines are regular. -/
def ChunksRegular (w : List UInt8) : Prop :=
  ∀ v line rest, ChunkAt w v → chunkLine v = some (line, rest) → LineRegular line

/-- `sscanf` finds the end of the status line, or what is wrong in it, in the head;
and there is no NUL in a good status line. -/
def StatusRegular (head : List UInt8) : Prop :=
  match scanStatus head with
  | .got _ _ => strchrNl head ≠ none
  | .mismatch => True
  | .exhausted => False

/-- What a stream must be like for the head that ends with its first empty line, at
`e`, to be the head however the stream is read. -/
structure HeadRegular (w : List UInt8) (e dlen : Nat) : Prop where
  status : StatusRegular (w.take (e + dlen))
  -- a longer empty line is looked for first
  alone : dlen = 2 → search [cr, lf, cr, lf] (w.take (e + dlen + readSize - 1)) = none
  chunks : ∀ req, readHead (w.take (e + dlen)) e = .ok (req, true) → req.chunked = true →
    ChunksRegular (w.drop (e + dlen))

/-- A stream whose meaning does not depend on the reads.  A head that is so long that
no read can bring its end in time has no further condition. -/
def Regular (w : List UInt8) : Prop :=
  ∀ e dlen, headEnd w = some (e, dlen) →
    headLimit + readSize ≤ e + dlen ∨ (e + dlen ≤ headLimit ∧ HeadRegular w e dlen)

end Btpd.Http
