import Btpd.Library.Numbers
import Mathlib

/-!
# The HTTP client

What the tracker sends is collected in `rbuf` and taken apart by `http_parse`, which
tells the callback the status code, the headers, the pieces of the body as they come
and at last that the response is done or wrong.  The head is parsed when its end is
in the buffer, a chunk size when its line is; the body goes to the callback with every
read.

The callback may cancel the request, and what it does is a function of what it has
been told.  A pointer into the buffer is the rest of the buffer from there on; the
byte that `http_parse` writes after the head is the end of that list.  The pointer `end`
is found before there is room for that byte: the `realloc` that makes room frees the
block it points into.  Memory does not run out.
-/

namespace Btpd.Http

open Text

/-- `pstate`. -/
inductive PState
  | head | chunkSize | chunkData | chunkCrlf | idData
  deriving DecidableEq, Repr

/-- `struct http_response`. -/
inductive HttpResponse
  | err
  | code (code : Int)
  | header (n v : List UInt8)
  | data (p : List UInt8)
  | done
  deriving DecidableEq, Repr

/-- What ends the program instead of the call. -/
inductive Fault
  | outOfBounds | nullPointer | stalePointer | assertFails
  deriving DecidableEq, Repr

/-- `struct http_req`, with what the callback has been told.  Of `rbuf` there are the
bytes in it, its `size` and its `skip`. -/
structure HttpReq where
  pstate : PState
  cancel : Bool
  chunked : Bool
  length : Int
  rbuf : List UInt8
  size : Nat
  skip : Nat
  told : List HttpResponse
  freed : Bool
  deriving DecidableEq, Repr

/-- Whether the callback cancels the request, now that it has been told this. -/
abbrev Callback := List HttpResponse → Bool

/-- The most that a read gives. -/
def readSize : Nat := 4096

/-- A request as `http_get` makes it. -/
def httpGet : HttpReq := ⟨.head, false, false, 0, [], 4096, 0, [], false⟩

/-- `req->cb(req, &res, req->arg)`. -/
def HttpReq.cb (callback : Callback) (req : HttpReq) (res : HttpResponse) : HttpReq :=
  { req with
    told := req.told ++ [res]
    cancel := req.cancel || callback (req.told ++ [res]) }

/-- `http_free`. -/
def httpFree (req : HttpReq) : HttpReq := { req with freed := true }

/-- `http_error`. -/
def httpError (callback : Callback) (req : HttpReq) : HttpReq :=
  httpFree (req.cb callback .err)

/-- `iobuf_accommodate` of `rbuf`, and where a pointer to the byte `p` of it points then:
nowhere, if `realloc` has freed its block. -/
def HttpReq.accommodate (req : HttpReq) (count p : Nat) : HttpReq × Option Nat :=
  let esize := req.size - (req.skip + req.rbuf.length)
  if count ≤ esize then (req, some p)
  else if count ≤ esize + req.skip then ({ req with skip := 0 }, some (p + req.skip))
  else ({ req with size := req.size + count }, none)

/-- `memfind`.  For a piece of memory that is shorter than the word by more than one
byte `memlen - sublen + 1` wraps around, and the search leaves the memory. -/
def memfind (sub mem : List UInt8) : Except Fault (Option Nat) :=
  if mem.length + 1 < sub.length then .error .outOfBounds else .ok (search sub mem)

/-! ## The head -/

/-- A byte of a line of a C string. -/
def inLine (c : UInt8) : Bool := c != lf && c != 0

/-- `strchr(str, '\n')`. -/
def strchrNl (str : List UInt8) : Option (List UInt8) :=
  match str.dropWhile inLine with
  | [] => none
  | c :: rest => if c = lf then some (c :: rest) else none

/-- A line without the carriage return before its line feed. -/
def chop (line : List UInt8) : List UInt8 :=
  if line.getLast? = some cr then line.dropLast else line

/-- `strnl`: what stands before the line end, and what stands behind it. -/
def strnl (str : List UInt8) : Option (List UInt8 × List UInt8) :=
  match strchrNl str with
  | none => none
  | some nl => some (chop (str.takeWhile inLine), nl.drop 1)

theorem strchrNl_length {str nl : List UInt8} (found : strchrNl str = some nl) :
    nl ≠ [] ∧ nl.length ≤ str.length := by
  have shorter := (List.dropWhile_suffix (l := str) inLine).length_le
  simp only [strchrNl] at found
  split at found
  · cases found
  · rename_i c rest rest_eq
    rw [rest_eq] at shorter
    split at found
    · cases found
      exact ⟨by simp, shorter⟩
    · cases found

theorem strnl_length {str text rest : List UInt8} (found : strnl str = some (text, rest)) :
    rest.length < str.length := by
  simp only [strnl] at found
  split at found
  · cases found
  · rename_i nl at_nl
    cases found
    have bounds := strchrNl_length at_nl
    have := List.length_pos_iff.mpr bounds.1
    rw [List.length_drop]
    omega

/-- The room for a header name and for a header value. -/
def nameSize : Nat := 128
def valueSize : Nat := 872

/-- From `val_loop` on: the value so far, the rest of the line before `nl` and what
stands behind the line end give the value and where the next header starts.  If there
is no line end in a continuation line, `nl` is null and one byte is skipped; the head
ends with a line feed, so that there is one. -/
def valLoop (value text rest : List UInt8) : List UInt8 × List UInt8 :=
  let value := (value ++ text.dropWhile isblank).take (valueSize - 1)
  match rest with
  | [] => (value, [])
  | c :: cur =>
      if isblank c then
        match _found : strnl (c :: cur) with
        | some (text, rest) => valLoop ((value ++ [32]).take (valueSize - 1)) (text.drop 1) rest
        | none =>
            valLoop ((value ++ [32]).take (valueSize - 1)) [] ((cur.dropWhile isblank).drop 1)
      else (value, c :: cur)
termination_by rest.length
decreasing_by
  · exact strnl_length _found
  · have := (List.dropWhile_suffix (l := cur) isblank).length_le
    simp only [List.length_drop, List.length_cons]
    omega

theorem valLoop_found {value text rest text' rest' : List UInt8} {c : UInt8} {cur : List UInt8}
    (continues : rest = c :: cur) (blank : isblank c = true)
    (found : strnl rest = some (text', rest')) :
    valLoop value text rest =
      valLoop (((value ++ text.dropWhile isblank).take (valueSize - 1) ++ [32]).take (valueSize - 1))
        (text'.drop 1) rest' := by
  subst continues
  rw [valLoop]
  simp only [blank, if_true]
  split
  · rename_i t r again
    rw [found, Option.some.injEq, Prod.mk.injEq] at again
    rw [again.1, again.2]
  · rename_i missing
    rw [found] at missing
    cases missing

theorem valLoop_missing {value text rest : List UInt8} {c : UInt8} {cur : List UInt8}
    (continues : rest = c :: cur) (blank : isblank c = true) (missing : strnl rest = none) :
    valLoop value text rest =
      valLoop (((value ++ text.dropWhile isblank).take (valueSize - 1) ++ [32]).take (valueSize - 1))
        [] ((cur.dropWhile isblank).drop 1) := by
  subst continues
  rw [valLoop]
  simp only [blank, if_true]
  split
  · rename_i t r found
    rw [missing] at found
    cases found
  · rfl

theorem valLoop_last {value text rest : List UInt8} {c : UInt8} {cur : List UInt8}
    (next : rest = c :: cur) (other : isblank c = false) :
    valLoop value text rest = ((value ++ text.dropWhile isblank).take (valueSize - 1), rest) := by
  subst next
  rw [valLoop]
  simp only [other]
  rfl

theorem valLoop_length (value text rest : List UInt8) :
    (valLoop value text rest).2.length ≤ rest.length := by
  fun_induction valLoop value text rest with
  | case1 => simp
  | case2 value text value' c cur blank text' rest found ih =>
      have := strnl_length found
      exact ih.trans (by omega)
  | case3 value text value' c cur blank missing ih =>
      have := (List.dropWhile_suffix (l := cur) isblank).length_le
      simp only [List.length_drop] at ih
      simp only [List.length_cons]
      omega
  | case4 => simp

/-- Blanks at the end of a value are cut off. -/
def trim (value : List UInt8) : List UInt8 := value.rdropWhile isblank

/-- What `Content-Length` says: `strtol(value, NULL, 10)`, -1 if that sets `errno`. -/
def contentLength (value : List UInt8) : Int :=
  match strtol 10 (value ++ [0]) with
  | some number => if number.erange then -1 else number.value
  | none => -1

/-- What a header says about the body. -/
def noteHeader (req : HttpReq) (name value : List UInt8) : HttpReq :=
  let chunked := req.chunked ||
    (strcaseeq (ascii "Transfer-Encoding") name && strcaseeq (ascii "chunked") value)
  if !chunked && req.length == -1 && strcaseeq (ascii "Content-Length") name then
    { req with chunked := chunked, length := contentLength value }
  else { req with chunked := chunked }

/-- The loop of `headers_parse`; `left` bytes of the buffer are left at `end`. -/
def headerLines (callback : Callback) (left : Nat) (req : HttpReq) (cur : List UInt8) :
    HttpReq × Bool :=
  if cur.length ≤ left then (req, true)
  else
    match found : strnl cur with
    | none => (req, false)
    | some (text, rest) =>
        if 58 ∈ text then
          let name := (text.takeWhile (· != 58)).take (nameSize - 1)
          let value := valLoop [] ((text.dropWhile (· != 58)).drop 1) rest
          let req := req.cb callback (.header name (trim value.1))
          if req.cancel then (req, true)
          else headerLines callback left (noteHeader req name (trim value.1)) value.2
        else (req, false)
termination_by cur.length
decreasing_by
  exact Nat.lt_of_le_of_lt (valLoop_length _ _ _) (strnl_length found)

theorem headerLines_found {callback : Callback} {left : Nat} {req : HttpReq}
    {cur text rest : List UInt8} (inside : ¬ cur.length ≤ left)
    (found : strnl cur = some (text, rest)) :
    headerLines callback left req cur =
      if 58 ∈ text then
        let name := (text.takeWhile (· != 58)).take (nameSize - 1)
        let value := valLoop [] ((text.dropWhile (· != 58)).drop 1) rest
        let req := req.cb callback (.header name (trim value.1))
        if req.cancel then (req, true)
        else headerLines callback left (noteHeader req name (trim value.1)) value.2
      else (req, false) := by
  rw [headerLines, if_neg inside]
  split
  · rename_i missing
    rw [missing] at found
    cases found
  · rename_i t r again
    rw [again, Option.some.injEq, Prod.mk.injEq] at found
    rcases found with ⟨rfl, rfl⟩
    rfl

theorem headerLines_missing {callback : Callback} {left : Nat} {req : HttpReq}
    {cur : List UInt8} (inside : ¬ cur.length ≤ left) (missing : strnl cur = none) :
    headerLines callback left req cur = (req, false) := by
  rw [headerLines, if_neg inside]
  split
  · rfl
  · rename_i found
    rw [missing] at found
    cases found

/-- `sscanf(buf, "HTTP/%d.%d %d", &majv, &minv, &code)`, with the last of the three
numbers.  A `%d` skips what the blank before it matches. -/
def scanStatus (buf : List UInt8) : Scan Int :=
  (scanText (ascii "HTTP/") buf).andThen fun _ s =>
    (scanInt s).andThen fun _ s =>
      (scanText (ascii ".") s).andThen fun _ s =>
        (scanInt s).andThen fun _ s => scanInt s

/-- `headers_parse` after the status code. -/
def headersRest (callback : Callback) (req : HttpReq) (buf : List UInt8) (e : Option Nat) :
    Except Fault (HttpReq × Bool) :=
  if req.cancel then .ok (req, true)
  else
    match strchrNl buf with
    | none => .error .nullPointer
    | some nl =>
        match e with
        | none => .error .stalePointer
        | some e =>
            let parsed := headerLines callback (buf.length - e) req (nl.drop 1)
            if parsed.2 && !parsed.1.cancel then
              .ok ({ parsed.1 with
                pstate := if parsed.1.chunked then .chunkSize else .idData }, true)
            else .ok parsed

/-- `headers_parse`; `e` is where `end` points in the buffer, if it points into it. -/
def headersParse (callback : Callback) (req : HttpReq) (buf : List UInt8) (e : Option Nat) :
    Except Fault (HttpReq × Bool) :=
  match scanStatus buf with
  | .got code _ =>
      headersRest callback ({ req with chunked := false, length := -1 }.cb callback (.code code))
        buf e
  | _ => .ok ({ req with chunked := false, length := -1 }, false)

/-! ## The states of the parser -/

/-- What `http_parse` does next: it goes on with what is in the buffer, returns for
more, or has freed the request. -/
inductive Next
  | again | wait | stop
  deriving DecidableEq, Repr

/-- `goto error`. -/
def failed (callback : Callback) (req : HttpReq) : HttpReq × Next :=
  (httpError callback req, .stop)

/-- `goto done`. -/
def finished (callback : Callback) (req : HttpReq) : HttpReq × Next :=
  (httpFree (req.cb callback .done), .stop)

/-- The head ends at `e`, with `dlen` bytes for the empty line.  `iobuf_write` makes room
for a byte behind the buffer before `end` is handed over. -/
def headFound (callback : Callback) (req : HttpReq) (e dlen : Nat) :
    Except Fault (HttpReq × Next) :=
  let room := req.accommodate 1 e
  match headersParse callback room.1 req.rbuf room.2 with
  | .error fault => .error fault
  | .ok (parsed, ok) =>
      if !ok then .ok (failed callback parsed)
      else if parsed.cancel then .ok (httpFree parsed, .stop)
      else .ok ({ parsed with
        rbuf := req.rbuf.drop (e + dlen)
        skip := parsed.skip + (e + dlen) }, .again)

/-- `PS_HEAD`. -/
def parseHead (callback : Callback) (req : HttpReq) (len : Nat) : Except Fault (HttpReq × Next) :=
  if len = 0 then .ok (failed callback req)
  else
    match memfind [cr, lf, cr, lf] req.rbuf with
    | .error fault => .error fault
    | .ok (some e) => headFound callback req e 4
    | .ok none =>
        match memfind [lf, lf] req.rbuf with
        | .error fault => .error fault
        | .ok (some e) => headFound callback req e 2
        | .ok none =>
            if req.rbuf.length < 2 ^ 15 then .ok (req, .wait) else .ok (failed callback req)

/-- `PS_CHUNK_SIZE`. -/
def parseChunkSize (callback : Callback) (req : HttpReq) (len : Nat) :
    Except Fault (HttpReq × Next) :=
  if !req.chunked then .error .assertFails
  else if len = 0 then .ok (failed callback req)
  else
    match memfind [lf] req.rbuf with
    | .error fault => .error fault
    | .ok none =>
        if req.rbuf.length < 20 then .ok (req, .wait) else .ok (failed callback req)
    | .ok (some e) =>
        match strtol 16 req.rbuf with
        | none => .error .outOfBounds
        | some number =>
            let req := { req with length := number.value }
            if number.value < 0 || !number.converted || number.erange then
              .ok (failed callback req)
            else if number.value = 0 then .ok (finished callback req)
            else
              .ok ({ req with
                rbuf := req.rbuf.drop (e + 1)
                skip := req.skip + (e + 1)
                pstate := .chunkData }, .again)

/-- `PS_CHUNK_DATA`. -/
def parseChunkData (callback : Callback) (req : HttpReq) (len : Nat) :
    Except Fault (HttpReq × Next) :=
  if len = 0 then .ok (failed callback req)
  else if req.length ≤ 0 then .error .assertFails
  else
    let dlen := min req.rbuf.length req.length.toNat
    if dlen = 0 then .ok (req, .wait)
    else
      let told := req.cb callback (.data (req.rbuf.take dlen))
      if told.cancel then .ok (httpFree told, .stop)
      else
        let req := { told with
          rbuf := req.rbuf.drop dlen
          skip := req.skip + dlen
          length := req.length - dlen }
        if req.length = 0 then .ok ({ req with pstate := .chunkCrlf }, .again)
        else .ok (req, .wait)

/-- `PS_CHUNK_CRLF`. -/
def parseChunkCrlf (callback : Callback) (req : HttpReq) (len : Nat) :
    Except Fault (HttpReq × Next) :=
  if len = 0 then .ok (failed callback req)
  else if req.length ≠ 0 then .error .assertFails
  else
    match req.rbuf with
    | c :: d :: rest =>
        if c = cr ∧ d = lf then
          .ok ({ req with rbuf := rest, skip := req.skip + 2, pstate := .chunkSize }, .again)
        else if c = lf then
          .ok ({ req with rbuf := d :: rest, skip := req.skip + 1, pstate := .chunkSize }, .again)
        else .ok (failed callback req)
    | _ => .ok (req, .wait)

/-- `dlen` bytes of a body without chunks. -/
def idData (callback : Callback) (req : HttpReq) (dlen : Nat) : HttpReq × Next :=
  if dlen = 0 then (req, .wait)
  else
    let told := req.cb callback (.data (req.rbuf.take dlen))
    if told.cancel then (httpFree told, .stop)
    else if 0 < req.length then
      let req := { told with
        rbuf := req.rbuf.drop dlen
        skip := req.skip + dlen
        length := req.length - dlen }
      if req.length = 0 then finished callback req else (req, .wait)
    else ({ told with rbuf := req.rbuf.drop dlen, skip := req.skip + dlen }, .wait)

/-- `PS_ID_DATA`. -/
def parseIdData (callback : Callback) (req : HttpReq) (len : Nat) : HttpReq × Next :=
  if len = 0 then
    if req.length < 0 then finished callback req else failed callback req
  else if req.length < 0 then idData callback req req.rbuf.length
  else idData callback req (min req.rbuf.length req.length.toNat)

/-- The `switch` of `http_parse`; `len` bytes have been read. -/
def parseState (callback : Callback) (req : HttpReq) (len : Nat) :
    Except Fault (HttpReq × Next) :=
  match req.pstate with
  | .head => parseHead callback req len
  | .chunkSize => parseChunkSize callback req len
  | .chunkData => parseChunkData callback req len
  | .chunkCrlf => parseChunkCrlf callback req len
  | .idData => .ok (parseIdData callback req len)

/-! ## Going on with what is in the buffer -/

theorem memfind_le {sub mem : List UInt8} {e : Nat} (word : sub ≠ [])
    (found : memfind sub mem = .ok (some e)) : e + sub.length ≤ mem.length := by
  simp only [memfind] at found
  split at found
  · cases found
  · rw [Except.ok.injEq] at found
    exact (search_le found).resolve_right word

/-- Behind a head the buffer is shorter. -/
theorem headFound_again {callback : Callback} {req req' : HttpReq} {e dlen : Nat}
    (parsed : headFound callback req e dlen = .ok (req', .again)) :
    req'.rbuf = req.rbuf.drop (e + dlen) := by
  simp only [headFound] at parsed
  split at parsed
  · cases parsed
  · split at parsed
    · simp [failed] at parsed
    · split at parsed
      · simp at parsed
      · simp only [Except.ok.injEq, Prod.mk.injEq, and_true] at parsed
        rw [← parsed]

theorem drop_shorter {rbuf : List UInt8} {n k : Nat} (some_bytes : 0 < k)
    (inside : n + k ≤ rbuf.length) : (rbuf.drop (n + k)).length < rbuf.length := by
  rw [List.length_drop]
  omega

theorem parseHead_again {callback : Callback} {req req' : HttpReq} {len : Nat}
    (parsed : parseHead callback req len = .ok (req', .again)) :
    req'.rbuf.length < req.rbuf.length := by
  simp only [parseHead] at parsed
  split at parsed
  · simp [failed] at parsed
  · split at parsed
    · cases parsed
    · rename_i e found
      rw [headFound_again parsed]
      exact drop_shorter (by decide) (memfind_le (by simp) found)
    · split at parsed
      · cases parsed
      · rename_i e found
        rw [headFound_again parsed]
        exact drop_shorter (by decide) (memfind_le (by simp) found)
      · split at parsed <;> simp [failed] at parsed

theorem parseChunkSize_again {callback : Callback} {req req' : HttpReq} {len : Nat}
    (parsed : parseChunkSize callback req len = .ok (req', .again)) :
    req'.rbuf.length < req.rbuf.length := by
  simp only [parseChunkSize] at parsed
  split at parsed
  · cases parsed
  · split at parsed
    · simp [failed] at parsed
    · split at parsed
      · cases parsed
      · split at parsed <;> simp [failed] at parsed
      · rename_i e found
        split at parsed
        · cases parsed
        · split at parsed
          · simp [failed] at parsed
          · split at parsed
            · simp [finished] at parsed
            · simp only [Except.ok.injEq, Prod.mk.injEq, and_true] at parsed
              rw [← parsed]
              exact drop_shorter (by decide) (memfind_le (by simp) found)

theorem parseChunkData_again {callback : Callback} {req req' : HttpReq} {len : Nat}
    (parsed : parseChunkData callback req len = .ok (req', .again)) :
    req'.rbuf.length < req.rbuf.length := by
  simp only [parseChunkData] at parsed
  split at parsed
  · simp [failed] at parsed
  · split at parsed
    · cases parsed
    · split at parsed
      · simp at parsed
      · rename_i some_data
        split at parsed
        · simp at parsed
        · split at parsed
          · simp only [Except.ok.injEq, Prod.mk.injEq, and_true] at parsed
            rw [← parsed]
            simp only [List.length_drop]
            omega
          · simp at parsed

theorem parseChunkCrlf_again {callback : Callback} {req req' : HttpReq} {len : Nat}
    (parsed : parseChunkCrlf callback req len = .ok (req', .again)) :
    req'.rbuf.length < req.rbuf.length := by
  simp only [parseChunkCrlf] at parsed
  split at parsed
  · simp [failed] at parsed
  · split at parsed
    · cases parsed
    · split at parsed
      · rename_i c d rest bytes
        rw [bytes]
        split at parsed
        · simp only [Except.ok.injEq, Prod.mk.injEq, and_true] at parsed
          rw [← parsed]
          simp only [List.length_cons]
          omega
        · split at parsed
          · simp only [Except.ok.injEq, Prod.mk.injEq, and_true] at parsed
            rw [← parsed]
            simp
          · simp [failed] at parsed
      · simp at parsed

theorem idData_not_again (callback : Callback) (req : HttpReq) (dlen : Nat) :
    (idData callback req dlen).2 ≠ .again := by
  simp only [idData]
  split
  · simp
  · split
    · simp
    · split
      · split <;> simp [finished]
      · simp

theorem parseIdData_not_again (callback : Callback) (req : HttpReq) (len : Nat) :
    (parseIdData callback req len).2 ≠ .again := by
  simp only [parseIdData]
  split
  · split <;> simp [failed, finished]
  · split <;> exact idData_not_again _ _ _

/-- Each time round takes at least one byte. -/
theorem parseState_again {callback : Callback} {req req' : HttpReq} {len : Nat}
    (parsed : parseState callback req len = .ok (req', .again)) :
    req'.rbuf.length < req.rbuf.length := by
  simp only [parseState] at parsed
  split at parsed
  · exact parseHead_again parsed
  · exact parseChunkSize_again parsed
  · exact parseChunkData_again parsed
  · exact parseChunkCrlf_again parsed
  · rw [Except.ok.injEq] at parsed
    exact absurd (congrArg Prod.snd parsed) (parseIdData_not_again callback req len)

/-- `http_parse`. -/
def httpParse (callback : Callback) (len : Nat) (req : HttpReq) : Except Fault HttpReq :=
  match _parsed : parseState callback req len with
  | .error fault => .error fault
  | .ok (req', .again) => httpParse callback len req'
  | .ok (req', .wait) => .ok req'
  | .ok (req', .stop) => .ok req'
termination_by req.rbuf.length
decreasing_by exact parseState_again _parsed

/-! ## A run -/

/-- What happens to a request: a read gives it some bytes, none at the end of the file;
or its owner cancels it. -/
inductive Event
  | read (bytes : List UInt8)
  | cancel
  deriving DecidableEq, Repr

/-- `http_read`.  After `http_parse` has returned 0 the connection is closed. -/
def httpRead (callback : Callback) (req : HttpReq) (bytes : List UInt8) : Except Fault HttpReq :=
  if req.freed then .ok req
  else
    httpParse callback bytes.length
      { (req.accommodate readSize 0).1 with rbuf := req.rbuf ++ bytes }

/-- `http_cancel`, while no read is being parsed. -/
def httpCancel (req : HttpReq) : HttpReq := httpFree req

/-- One event. -/
def step (callback : Callback) (req : HttpReq) : Event → Except Fault HttpReq
  | .read bytes => httpRead callback req bytes
  | .cancel => .ok (httpCancel req)

/-- A request from `http_get` on. -/
def run (callback : Callback) (events : List Event) : Except Fault HttpReq :=
  events.foldlM (step callback) httpGet

/-- The response comes in these reads and then ends. -/
def response (callback : Callback) (reads : List (List UInt8)) : Except Fault HttpReq :=
  run callback (reads.map .read ++ [.read []])

/-- A client that never cancels. -/
def patient : Callback := fun _ => false

end Btpd.Http
