import Btpd.Http.Body

/-!
# The reads do not matter

A response comes in reads of at most 4096 bytes.  However a regular stream is cut, the
callback is told what the stream says, as long as the first read has the three bytes
that `memfind` needs and the read that brings the end of the head does not fill `rbuf`.
-/

namespace Btpd.Http

open Text

/-! ## One call of `http_parse` -/

theorem httpParse_again {callback : Callback} {req req' : HttpReq} {len : Nat}
    (parsed : parseState callback req len = .ok (req', .again)) :
    httpParse callback len req = httpParse callback len req' := by
  rw [httpParse]
  split
  · rename_i fault
    rw [parsed] at fault
    cases fault
  · rename_i again
    rw [parsed, Except.ok.injEq, Prod.mk.injEq] at again
    rw [again.1]
  · rename_i wait
    rw [parsed] at wait
    cases wait
  · rename_i stop
    rw [parsed] at stop
    cases stop

theorem httpParse_last {callback : Callback} {req req' : HttpReq} {len : Nat} {next : Next}
    (parsed : parseState callback req len = .ok (req', next)) (last : next ≠ .again) :
    httpParse callback len req = .ok req' := by
  rw [httpParse]
  split
  · rename_i fault
    rw [parsed] at fault
    cases fault
  · rename_i again
    rw [parsed, Except.ok.injEq, Prod.mk.injEq] at again
    exact absurd again.2 last
  · rename_i wait
    rw [parsed, Except.ok.injEq, Prod.mk.injEq] at wait
    rw [wait.1]
  · rename_i stop
    rw [parsed, Except.ok.injEq, Prod.mk.injEq] at stop
    rw [stop.1]

theorem httpParse_fault {callback : Callback} {req : HttpReq} {len : Nat} {fault : Fault}
    (parsed : parseState callback req len = .error fault) :
    httpParse callback len req = .error fault := by
  rw [httpParse]
  split
  · rename_i fault'
    rw [parsed, Except.error.injEq] at fault'
    rw [fault']
  all_goals
    rename_i other
    rw [parsed] at other
    cases other

theorem parseState_outcome {out : Observed} {req : HttpReq} {t : List UInt8} {len : Nat}
    (live : Live out req (req.rbuf ++ t))
    (fits : req.pstate = .idData ∨ req.rbuf.length < 20 + readSize) (some_bytes : len ≠ 0) :
    ∃ next, parseState patient req len = .ok next ∧ Outcome out t next := by
  cases state : req.pstate with
  | head =>
      have := live.state
      rw [StateOk, state] at this
      exact this.elim
  | chunkSize =>
      have fits' := fits.resolve_left (by simp [state])
      simpa only [parseState, state] using parseChunkSize_outcome live state fits' some_bytes
  | chunkData =>
      simpa only [parseState, state] using parseChunkData_outcome live state some_bytes
  | chunkCrlf =>
      simpa only [parseState, state] using parseChunkCrlf_outcome live state some_bytes
  | idData =>
      exact ⟨_, by simp only [parseState, state], parseIdData_outcome live state some_bytes⟩

/-- A body that has not been read to its end, with nothing to parse in the buffer. -/
def Waiting (out : Observed) (t : List UInt8) (req : HttpReq) : Prop :=
  Live out req (req.rbuf ++ t) ∧ Starved req

theorem httpParse_body {out : Observed} {req : HttpReq} {t : List UInt8} {len : Nat}
    (live : Live out req (req.rbuf ++ t))
    (fits : req.pstate = .idData ∨ req.rbuf.length < 20 + readSize) (some_bytes : len ≠ 0) :
    ∃ req', httpParse patient len req = .ok req' ∧ (Waiting out t req' ∨ Over out req') := by
  generalize size : req.rbuf.length = n
  induction n using Nat.strong_induction_on generalizing req with
  | _ n ih =>
      rcases parseState_outcome live fits some_bytes with ⟨⟨req', next⟩, parsed, outcome⟩
      cases next with
      | again =>
          have shorter := parseState_again parsed
          have fits' : req.rbuf.length < 20 + readSize := by
            refine fits.resolve_left fun state => ?_
            simp only [parseState, state, Except.ok.injEq] at parsed
            exact parseIdData_not_again patient req len (congrArg Prod.snd parsed)
          rcases ih req'.rbuf.length (by omega) outcome (Or.inr (by omega)) rfl with
            ⟨req'', rest, held⟩
          exact ⟨req'', (httpParse_again parsed).trans rest, held⟩
      | wait => exact ⟨req', httpParse_last parsed (by simp), Or.inl outcome⟩
      | stop => exact ⟨req', httpParse_last parsed (by simp), Or.inr outcome⟩

/-- A starved parser has room for a read. -/
theorem Starved.fits {req : HttpReq} (starved : Starved req) {bytes : List UInt8}
    (small : bytes.length ≤ readSize) :
    req.pstate = .idData ∨ (req.rbuf ++ bytes).length < 20 + readSize := by
  rw [List.length_append]
  cases state : req.pstate with
  | head =>
      rw [Starved, state] at starved
      exact starved.elim
  | chunkSize =>
      rw [Starved, state] at starved
      exact Or.inr (by omega)
  | chunkData =>
      rw [Starved, state] at starved
      exact Or.inr (by rw [starved, List.length_nil]; omega)
  | chunkCrlf =>
      rw [Starved, state] at starved
      exact Or.inr (by omega)
  | idData => exact Or.inl rfl

/-- Room for a read leaves what is in the buffer. -/
theorem accommodate_kept (req : HttpReq) (count p : Nat) :
    ∃ size skip, (req.accommodate count p).1 = { req with size := size, skip := skip } := by
  simp only [HttpReq.accommodate]
  split_ifs
  · exact ⟨req.size, req.skip, rfl⟩
  · exact ⟨req.size, 0, rfl⟩
  · exact ⟨req.size + count, req.skip, rfl⟩

/-- A read in the middle of the body. -/
theorem Waiting.read {out : Observed} {bytes t : List UInt8} {req : HttpReq}
    (waiting : Waiting out (bytes ++ t) req) (some_bytes : bytes ≠ [])
    (small : bytes.length ≤ readSize) :
    ∃ req', httpRead patient req bytes = .ok req' ∧ (Waiting out t req' ∨ Over out req') := by
  rcases waiting with ⟨live, starved⟩
  rcases accommodate_kept req readSize 0 with ⟨size, skip, room⟩
  rw [httpRead, if_neg (by simp [live.kept.1]), room]
  have live' : Live out { req with rbuf := req.rbuf ++ bytes, size := size, skip := skip }
      (req.rbuf ++ bytes ++ t) := by
    rw [List.append_assoc]
    exact ⟨live.kept, live.state, live.promise, live.regular⟩
  exact httpParse_body live' (starved.fits small) (by simp [some_bytes])

/-- A starved parser at the end of the file. -/
theorem Starved.ends {out : Observed} {req : HttpReq} (starved : Starved req)
    (live : Live out req req.rbuf) :
    ∃ req', parseState patient req 0 = .ok (req', .stop) ∧ Over out req' := by
  have promise := live.promise
  have state := live.state
  have err : ∀ body : Body, body = ⟨[], .err⟩ → (observe req.told).complete body = out →
      (observe req.told).add .err = out := by
    rintro _ rfl same
    rw [← Observed.complete_err]
    exact same
  simp only [parseState]
  cases at_state : req.pstate with
  | head =>
      rw [StateOk, at_state] at state
      exact state.elim
  | chunkSize =>
      rw [StateOk, at_state] at state
      rw [Starved, at_state] at starved
      rw [bodyOf, at_state] at promise
      refine ⟨_, by simp [parseChunkSize, state]; rfl, Over.failed (err _ ?_ promise)⟩
      rw [chunked_eq, firstChunk, chunkLine, starved.2]
      rfl
  | chunkData =>
      rw [StateOk, at_state] at state
      rw [Starved, at_state] at starved
      rw [bodyOf, at_state] at promise
      refine ⟨_, by simp [parseChunkData]; rfl, Over.failed (err _ ?_ promise)⟩
      rw [starved, chunkRest, if_pos (by simp only [List.length_nil]; omega)]
      rfl
  | chunkCrlf =>
      rw [Starved, at_state] at starved
      rw [bodyOf, at_state] at promise
      refine ⟨_, by simp [parseChunkCrlf]; rfl, Over.failed (err _ ?_ promise)⟩
      rcases bytes : req.rbuf with _ | ⟨c, _ | ⟨d, rest⟩⟩
      · rfl
      · rfl
      · rw [bytes] at starved
        simp only [List.length_cons] at starved
        omega
  | idData =>
      rw [Starved, at_state] at starved
      rw [bodyOf, at_state] at promise
      simp only [parseIdData, if_true]
      by_cases endless : req.length < 0
      · have empty : req.rbuf = [] := starved.resolve_right (by omega)
        rw [plain, if_pos endless, empty, Observed.complete_done] at promise
        rw [if_pos endless]
        exact ⟨_, rfl, Over.finished promise⟩
      · rw [if_neg endless]
        have wrong : plain req.length req.rbuf = ⟨[], .err⟩ := by
          rw [plain, if_neg endless]
          by_cases zero : req.length = 0
          · rw [if_pos zero]
          · rw [if_neg zero, starved.resolve_right zero,
              if_pos (by simp only [List.length_nil]; omega)]
        exact ⟨_, rfl, Over.failed (err _ wrong promise)⟩

/-- The end of the file in the middle of the body. -/
theorem Waiting.eof {out : Observed} {req : HttpReq} (waiting : Waiting out [] req) :
    ∃ req', httpRead patient req [] = .ok req' ∧ Over out req' := by
  rcases waiting with ⟨live, starved⟩
  rcases accommodate_kept req readSize 0 with ⟨size, skip, room⟩
  rw [List.append_nil] at live
  rw [httpRead, if_neg (by simp [live.kept.1]), room, List.append_nil]
  have live' : Live out { req with size := size, skip := skip } req.rbuf :=
    ⟨live.kept, live.state, live.promise, live.regular⟩
  have starved' : Starved { req with size := size, skip := skip } := starved
  rcases starved'.ends live' with ⟨req', parsed, gone⟩
  exact ⟨req', httpParse_last parsed (by simp), gone⟩

/-! ## The head -/

theorem noteHeader_rbuf (req : HttpReq) (name value rbuf : List UInt8) (size : Nat) :
    noteHeader { req with rbuf := rbuf, size := size } name value =
      { noteHeader req name value with rbuf := rbuf, size := size } := by
  simp only [noteHeader]
  split_ifs <;> rfl

theorem headerLines_rbuf (callback : Callback) (left : Nat) (req : HttpReq) (cur rbuf : List UInt8)
    (size : Nat) :
    headerLines callback left { req with rbuf := rbuf, size := size } cur =
      ({ (headerLines callback left req cur).1 with rbuf := rbuf, size := size },
        (headerLines callback left req cur).2) := by
  fun_induction headerLines callback left req cur with
  | case1 req cur inside => rw [headerLines, if_pos inside]
  | case2 req cur outside missing => rw [headerLines_missing outside missing]
  | case3 req cur outside text rest found colon name value req' cancelled =>
      rw [headerLines_found outside found, if_pos colon]
      exact if_pos cancelled
  | case4 req cur outside text rest found colon name value req' go ih =>
      rw [headerLines_found outside found, if_pos colon]
      refine (if_neg go).trans ?_
      rw [← ih, ← noteHeader_rbuf]
      rfl
  | case5 req cur outside text rest found noColon =>
      rw [headerLines_found outside found, if_neg noColon]

theorem headersRest_rbuf (callback : Callback) (req : HttpReq) (buf rbuf : List UInt8) (size : Nat)
    (e : Option Nat) :
    headersRest callback { req with rbuf := rbuf, size := size } buf e =
      (headersRest callback req buf e).map
        fun p => ({ p.1 with rbuf := rbuf, size := size }, p.2) := by
  simp only [headersRest]
  by_cases cancelled : req.cancel
  · rw [if_pos cancelled, if_pos cancelled]
    rfl
  · rw [if_neg cancelled, if_neg cancelled]
    cases strchrNl buf with
    | none => rfl
    | some nl =>
        cases e with
        | none => rfl
        | some e =>
            simp only [headerLines_rbuf]
            split_ifs <;> rfl

/-- `headers_parse` does not look at the buffer of the request. -/
theorem headersParse_rbuf (callback : Callback) (req : HttpReq) (buf rbuf : List UInt8)
    (size : Nat) (e : Option Nat) :
    headersParse callback { req with rbuf := rbuf, size := size } buf e =
      (headersParse callback req buf e).map
        fun p => ({ p.1 with rbuf := rbuf, size := size }, p.2) := by
  simp only [headersParse]
  cases scanStatus buf with
  | mismatch => rfl
  | exhausted => rfl
  | got code rest =>
      exact headersRest_rbuf callback
        ({ req with chunked := false, length := -1 }.cb callback (.code code)) buf rbuf size e

/-- The header lines as a client sees them that does not cancel. -/
theorem headerLines_patient (left : Nat) (req : HttpReq) (cur : List UInt8) :
    (headerLines patient left req cur).1.cancel = req.cancel ∧
      (headerLines patient left req cur).1.freed = req.freed := by
  fun_induction headerLines patient left req cur with
  | case1 => exact ⟨rfl, rfl⟩
  | case2 => exact ⟨rfl, rfl⟩
  | case3 => exact ⟨cb_patient_cancel _ _, rfl⟩
  | case4 req cur outside text rest found colon name value req' go ih =>
      have noted : (noteHeader req' name (trim value.1)).cancel = req'.cancel ∧
          (noteHeader req' name (trim value.1)).freed = req'.freed := by
        simp only [noteHeader]
        split <;> exact ⟨rfl, rfl⟩
      exact ⟨ih.1.trans (noted.1.trans (cb_patient_cancel _ _)), ih.2.trans noted.2⟩
  | case5 => exact ⟨rfl, rfl⟩

theorem headersRest_ok {req req' : HttpReq} {head : List UInt8} {e : Nat}
    (live : req.freed = false ∧ req.cancel = false)
    (parsed : headersRest patient req head (some e) = .ok (req', true)) :
    (req'.freed = false ∧ req'.cancel = false) ∧
      req'.pstate = if req'.chunked then .chunkSize else .idData := by
  simp only [headersRest] at parsed
  rw [if_neg (by simp [live.2])] at parsed
  split at parsed
  · cases parsed
  · rename_i nl _
    have kept := headerLines_patient (head.length - e) req (nl.drop 1)
    rw [live.1, live.2] at kept
    split at parsed
    · simp only [Except.ok.injEq, Prod.mk.injEq, and_true] at parsed
      rw [← parsed]
      exact ⟨⟨kept.2, kept.1⟩, rfl⟩
    · rename_i unfinished
      rw [Except.ok.injEq] at parsed
      rw [parsed] at unfinished kept
      simp only [Bool.true_and, Bool.not_eq_true'] at unfinished
      exact absurd kept.1 unfinished

/-- A head that has been parsed leads to the body. -/
theorem readHead_ok {head : List UInt8} {e : Nat} {req : HttpReq}
    (parsed : readHead head e = .ok (req, true)) :
    (req.freed = false ∧ req.cancel = false) ∧
      req.pstate = if req.chunked then .chunkSize else .idData := by
  simp only [readHead, headersParse] at parsed
  split at parsed
  · exact headersRest_ok ⟨rfl, rfl⟩ parsed
  · cases parsed

/-- A head with a regular status line is read to its end. -/
theorem readHead_ne_error {head : List UInt8} {e : Nat} {fault : Fault}
    (status : StatusRegular head) : readHead head e ≠ .error fault := by
  intro wrong
  simp only [StatusRegular] at status
  simp only [readHead, headersParse] at wrong
  split at wrong
  · rename_i code rest scanned
    simp only [scanned] at status
    simp only [headersRest] at wrong
    split at wrong
    · cases wrong
    · split at wrong
      · rename_i missing
        exact status missing
      · split at wrong <;> cases wrong
  · cases wrong

/-- A buffer with a head that is not whole yet. -/
structure HeadWait (rbuf : List UInt8) : Prop where
  short : rbuf.length < headLimit
  crlf : search [cr, lf, cr, lf] rbuf = none
  lf : search [lf, lf] rbuf = none

/-- The empty line that ends the head stands where the parser finds it. -/
theorem isHead_of_search {rbuf : List UInt8} {e dlen : Nat}
    (found : (dlen = 4 ∧ search [cr, lf, cr, lf] rbuf = some e) ∨
      (dlen = 2 ∧ search [lf, lf] rbuf = some e)) :
    IsHead (rbuf.take (e + dlen)) e ∧ e + dlen ≤ rbuf.length := by
  have split : ∀ word : List UInt8, word ≠ [] → search word rbuf = some e →
      rbuf.take (e + word.length) = rbuf.take e ++ word ∧ e + word.length ≤ rbuf.length := by
    intro word some_byte at_e
    have inside := (search_le at_e).resolve_right some_byte
    rcases prefix_of_search at_e with ⟨rest, stands⟩
    refine ⟨?_, inside⟩
    rw [List.take_add, ← stands, List.take_left]
  rcases found with ⟨rfl, at_e⟩ | ⟨rfl, at_e⟩
  · have here := split _ (by simp) at_e
    have size : (rbuf.take e).length = e := by
      rw [List.length_take]
      exact Nat.min_eq_left (by omega)
    refine ⟨?_, here.2⟩
    have shape := IsHead.full (rbuf.take e)
    rw [size] at shape
    rw [show e + 4 = e + [cr, lf, cr, lf].length from rfl, here.1]
    exact shape
  · have here := split _ (by simp) at_e
    have size : (rbuf.take e).length = e := by
      rw [List.length_take]
      exact Nat.min_eq_left (by omega)
    refine ⟨?_, here.2⟩
    have shape := IsHead.bare (rbuf.take e)
    rw [size] at shape
    rw [show e + 2 = e + [lf, lf].length from rfl, here.1]
    exact shape

/-! ## The room of `rbuf` -/

/-- The request when this has been read of a head, and `rbuf` has this size. -/
abbrev atHead (rbuf : List UInt8) (size : Nat) : HttpReq :=
  { httpGet with rbuf := rbuf, size := size }

/-- The size of `rbuf` while it holds `n` bytes of a head. -/
structure Allocated (n size : Nat) : Prop where
  blocks : readSize ∣ size
  inside : n ≤ size
  small : size < n + 2 * readSize

/-- There is room for a read. -/
structure Ready (n size : Nat) : Prop where
  blocks : readSize ∣ size
  inside : n + readSize ≤ size
  small : size < n + 2 * readSize

theorem Allocated.ready {rbuf : List UInt8} {size : Nat} (allocated : Allocated rbuf.length size) :
    ∃ size', ((atHead rbuf size).accommodate readSize 0).1 = atHead rbuf size' ∧
      Ready rbuf.length size' := by
  have skip : httpGet.skip = 0 := rfl
  have inside := allocated.inside
  have small := allocated.small
  simp only [HttpReq.accommodate, skip, Nat.zero_add, Nat.add_zero]
  by_cases enough : readSize ≤ size - rbuf.length
  · rw [if_pos enough]
    refine ⟨size, rfl, allocated.blocks, ?_, small⟩
    simp only [readSize] at enough ⊢
    omega
  · rw [if_neg enough, if_neg enough]
    refine ⟨size + readSize, rfl, Nat.dvd_add allocated.blocks (Nat.dvd_refl _), ?_, ?_⟩
    · exact Nat.add_le_add_right inside _
    · simp only [readSize] at enough ⊢
      omega

/-- A read leaves room, unless it is as long as a read can be and the bytes before it fill
whole blocks. -/
theorem Ready.read {n size k : Nat} (ready : Ready n size) (small : k ≤ readSize) :
    Allocated (n + k) size ∧ (n + k = size ↔ k = readSize ∧ readSize ∣ n) := by
  rcases ready with ⟨⟨a, blocks⟩, inside, less⟩
  constructor
  · constructor
    · exact ⟨a, blocks⟩
    · omega
    · omega
  · constructor
    · intro full
      have whole : k = readSize := by omega
      have sum : n + readSize = readSize * a := by rw [← whole, full, whole, blocks]
      exact ⟨whole, (Nat.dvd_add_left (Nat.dvd_refl readSize)).mp ⟨a, sum⟩⟩
    · rintro ⟨rfl, b, rfl⟩
      simp only [readSize] at blocks inside less ⊢
      omega

theorem accommodate_room {rbuf : List UInt8} {size : Nat} (room : rbuf.length < size) (e : Nat) :
    (atHead rbuf size).accommodate 1 e = (atHead rbuf size, some e) := by
  have enough : 1 ≤ size - (0 + rbuf.length) := by omega
  exact if_pos enough

theorem accommodate_full {rbuf : List UInt8} {size : Nat} (full : size ≤ rbuf.length) (e : Nat) :
    (atHead rbuf size).accommodate 1 e = (atHead rbuf (size + 1), none) := by
  have skip : httpGet.skip = 0 := rfl
  have none_left : size - rbuf.length = 0 := Nat.sub_eq_zero_of_le full
  simp [HttpReq.accommodate, skip, none_left]

/-- Without a status code `end` is not used. -/
theorem headersParse_of_mismatch {callback : Callback} {req : HttpReq} {buf : List UInt8}
    (scanned : scanStatus buf = .mismatch) (e : Option Nat) :
    headersParse callback req buf e = .ok ({ req with chunked := false, length := -1 }, false) := by
  simp only [headersParse, scanned]

/-- `end` points to the end of the head, or it is not used. -/
theorem headersParse_room {rbuf : List UInt8} {size e : Nat}
    (fits : rbuf.length < size ∨ rbuf.length = size ∧ scanStatus rbuf = .mismatch) :
    ∃ size', headersParse patient ((atHead rbuf size).accommodate 1 e).1 rbuf
        ((atHead rbuf size).accommodate 1 e).2 =
      headersParse patient (atHead rbuf size') rbuf (some e) := by
  rcases fits with room | ⟨rfl, mismatch⟩
  · exact ⟨size, by rw [accommodate_room room]⟩
  · refine ⟨rbuf.length + 1, ?_⟩
    rw [accommodate_full (Nat.le_refl _), headersParse_of_mismatch mismatch,
      headersParse_of_mismatch mismatch]

/-- In a full buffer `end` is lost. -/
theorem headFound_full {rbuf rest : List UInt8} {code : Int}
    (scanned : scanStatus rbuf = .got code rest) (line : strchrNl rbuf ≠ none) (e dlen : Nat) :
    headFound patient (atHead rbuf rbuf.length) e dlen = .error .stalePointer := by
  have parsed : headersParse patient (atHead rbuf (rbuf.length + 1)) rbuf none =
      .error .stalePointer := by
    cases at_nl : strchrNl rbuf with
    | none => exact absurd at_nl line
    | some nl =>
        simp only [headersParse, scanned, headersRest, at_nl]
        rfl
  simp only [headFound, accommodate_full (Nat.le_refl _), parsed]

/-- `headFound` goes on with the body, or the head was wrong. -/
theorem headFound_outcome {w rbuf t : List UInt8} {size e dlen : Nat} (whole : w = rbuf ++ t)
    (regular : HeadRegular w e dlen) (at_end : headEnd w = some (e, dlen))
    (limit : e + dlen ≤ headLimit) (isHead : IsHead (rbuf.take (e + dlen)) e)
    (inside : e + dlen ≤ rbuf.length)
    (fits : rbuf.length < size ∨ rbuf.length = size ∧ scanStatus rbuf = .mismatch) :
    ∃ req' next, headFound patient (atHead rbuf size) e dlen = .ok (req', next) ∧
      Outcome (meaning w) t (req', next) ∧
      (next = .again → req'.rbuf = rbuf.drop (e + dlen)) ∧ next ≠ .wait := by
  have same : w.take (e + dlen) = rbuf.take (e + dlen) := by
    rw [whole, List.take_append_of_le_length inside]
  have rest : w.drop (e + dlen) = rbuf.drop (e + dlen) ++ t := by
    rw [whole, List.drop_append_of_le_length inside]
  have status : StatusRegular (rbuf.take (e + dlen)) := by
    rw [← same]
    exact regular.status
  have complete : scanStatus (rbuf.take (e + dlen)) ≠ .exhausted := by
    intro exhausted
    simp only [StatusRegular, exhausted] at status
  rcases headersParse_room (e := e) fits with ⟨size', room⟩
  have parse : headersParse patient (atHead rbuf size') rbuf (some e) =
      (readHead (rbuf.take (e + dlen)) e).map
        fun p => ({ p.1 with rbuf := rbuf, size := size' }, p.2) := by
    have alone : headersParse patient httpGet _ (some e) = _ :=
      headersParse_append isHead complete (rbuf.drop (e + dlen))
    rw [List.take_append_drop] at alone
    rw [headersParse_rbuf, alone]
    rfl
  have means : meaning w =
      headMeaning (readHead (rbuf.take (e + dlen)) e) (rbuf.drop (e + dlen) ++ t) := by
    simp only [meaning, at_end, if_neg (show ¬ headLimit < e + dlen by omega), same, rest]
  simp only [headFound, room, parse]
  cases read : readHead (rbuf.take (e + dlen)) e with
  | error fault => exact absurd read (readHead_ne_error status)
  | ok parsed =>
      rcases parsed with ⟨req, ok⟩
      rw [read] at means
      cases ok with
      | false => exact ⟨_, _, rfl, Over.failed means.symm, by simp, by simp⟩
      | true =>
          have leads := readHead_ok read
          have chunks := regular.chunks req (by rw [same]; exact read)
          simp only [Except.map, Bool.not_true, Bool.false_eq_true, if_false, leads.1.2]
          refine ⟨_, _, rfl, ⟨⟨leads.1.1, rfl⟩, ?_, means.symm, ?_⟩, fun _ => rfl, by simp⟩
          · simp only [StateOk, leads.2]
            cases req.chunked <;> simp
          · simp only [BodyRegular, leads.2]
            cases chunked_req : req.chunked with
            | false => simp
            | true =>
                rw [rest] at chunks
                simpa using chunks chunked_req

/-- The head, once its end is in the buffer, and what is in the buffer of the body. -/
theorem httpParse_headFound {w rbuf t : List UInt8} {size e dlen len : Nat} (whole : w = rbuf ++ t)
    (regular : HeadRegular w e dlen) (at_end : headEnd w = some (e, dlen))
    (limit : e + dlen ≤ headLimit) (isHead : IsHead (rbuf.take (e + dlen)) e)
    (inside : e + dlen ≤ rbuf.length) (near : rbuf.length < e + dlen + readSize)
    (fits : rbuf.length < size ∨ rbuf.length = size ∧ scanStatus rbuf = .mismatch)
    (some_bytes : len ≠ 0)
    (parse : parseState patient (atHead rbuf size) len =
      headFound patient (atHead rbuf size) e dlen) :
    ∃ req', httpParse patient len (atHead rbuf size) = .ok req' ∧
      (Waiting (meaning w) t req' ∨ Over (meaning w) req') := by
  rcases headFound_outcome whole regular at_end limit isHead inside fits with
    ⟨req', next, found, outcome, buffer, decided⟩
  rw [found] at parse
  cases next with
  | again =>
      rcases httpParse_body outcome
        (Or.inr (by rw [buffer rfl, List.length_drop]; omega)) some_bytes with ⟨req'', rest, held⟩
      exact ⟨req'', (httpParse_again parse).trans rest, held⟩
  | wait => exact absurd rfl decided
  | stop => exact ⟨req', httpParse_last parse (by simp), Or.inr outcome⟩

/-- Where the head of a stream ends, from where its two kinds of empty lines stand. -/
theorem headEnd_eq_crlf {w : List UInt8} {e : Nat} (found : search [cr, lf, cr, lf] w = some e)
    (first : ∀ f, search [lf, lf] w = some f → e + 4 ≤ f + 2) : headEnd w = some (e, 4) := by
  simp only [headEnd, found]
  cases other : search [lf, lf] w with
  | none => rfl
  | some f => simp only [if_neg (show ¬ f + 2 < e + 4 by have := first f other; omega)]

theorem headEnd_eq_lf {w : List UInt8} {f : Nat} (found : search [lf, lf] w = some f)
    (first : ∀ e, search [cr, lf, cr, lf] w = some e → f + 2 < e + 4) :
    headEnd w = some (f, 2) := by
  simp only [headEnd, found]
  cases other : search [cr, lf, cr, lf] w with
  | none => rfl
  | some e => simp only [if_pos (first e other)]

/-- If no empty line is in the buffer, the head ends behind it. -/
theorem lt_headEnd {rbuf t : List UInt8} {e dlen : Nat}
    (crlf : search [cr, lf, cr, lf] rbuf = none) (none_lf : search [lf, lf] rbuf = none)
    (at_end : headEnd (rbuf ++ t) = some (e, dlen)) : rbuf.length < e + dlen := by
  have late₁ : ∀ e, search [cr, lf, cr, lf] (rbuf ++ t) = some e → rbuf.length < e + 4 :=
    fun e found => lt_of_search_append crlf found
  have late₂ : ∀ f, search [lf, lf] (rbuf ++ t) = some f → rbuf.length < f + 2 :=
    fun f found => lt_of_search_append none_lf found
  simp only [headEnd] at at_end
  split at at_end
  · split at at_end
    · cases at_end
      exact late₂ _ (by assumption)
    · cases at_end
      exact late₁ _ (by assumption)
  · cases at_end
    exact late₁ _ (by assumption)
  · cases at_end
    exact late₂ _ (by assumption)
  · cases at_end

/-- A head that is too long, or has no end. -/
theorem meaning_of_long {w : List UInt8}
    (long : ∀ e dlen, headEnd w = some (e, dlen) → headLimit < e + dlen) :
    meaning w = Observed.nothing.add .err := by
  simp only [meaning]
  split
  · rfl
  · rename_i e dlen at_end
    rw [if_pos (long e dlen at_end)]

/-- What a read finds while the head is not whole: its end, no end yet, or too many bytes
without one. -/
inductive HeadRead (w rbuf bytes : List UInt8) (size : Nat) : Prop
  | found {e dlen : Nat} (at_end : headEnd w = some (e, dlen)) (limit : e + dlen ≤ headLimit)
      (regular : HeadRegular w e dlen) (isHead : IsHead ((rbuf ++ bytes).take (e + dlen)) e)
      (after : rbuf.length < e + dlen) (inside : e + dlen ≤ (rbuf ++ bytes).length)
      (parse : parseState patient (atHead (rbuf ++ bytes) size) bytes.length =
        headFound patient (atHead (rbuf ++ bytes) size) e dlen)
  | waits (waits : HeadWait (rbuf ++ bytes))
      (parse : parseState patient (atHead (rbuf ++ bytes) size) bytes.length =
        .ok (atHead (rbuf ++ bytes) size, .wait))
  | long (long : ∀ e dlen, headEnd w = some (e, dlen) → headLimit < e + dlen)
      (parse : parseState patient (atHead (rbuf ++ bytes) size) bytes.length =
        .ok (failed patient (atHead (rbuf ++ bytes) size)))

/-- A head that has not ended in the buffer ends behind it. -/
theorem HeadWait.before {rbuf w bytes t : List UInt8} {e dlen : Nat} (waits : HeadWait rbuf)
    (whole : w = rbuf ++ bytes ++ t) (at_end : headEnd w = some (e, dlen)) :
    rbuf.length < e + dlen := by
  rw [whole, List.append_assoc] at at_end
  exact lt_headEnd waits.crlf waits.lf at_end

/-- An empty line that ends with CRLF and is found in the buffer is the first in the stream. -/
theorem headEnd_of_crlf {w rbuf bytes t : List UInt8} {e : Nat} (regular : Regular w)
    (whole : w = rbuf ++ bytes ++ t) (waits : HeadWait rbuf) (small : bytes.length ≤ readSize)
    (found : search [cr, lf, cr, lf] (rbuf ++ bytes) = some e) : headEnd w = some (e, 4) := by
  have length : (rbuf ++ bytes).length = rbuf.length + bytes.length := List.length_append
  have inside : e + 4 ≤ (rbuf ++ bytes).length := (search_le found).resolve_right (by simp)
  have early := waits.short
  have stands : search [cr, lf, cr, lf] w = some e := by
    rw [whole]
    exact search_append found (by simp) t
  refine headEnd_eq_crlf stands fun f other => ?_
  by_contra before
  have at_end := headEnd_eq_lf other fun e' again => by
    rw [stands] at again
    cases again
    omega
  have after := waits.before whole at_end
  rcases regular f 2 at_end with far | ⟨_, headRegular⟩
  · simp only [headLimit, readSize] at far early small
    omega
  · have alone := headRegular.alone rfl
    have split : w = w.take (f + 2 + readSize - 1) ++ w.drop (f + 2 + readSize - 1) :=
      (List.take_append_drop _ _).symm
    have longer : e + 4 ≤ w.length := by
      rw [whole, List.length_append]
      omega
    rw [split] at stands
    have there := search_of_append stands (by
      simp only [List.length_take, List.length_cons, List.length_nil]
      omega)
    rw [alone] at there
    cases there

/-- So is one that ends with LF, if there is none with CRLF in the buffer. -/
theorem headEnd_of_lf {w rbuf bytes t : List UInt8} {f : Nat} (whole : w = rbuf ++ bytes ++ t)
    (noCrlf : search [cr, lf, cr, lf] (rbuf ++ bytes) = none)
    (found : search [lf, lf] (rbuf ++ bytes) = some f) : headEnd w = some (f, 2) := by
  have inside : f + 2 ≤ (rbuf ++ bytes).length := (search_le found).resolve_right (by simp)
  have stands : search [lf, lf] w = some f := by
    rw [whole]
    exact search_append found (by simp) t
  refine headEnd_eq_lf stands fun e other => ?_
  rw [whole] at other
  have late := lt_of_search_append noCrlf other
  simp only [List.length_cons, List.length_nil] at late
  omega

theorem headRead {w rbuf bytes t : List UInt8} (regular : Regular w)
    (whole : w = rbuf ++ bytes ++ t) (waits : HeadWait rbuf) (some_bytes : bytes ≠ [])
    (small : bytes.length ≤ readSize) (enough : 3 ≤ (rbuf ++ bytes).length) (size : Nat) :
    HeadRead w rbuf bytes size := by
  have len : bytes.length ≠ 0 := by simpa using some_bytes
  have length : (rbuf ++ bytes).length = rbuf.length + bytes.length := List.length_append
  have early := waits.short
  have crlf : memfind [cr, lf, cr, lf] (rbuf ++ bytes) =
      .ok (search [cr, lf, cr, lf] (rbuf ++ bytes)) := by
    rw [memfind, if_neg (by simp only [List.length_cons, List.length_nil]; omega)]
  have bare : memfind [lf, lf] (rbuf ++ bytes) = .ok (search [lf, lf] (rbuf ++ bytes)) := by
    rw [memfind, if_neg (by simp only [List.length_cons, List.length_nil]; omega)]
  have parse : parseState patient (atHead (rbuf ++ bytes) size) bytes.length =
      parseHead patient (atHead (rbuf ++ bytes) size) bytes.length := rfl
  simp only [parseHead, if_neg len, crlf, bare] at parse
  have found : ∀ e dlen, headEnd w = some (e, dlen) →
      ((dlen = 4 ∧ search [cr, lf, cr, lf] (rbuf ++ bytes) = some e) ∨
        (dlen = 2 ∧ search [lf, lf] (rbuf ++ bytes) = some e)) →
      parseState patient (atHead (rbuf ++ bytes) size) bytes.length =
        headFound patient (atHead (rbuf ++ bytes) size) e dlen →
      HeadRead w rbuf bytes size := by
    intro e dlen at_end stands parse'
    have isHead := isHead_of_search stands
    rcases regular e dlen at_end with long | ⟨limit, headRegular⟩
    · simp only [headLimit, readSize] at long early small
      omega
    · exact .found at_end limit headRegular isHead.1 (waits.before whole at_end) isHead.2 parse'
  cases long : search [cr, lf, cr, lf] (rbuf ++ bytes) with
  | some e =>
      rw [long] at parse
      exact found e 4 (headEnd_of_crlf regular whole waits small long) (Or.inl ⟨rfl, long⟩) parse
  | none =>
      rw [long] at parse
      cases short : search [lf, lf] (rbuf ++ bytes) with
      | some f =>
          rw [short] at parse
          exact found f 2 (headEnd_of_lf whole long short) (Or.inr ⟨rfl, short⟩) parse
      | none =>
          rw [short] at parse
          by_cases room : (rbuf ++ bytes).length < 2 ^ 15
          · simp only [if_pos room] at parse
            exact .waits ⟨room, long, short⟩ parse
          · simp only [if_neg room] at parse
            refine .long (fun e dlen at_end => ?_) parse
            rw [whole] at at_end
            have := lt_headEnd long short at_end
            simp only [headLimit]
            omega

/-- A read of `k` bytes behind `n` others that fills `rbuf` and brings the end of a head with
a status code. -/
structure Fills (w : List UInt8) (n k : Nat) : Prop where
  full : k = readSize ∧ readSize ∣ n
  ends : ∃ e dlen, headEnd w = some (e, dlen) ∧ e + dlen ≤ headLimit ∧ n < e + dlen ∧
    e + dlen ≤ n + k ∧ ∃ code rest, scanStatus (w.take (e + dlen)) = .got code rest

/-- The head, if it is not too long, ends within `n` bytes. -/
def Past (w : List UInt8) (n : Nat) : Prop :=
  ∀ e dlen, headEnd w = some (e, dlen) → e + dlen ≤ headLimit → e + dlen ≤ n

theorem Past.not_fills {w : List UInt8} {n k : Nat} (past : Past w n) : ¬Fills w n k := by
  rintro ⟨-, e, dlen, at_end, limit, after, -⟩
  have := past e dlen at_end limit
  omega

/-- The buffer and the head in it have the same status line. -/
theorem scanStatus_head {rbuf : List UInt8} {e dlen : Nat}
    (isHead : IsHead (rbuf.take (e + dlen)) e)
    (complete : scanStatus (rbuf.take (e + dlen)) ≠ .exhausted) :
    scanStatus rbuf = (scanStatus (rbuf.take (e + dlen))).followedBy (rbuf.drop (e + dlen)) := by
  have scanned := (scanStatus_local _ isHead.lines.1.endsLine complete).2 (rbuf.drop (e + dlen))
  rwa [List.take_append_drop] at scanned

/-- A read while the head is not whole that does not fill `rbuf` with its end. -/
theorem httpRead_head {w rbuf bytes t : List UInt8} {size : Nat} (regular : Regular w)
    (whole : w = rbuf ++ bytes ++ t) (waits : HeadWait rbuf)
    (allocated : Allocated rbuf.length size) (some_bytes : bytes ≠ [])
    (small : bytes.length ≤ readSize) (enough : 3 ≤ (rbuf ++ bytes).length)
    (roomy : ¬Fills w rbuf.length bytes.length) :
    ∃ req', httpRead patient (atHead rbuf size) bytes = .ok req' ∧
      ((HeadWait (rbuf ++ bytes) ∧ ∃ size', req' = atHead (rbuf ++ bytes) size' ∧
          Allocated (rbuf ++ bytes).length size') ∨
        Past w (rbuf ++ bytes).length ∧ (Waiting (meaning w) t req' ∨ Over (meaning w) req')) := by
  have len : bytes.length ≠ 0 := by simpa using some_bytes
  rcases allocated.ready with ⟨size', grown, ready⟩
  have read := ready.read small
  rw [← List.length_append] at read
  rw [httpRead, if_neg (by simp [httpGet]), grown]
  rcases headRead regular whole waits some_bytes small enough size' with
    ⟨at_end, limit, headRegular, isHead, after, inside, parse⟩ | ⟨waits', parse⟩ | ⟨long, parse⟩
  · rename_i e dlen
    have same : w.take (e + dlen) = (rbuf ++ bytes).take (e + dlen) := by
      rw [whole, List.take_append_of_le_length inside]
    have status := headRegular.status
    have fits : (rbuf ++ bytes).length < size' ∨
        (rbuf ++ bytes).length = size' ∧ scanStatus (rbuf ++ bytes) = .mismatch := by
      rcases Nat.lt_or_eq_of_le read.1.inside with room | full
      · exact Or.inl room
      · refine Or.inr ⟨full, ?_⟩
        rw [same] at status
        cases scanned : scanStatus ((rbuf ++ bytes).take (e + dlen)) with
        | exhausted => simp only [StatusRegular, scanned] at status
        | mismatch =>
            rw [scanStatus_head isHead (by simp [scanned]), scanned]
            rfl
        | got code rest =>
            refine absurd ⟨read.2.mp full, e, dlen, at_end, limit, after, ?_, code, rest, ?_⟩ roomy
            · rwa [List.length_append] at inside
            · rw [same, scanned]
    have near : (rbuf ++ bytes).length < e + dlen + readSize := by
      rw [List.length_append]
      omega
    rcases httpParse_headFound whole headRegular at_end limit isHead inside near fits len parse with
      ⟨req', parsed, held⟩
    refine ⟨req', parsed, Or.inr ⟨fun e' dlen' at_end' _ => ?_, held⟩⟩
    rw [at_end] at at_end'
    cases at_end'
    exact inside
  · exact ⟨_, httpParse_last parse (by simp), Or.inl ⟨waits', size', rfl, read.1⟩⟩
  · refine ⟨_, httpParse_last parse (by simp), Or.inr ⟨?_, Or.inr (Over.failed ?_)⟩⟩
    · exact fun e dlen at_end limit => absurd limit (Nat.not_le.mpr (long e dlen at_end))
    · rw [meaning_of_long long]
      rfl

/-- A read that fills `rbuf` with the end of the head. -/
theorem httpRead_fills {w rbuf bytes t : List UInt8} {size : Nat} (regular : Regular w)
    (whole : w = rbuf ++ bytes ++ t) (waits : HeadWait rbuf)
    (allocated : Allocated rbuf.length size) (fills : Fills w rbuf.length bytes.length) :
    httpRead patient (atHead rbuf size) bytes = .error .stalePointer := by
  rcases fills with ⟨⟨full, blocks⟩, e, dlen, at_end, limit, after, before, code, rest, scanned⟩
  have some_bytes : bytes ≠ [] := by
    rintro rfl
    cases full
  have enough : 3 ≤ (rbuf ++ bytes).length := by
    rw [List.length_append, full, readSize]
    omega
  rcases allocated.ready with ⟨size', grown, ready⟩
  have filled := (ready.read (Nat.le_of_eq full)).2.mpr ⟨full, blocks⟩
  rw [← List.length_append] at filled before
  rw [httpRead, if_neg (by simp [httpGet]), grown]
  rcases headRead regular whole waits some_bytes (Nat.le_of_eq full) enough size' with
    ⟨at_end', -, headRegular, isHead, -, inside, parse⟩ | ⟨waits', parse⟩ | ⟨long, parse⟩
  · rw [at_end] at at_end'
    cases at_end'
    have same : w.take (e + dlen) = (rbuf ++ bytes).take (e + dlen) := by
      rw [whole, List.take_append_of_le_length inside]
    have status := headRegular.status
    rw [same] at scanned status
    have buffer := scanStatus_head isHead (by simp [scanned])
    rw [scanned] at buffer
    simp only [StatusRegular, scanned] at status
    have line : strchrNl (rbuf ++ bytes) ≠ none := by
      rw [← List.take_append_drop (e + dlen) (rbuf ++ bytes),
        strchrNl_append isHead.lines.1.endsLine]
      simpa using status
    rw [← filled, headFound_full buffer line] at parse
    rw [← filled]
    exact httpParse_fault parse
  · rw [whole] at at_end
    exact absurd before (Nat.not_le.mpr (lt_headEnd waits'.crlf waits'.lf at_end))
  · exact absurd limit (Nat.not_le.mpr (long e dlen at_end))

/-! ## A whole response -/

/-- A way of cutting a stream into reads. -/
def Cut (w : List UInt8) (reads : List (List UInt8)) : Prop :=
  reads.flatten = w ∧ ∀ bytes ∈ reads, 1 ≤ bytes.length ∧ bytes.length ≤ readSize

/-- A request of which `n` bytes have been read and `t` has not. -/
def Reading (w : List UInt8) (n : Nat) (t : List UInt8) (req : HttpReq) : Prop :=
  (∃ rbuf size, req = atHead rbuf size ∧ w = rbuf ++ t ∧ HeadWait rbuf ∧ 3 ≤ n ∧
      rbuf.length = n ∧ Allocated n size) ∨
    Past w n ∧ (Waiting (meaning w) t req ∨ Over (meaning w) req)

theorem httpRead_over {callback : Callback} {req : HttpReq} (freed : req.freed = true)
    (bytes : List UInt8) : httpRead callback req bytes = .ok req := by
  rw [httpRead, if_pos freed]

theorem headWait_nil : HeadWait [] := ⟨by decide, rfl, rfl⟩

theorem allocated_nil : Allocated ([] : List UInt8).length 4096 :=
  ⟨Nat.dvd_refl _, Nat.zero_le _, by decide⟩

/-- What a read does to the request. -/
def ReadsOn (w : List UInt8) (n : Nat) (bytes t : List UInt8) (read : Except Fault HttpReq) :
    Prop :=
  (¬Fills w n bytes.length ∧ ∃ req, read = .ok req ∧ Reading w (n + bytes.length) t req) ∨
    (Fills w n bytes.length ∧ read = .error .stalePointer)

theorem httpRead_readsOn {w rbuf bytes t : List UInt8} {size : Nat} (regular : Regular w)
    (whole : w = rbuf ++ bytes ++ t) (waits : HeadWait rbuf)
    (allocated : Allocated rbuf.length size) (some_bytes : bytes ≠ [])
    (small : bytes.length ≤ readSize) (enough : 3 ≤ (rbuf ++ bytes).length) :
    ReadsOn w rbuf.length bytes t (httpRead patient (atHead rbuf size) bytes) := by
  by_cases fills : Fills w rbuf.length bytes.length
  · exact Or.inr ⟨fills, httpRead_fills regular whole waits allocated fills⟩
  · rcases httpRead_head regular whole waits allocated some_bytes small enough fills with
      ⟨req, read, ⟨waits', size', same, allocated'⟩ | ⟨past, held⟩⟩
    · rw [List.length_append] at enough allocated'
      exact Or.inl ⟨fills, req, read, Or.inl ⟨rbuf ++ bytes, size', same, whole, waits', enough,
        List.length_append, allocated'⟩⟩
    · rw [List.length_append] at past
      exact Or.inl ⟨fills, req, read, Or.inr ⟨past, held⟩⟩

theorem Reading.first {w bytes t : List UInt8} (regular : Regular w) (whole : w = bytes ++ t)
    (small : bytes.length ≤ readSize) (enough : 3 ≤ bytes.length) :
    ReadsOn w 0 bytes t (httpRead patient httpGet bytes) := by
  have some_bytes : bytes ≠ [] := by
    rintro rfl
    simp at enough
  have whole' : w = [] ++ bytes ++ t := whole
  exact httpRead_readsOn regular whole' headWait_nil allocated_nil some_bytes small enough

theorem Past.add {w : List UInt8} {n : Nat} (past : Past w n) (k : Nat) : Past w (n + k) :=
  fun e dlen at_end limit => Nat.le_add_right_of_le (past e dlen at_end limit)

theorem Reading.read {w bytes t : List UInt8} {n : Nat} {req : HttpReq} (regular : Regular w)
    (reading : Reading w n (bytes ++ t) req) (some_bytes : 1 ≤ bytes.length)
    (small : bytes.length ≤ readSize) : ReadsOn w n bytes t (httpRead patient req bytes) := by
  have nonempty : bytes ≠ [] := by
    rintro rfl
    simp at some_bytes
  rcases reading with ⟨rbuf, size, rfl, whole, waits, enough, rfl, allocated⟩ | ⟨past, held⟩
  · have longer : 3 ≤ (rbuf ++ bytes).length := by
      rw [List.length_append]
      omega
    have whole' : w = rbuf ++ bytes ++ t := by rw [whole, List.append_assoc]
    exact httpRead_readsOn regular whole' waits allocated nonempty small longer
  · refine Or.inl ⟨past.not_fills, ?_⟩
    rcases held with waiting | gone
    · rcases waiting.read nonempty small with ⟨req', read, held⟩
      exact ⟨req', read, Or.inr ⟨past.add _, held⟩⟩
    · exact ⟨req, httpRead_over gone.1 bytes, Or.inr ⟨past.add _, Or.inr gone⟩⟩

theorem Reading.eof {w : List UInt8} {n : Nat} {req : HttpReq} (reading : Reading w n [] req) :
    ∃ req', httpRead patient req [] = .ok req' ∧ Over (meaning w) req' := by
  rcases reading with ⟨rbuf, size, rfl, whole, waits, -⟩ | ⟨-, waiting | gone⟩
  · rw [List.append_nil] at whole
    rcases accommodate_kept (atHead rbuf size) readSize 0 with ⟨size', skip, room⟩
    rw [httpRead, if_neg (by simp [httpGet]), room, List.append_nil]
    have parse : parseState patient { atHead rbuf size' with skip := skip } 0 =
        .ok (failed patient { atHead rbuf size' with skip := skip }) := rfl
    refine ⟨_, httpParse_last parse (by simp), Over.failed ?_⟩
    rw [meaning_of_long]
    · rfl
    · intro e dlen at_end
      simp only [headEnd, whole, waits.crlf, waits.lf] at at_end
      cases at_end
  · exact waiting.eof
  · exact ⟨req, httpRead_over gone.1 [], gone⟩

/-- None of these reads fills `rbuf` with the end of the head, `n` bytes being read before. -/
def RoomyFrom (w : List UInt8) : Nat → List (List UInt8) → Prop
  | _, [] => True
  | n, bytes :: reads => ¬Fills w n bytes.length ∧ RoomyFrom w (n + bytes.length) reads

/-- No read fills `rbuf` with the end of the head. -/
def Roomy (reads : List (List UInt8)) : Prop := RoomyFrom reads.flatten 0 reads

/-- What the reads up to the end of the file make of a request. -/
def ReadsTo (w : List UInt8) (n : Nat) (reads : List (List UInt8)) (ran : Except Fault HttpReq) :
    Prop :=
  (RoomyFrom w n reads ∧ ∃ req, ran = .ok req ∧ Over (meaning w) req) ∨
    (¬RoomyFrom w n reads ∧ ran = .error .stalePointer)

/-- One read, and the reads after it. -/
theorem ReadsOn.reads {w bytes : List UInt8} {n : Nat} {req : HttpReq}
    {reads : List (List UInt8)}
    (first : ReadsOn w n bytes reads.flatten (httpRead patient req bytes))
    (rest : ∀ req, Reading w (n + bytes.length) reads.flatten req →
      ReadsTo w (n + bytes.length) reads
        ((reads.map Event.read ++ [Event.read []]).foldlM (step patient) req)) :
    ReadsTo w n (bytes :: reads)
      (((bytes :: reads).map Event.read ++ [Event.read []]).foldlM (step patient) req) := by
  rw [List.map_cons, List.cons_append, List.foldlM_cons, step]
  rcases first with ⟨roomy, req', read, reading⟩ | ⟨fills, read⟩
  · rw [read]
    rcases rest req' reading with ⟨later, gone⟩ | ⟨later, ran⟩
    · exact Or.inl ⟨⟨roomy, later⟩, gone⟩
    · exact Or.inr ⟨fun all => later all.2, ran⟩
  · rw [read]
    exact Or.inr ⟨fun all => all.1 fills, rfl⟩

/-- The reads after the first. -/
theorem Reading.reads {w : List UInt8} (regular : Regular w) {n : Nat} {req : HttpReq}
    {reads : List (List UInt8)} (reading : Reading w n reads.flatten req)
    (sizes : ∀ bytes ∈ reads, 1 ≤ bytes.length ∧ bytes.length ≤ readSize) :
    ReadsTo w n reads
      ((reads.map Event.read ++ [Event.read []]).foldlM (step patient) req) := by
  induction reads generalizing n req with
  | nil =>
      rcases reading.eof with ⟨req', read, gone⟩
      refine Or.inl ⟨trivial, req', ?_, gone⟩
      rw [List.map_nil, List.nil_append, List.foldlM_cons, step, read]
      rfl
  | cons bytes reads ih =>
      have size := sizes bytes List.mem_cons_self
      rw [List.flatten_cons] at reading
      exact (reading.read regular size.1 size.2).reads fun req' reading' =>
        ih reading' fun b mem => sizes b (List.mem_cons_of_mem _ mem)

/-- The three bytes without which `memfind` leaves the buffer are in the first read. -/
def BeginsWith3 (reads : List (List UInt8)) : Prop := ∀ bytes ∈ reads.head?, 3 ≤ bytes.length

/-- However a regular stream is read, the callback is told what it says, unless a read fills
`rbuf` with the end of the head. -/
theorem response_meaning {w : List UInt8} (regular : Regular w) {reads : List (List UInt8)}
    (cut : Cut w reads) (begins : BeginsWith3 reads) :
    ReadsTo w 0 reads (response patient reads) := by
  rcases cut with ⟨flat, sizes⟩
  cases reads with
  | nil =>
      rw [List.flatten_nil] at flat
      subst flat
      have parse : parseState patient httpGet 0 = .ok (failed patient httpGet) := rfl
      have read : httpRead patient httpGet [] = .ok (failed patient httpGet).1 :=
        httpParse_last parse (by simp)
      have gone : Over (meaning []) (failed patient httpGet).1 := Over.failed rfl
      refine Or.inl ⟨trivial, _, ?_, gone⟩
      rw [response, run, List.map_nil, List.nil_append, List.foldlM_cons, step, read]
      rfl
  | cons bytes reads =>
      rw [List.flatten_cons] at flat
      have size := sizes bytes List.mem_cons_self
      exact (Reading.first regular flat.symm size.2 (begins bytes rfl)).reads fun req reading =>
        reading.reads regular fun b mem => sizes b (List.mem_cons_of_mem _ mem)

end Btpd.Http
