import Btpd.Http.Cuts

/-!
# One last word

Whatever the stream, the reads and the callback are, a response that does not end the
program ends in one `HTTP_T_ERR` or `HTTP_T_DONE`, or the callback has cancelled it,
and after that nothing is told any more.
-/

namespace Btpd.Http

open Text

/-- The response is over with this. -/
def HttpResponse.terminal : HttpResponse → Bool
  | .err => true
  | .done => true
  | _ => false

/-- No last word has been said. -/
def Quiet (told : List HttpResponse) : Prop := ∀ res ∈ told, res.terminal = false

/-- The last word, and no other, is a last word. -/
def EndsOnce (told : List HttpResponse) : Prop :=
  ∃ front res, told = front ++ [res] ∧ Quiet front ∧ res.terminal = true

/-- The request is being parsed. -/
structure Open (req : HttpReq) : Prop where
  kept : req.freed = false
  going : req.cancel = false
  quiet : Quiet req.told

/-- The request is over: it has its last word, or the callback has cancelled it when it
was told the last of this. -/
structure Closed (callback : Callback) (req : HttpReq) : Prop where
  freed : req.freed = true
  told : EndsOnce req.told ∨ (Quiet req.told ∧ callback req.told = true)

section Parse

variable {callback : Callback} {req req' : HttpReq} {len : Nat} {next : Next}

theorem Quiet.append {told : List HttpResponse} (quiet : Quiet told) {res : HttpResponse}
    (more : res.terminal = false) : Quiet (told ++ [res]) := by
  intro r mem
  rcases List.mem_append.mp mem with before | last
  · exact quiet r before
  · rw [List.mem_singleton.mp last]
    exact more

theorem Closed.failed (quiet : Quiet req.told) : Closed callback (failed callback req).1 :=
  ⟨rfl, Or.inl ⟨req.told, .err, rfl, quiet, rfl⟩⟩

theorem Closed.finished (quiet : Quiet req.told) : Closed callback (finished callback req).1 :=
  ⟨rfl, Or.inl ⟨req.told, .done, rfl, quiet, rfl⟩⟩

/-- What a round of `http_parse` leaves. -/
def Follows (callback : Callback) : HttpReq × Next → Prop
  | (req, .stop) => Closed callback req
  | (req, _) => Open req

/-- The callback is told something that is not a last word: it may cancel now. -/
theorem Open.cb (before : Open req) {res : HttpResponse} (more : res.terminal = false)
    (go : (req.cb callback res).cancel = false) : Open (req.cb callback res) :=
  ⟨before.kept, go, before.quiet.append more⟩

/-- If the request is cancelled now, it is because of what the callback was told now. -/
theorem Open.cb_cancelled (before : Open req) {res : HttpResponse}
    (cancelled : (req.cb callback res).cancel = true) :
    callback (req.cb callback res).told = true := by
  simpa only [HttpReq.cb, before.going, Bool.false_or] using cancelled

theorem noteHeader_told (req : HttpReq) (name value : List UInt8) :
    (noteHeader req name value).told = req.told ∧ (noteHeader req name value).freed = req.freed ∧
      (noteHeader req name value).cancel = req.cancel := by
  simp only [noteHeader]
  split <;> exact ⟨rfl, rfl, rfl⟩

/-- What `headers_parse` leaves: the callback may have cancelled. -/
structure Parsed (callback : Callback) (req : HttpReq) : Prop where
  quiet : Quiet req.told
  kept : req.freed = false
  cancelled : req.cancel = true → callback req.told = true

theorem Open.parsed (before : Open req) : Parsed callback req :=
  ⟨before.quiet, before.kept, fun cancelled => by simp [before.going] at cancelled⟩

theorem headerLines_open (left : Nat) (cur : List UInt8) (before : Open req) :
    Parsed callback (headerLines callback left req cur).1 := by
  fun_induction headerLines callback left req cur with
  | case1 => exact before.parsed
  | case2 => exact before.parsed
  | case3 =>
      exact ⟨before.quiet.append rfl, before.kept, fun cancelled => before.cb_cancelled cancelled⟩
  | case4 req cur outside text rest found colon name value req' go ih =>
      have noted := noteHeader_told req' name (trim value.1)
      have told := before.cb rfl (Bool.eq_false_iff.mpr go)
      refine ih ⟨?_, ?_, ?_⟩
      · rw [noted.2.1]
        exact told.kept
      · rw [noted.2.2]
        exact told.going
      · rw [noted.1]
        exact told.quiet
  | case5 => exact before.parsed

theorem headersRest_open {buf : List UInt8} {e : Option Nat} {ok : Bool}
    (before : Parsed callback req)
    (parsed : headersRest callback req buf e = .ok (req', ok)) : Parsed callback req' := by
  simp only [headersRest] at parsed
  split at parsed
  · cases parsed
    exact before
  · rename_i go
    have before : Open req := ⟨before.kept, Bool.eq_false_iff.mpr go, before.quiet⟩
    split at parsed
    · cases parsed
    · rename_i nl _
      cases e with
      | none => cases parsed
      | some e =>
          have lines : Parsed callback _ := headerLines_open (buf.length - e) (nl.drop 1) before
          simp only at parsed
          split at parsed
          · cases parsed
            exact ⟨lines.quiet, lines.kept, lines.cancelled⟩
          · rw [Except.ok.injEq] at parsed
            rw [parsed] at lines
            exact lines

theorem headersParse_open {buf : List UInt8} {e : Option Nat} {ok : Bool} (before : Open req)
    (parsed : headersParse callback req buf e = .ok (req', ok)) : Parsed callback req' := by
  simp only [headersParse] at parsed
  split at parsed
  · refine headersRest_open ?_ parsed
    refine ⟨before.quiet.append rfl, before.kept, fun cancelled => ?_⟩
    simpa only [HttpReq.cb, before.going, Bool.false_or] using cancelled
  · cases parsed
    exact ⟨before.quiet, before.kept, fun cancelled => by simp [before.going] at cancelled⟩

theorem Open.accommodate (before : Open req) (count p : Nat) :
    Open (req.accommodate count p).1 := by
  rcases accommodate_kept req count p with ⟨size, skip, room⟩
  rw [room]
  exact ⟨before.kept, before.going, before.quiet⟩

theorem headFound_follows {e dlen : Nat} {left : HttpReq × Next} (before : Open req)
    (parsed : headFound callback req e dlen = .ok left) : Follows callback left := by
  simp only [headFound] at parsed
  split at parsed
  · cases parsed
  · rename_i req₁ ok head
    have after := headersParse_open (before.accommodate 1 e) head
    split at parsed
    · cases parsed
      exact Closed.failed after.quiet
    · split at parsed
      · rename_i cancelled
        cases parsed
        exact ⟨rfl, Or.inr ⟨after.quiet, after.cancelled cancelled⟩⟩
      · rename_i go
        cases parsed
        exact ⟨after.kept, Bool.eq_false_iff.mpr go, after.quiet⟩

theorem parseHead_follows {left : HttpReq × Next} (before : Open req)
    (parsed : parseHead callback req len = .ok left) : Follows callback left := by
  simp only [parseHead] at parsed
  split at parsed
  · cases parsed
    exact Closed.failed before.quiet
  · split at parsed
    · cases parsed
    · exact headFound_follows before parsed
    · split at parsed
      · cases parsed
      · exact headFound_follows before parsed
      · split at parsed
        · cases parsed
          exact before
        · cases parsed
          exact Closed.failed before.quiet

theorem parseChunkSize_follows {left : HttpReq × Next} (before : Open req)
    (parsed : parseChunkSize callback req len = .ok left) : Follows callback left := by
  simp only [parseChunkSize] at parsed
  split at parsed
  · cases parsed
  · split at parsed
    · cases parsed
      exact Closed.failed before.quiet
    · split at parsed
      · cases parsed
      · split at parsed
        · cases parsed
          exact before
        · cases parsed
          exact Closed.failed before.quiet
      · split at parsed
        · cases parsed
        · split at parsed
          · cases parsed
            exact Closed.failed before.quiet
          · split at parsed
            · cases parsed
              exact Closed.finished before.quiet
            · cases parsed
              exact ⟨before.kept, before.going, before.quiet⟩

theorem parseChunkData_follows {left : HttpReq × Next} (before : Open req)
    (parsed : parseChunkData callback req len = .ok left) : Follows callback left := by
  simp only [parseChunkData] at parsed
  split at parsed
  · cases parsed
    exact Closed.failed before.quiet
  · split at parsed
    · cases parsed
    · split at parsed
      · cases parsed
        exact before
      · split at parsed
        · rename_i cancelled
          cases parsed
          exact ⟨rfl, Or.inr ⟨before.quiet.append rfl, before.cb_cancelled cancelled⟩⟩
        · rename_i go
          split at parsed
          · cases parsed
            exact ⟨before.kept, Bool.eq_false_iff.mpr go, before.quiet.append rfl⟩
          · cases parsed
            exact ⟨before.kept, Bool.eq_false_iff.mpr go, before.quiet.append rfl⟩

theorem parseChunkCrlf_follows {left : HttpReq × Next} (before : Open req)
    (parsed : parseChunkCrlf callback req len = .ok left) : Follows callback left := by
  simp only [parseChunkCrlf] at parsed
  split at parsed
  · cases parsed
    exact Closed.failed before.quiet
  · split at parsed
    · cases parsed
    · split at parsed
      · split at parsed
        · cases parsed
          exact ⟨before.kept, before.going, before.quiet⟩
        · split at parsed
          · cases parsed
            exact ⟨before.kept, before.going, before.quiet⟩
          · cases parsed
            exact Closed.failed before.quiet
      · cases parsed
        exact before

theorem idData_follows (dlen : Nat) (before : Open req) :
    Follows callback (idData callback req dlen) := by
  simp only [idData]
  split
  · exact before
  · split
    · rename_i cancelled
      exact ⟨rfl, Or.inr ⟨before.quiet.append rfl, before.cb_cancelled cancelled⟩⟩
    · rename_i go
      have told : Open (req.cb callback (.data (req.rbuf.take dlen))) :=
        before.cb rfl (Bool.eq_false_iff.mpr go)
      split
      · split
        · exact Closed.finished told.quiet
        · exact ⟨told.kept, told.going, told.quiet⟩
      · exact ⟨told.kept, told.going, told.quiet⟩

theorem parseState_follows {left : HttpReq × Next} (before : Open req)
    (parsed : parseState callback req len = .ok left) : Follows callback left := by
  simp only [parseState] at parsed
  split at parsed
  · exact parseHead_follows before parsed
  · exact parseChunkSize_follows before parsed
  · exact parseChunkData_follows before parsed
  · exact parseChunkCrlf_follows before parsed
  · cases parsed
    simp only [parseIdData]
    split
    · split
      · exact Closed.finished before.quiet
      · exact Closed.failed before.quiet
    · split <;> exact idData_follows _ before

/-- At the end of the file the parser does not wait. -/
theorem parseState_eof (parsed : parseState callback req 0 = .ok (req', next)) :
    next = .stop := by
  simp only [parseState, parseHead, parseChunkSize, parseChunkData, parseChunkCrlf, parseIdData,
    if_true] at parsed
  have shape : ∀ {p : HttpReq × Next}, p.2 = .stop →
      (.ok p : Except Fault (HttpReq × Next)) = .ok (req', next) → next = .stop := by
    intro p stop same
    rw [Except.ok.injEq] at same
    rw [← stop, same]
  split at parsed
  · exact shape rfl parsed
  · split at parsed
    · cases parsed
    · exact shape rfl parsed
  · exact shape rfl parsed
  · exact shape rfl parsed
  · split at parsed
    · exact shape rfl parsed
    · exact shape rfl parsed

theorem httpParse_follows (before : Open req) (parsed : httpParse callback len req = .ok req') :
    (Open req' ∧ len ≠ 0) ∨ Closed callback req' := by
  fun_induction httpParse callback len req with
  | case1 => cases parsed
  | case2 req req₁ again ih => exact ih (parseState_follows before again) parsed
  | case3 req req₁ wait =>
      cases parsed
      refine Or.inl ⟨parseState_follows before wait, ?_⟩
      rintro rfl
      cases parseState_eof wait
  | case4 req req₁ stop =>
      cases parsed
      exact Or.inr (parseState_follows before stop)

end Parse

/-! ## Runs -/

variable {callback : Callback} {req req' : HttpReq}

theorem httpRead_follows {bytes : List UInt8} (before : Open req)
    (read : httpRead callback req bytes = .ok req') :
    (Open req' ∧ bytes ≠ []) ∨ Closed callback req' := by
  rw [httpRead, if_neg (by simp [before.kept])] at read
  have room := before.accommodate readSize 0
  have opened : Open { (req.accommodate readSize 0).1 with rbuf := req.rbuf ++ bytes } :=
    ⟨room.kept, room.going, room.quiet⟩
  rcases httpParse_follows opened read with ⟨live, some_bytes⟩ | closed
  · exact Or.inl ⟨live, by simpa using some_bytes⟩
  · exact Or.inr closed

/-- A last word is the last of what is told, and after it the request is gone. -/
def OneLastWord (req : HttpReq) : Prop :=
  Quiet req.told ∨ (req.freed = true ∧ EndsOnce req.told)

theorem step_spoken {event : Event} (before : Open req ∨ (req.freed = true ∧ OneLastWord req))
    (stepped : step callback req event = .ok req') :
    Open req' ∨ (req'.freed = true ∧ OneLastWord req') := by
  cases event with
  | read bytes =>
      have read : httpRead callback req bytes = .ok req' := stepped
      rcases before with live | ⟨freed, said⟩
      · rcases httpRead_follows live read with ⟨live', -⟩ | closed
        · exact Or.inl live'
        · refine Or.inr ⟨closed.freed, ?_⟩
          rcases closed.told with once | ⟨quiet, -⟩
          · exact Or.inr ⟨closed.freed, once⟩
          · exact Or.inl quiet
      · rw [httpRead_over freed] at read
        cases read
        exact Or.inr ⟨freed, said⟩
  | cancel =>
      cases stepped
      rcases before with live | ⟨freed, quiet | once⟩
      · exact Or.inr ⟨rfl, Or.inl live.quiet⟩
      · exact Or.inr ⟨rfl, Or.inl quiet⟩
      · exact Or.inr ⟨rfl, Or.inr ⟨rfl, once.2⟩⟩

/-- In every run of reads and cancellations there is at most one last word, and nothing
after it. -/
theorem run_spoken {events : List Event} (ran : run callback events = .ok req) :
    OneLastWord req := by
  have start : Open httpGet := ⟨rfl, rfl, fun _ mem => by cases mem⟩
  have all : ∀ (events : List Event) (req req' : HttpReq),
      Open req ∨ (req.freed = true ∧ OneLastWord req) →
        events.foldlM (step callback) req = .ok req' →
          Open req' ∨ (req'.freed = true ∧ OneLastWord req') := by
    intro events
    induction events with
    | nil =>
        intro req req' before ran
        cases ran
        exact before
    | cons event events ih =>
        intro req req' before ran
        rw [List.foldlM_cons] at ran
        cases stepped : step callback req event with
        | error fault =>
            rw [stepped] at ran
            cases ran
        | ok req₁ =>
            rw [stepped] at ran
            exact ih req₁ req' (step_spoken before stepped) ran
  rcases all events httpGet req (Or.inl start) ran with live | ⟨-, said⟩
  · exact Or.inl live.quiet
  · exact said

/-- A response that is read to its end has exactly one last word, unless the callback has
cancelled the request at the last that it was told. -/
theorem response_spoken {reads : List (List UInt8)} (ran : response callback reads = .ok req) :
    EndsOnce req.told ∨ (Quiet req.told ∧ callback req.told = true) := by
  have start : Open httpGet := ⟨rfl, rfl, fun _ mem => by cases mem⟩
  have all : ∀ (reads : List (List UInt8)) (req req' : HttpReq), Open req ∨ Closed callback req →
      (reads.map Event.read ++ [Event.read []]).foldlM (step callback) req = .ok req' →
        Closed callback req' := by
    intro reads
    induction reads with
    | nil =>
        intro req req' before ran
        rw [List.map_nil, List.nil_append, List.foldlM_cons] at ran
        cases stepped : step callback req (.read []) with
        | error fault =>
            rw [stepped] at ran
            cases ran
        | ok req₁ =>
            rw [stepped] at ran
            cases ran
            have read : httpRead callback req [] = .ok req' := stepped
            rcases before with live | closed
            · rcases httpRead_follows live read with ⟨-, more⟩ | closed
              · exact absurd rfl more
              · exact closed
            · rw [httpRead_over closed.freed] at read
              cases read
              exact closed
    | cons bytes reads ih =>
        intro req req' before ran
        rw [List.map_cons, List.cons_append, List.foldlM_cons] at ran
        cases stepped : step callback req (.read bytes) with
        | error fault =>
            rw [stepped] at ran
            cases ran
        | ok req₁ =>
            rw [stepped] at ran
            have read : httpRead callback req bytes = .ok req₁ := stepped
            refine ih req₁ req' ?_ ran
            rcases before with live | closed
            · rcases httpRead_follows live read with ⟨live', -⟩ | closed
              · exact Or.inl live'
              · exact Or.inr closed
            · rw [httpRead_over closed.freed] at read
              cases read
              exact Or.inr closed
  exact (all reads httpGet req (Or.inl start) ran).told

end Btpd.Http
