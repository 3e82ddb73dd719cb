import Btpd.Http.Stream

/-!
# The body, read in pieces

While the body is read, what the callback has been told and what the rest of the stream
says make up what the whole stream says.  Every round of `http_parse` keeps this, for
whatever part of the rest has come into the buffer.
-/

namespace Btpd.Http

open Text

/-- What the state of the parser takes for granted. -/
def StateOk (req : HttpReq) : Prop :=
  match req.pstate with
  | .head => False
  | .chunkSize => req.chunked = true
  | .chunkData => req.chunked = true ∧ 0 < req.length
  | .chunkCrlf => req.chunked = true ∧ req.length = 0
  | .idData => True

/-- The chunk-size lines that are still to come are regular. -/
def BodyRegular (req : HttpReq) (w : List UInt8) : Prop :=
  match req.pstate with
  | .chunkSize => ChunksRegular w
  | .chunkData => ∀ data rest, chunkRest req.length.toNat w = .next data rest → ChunksRegular rest
  | .chunkCrlf => ∀ data rest, chunkRest 0 w = .next data rest → ChunksRegular rest
  | _ => True

/-- A request in the middle of a body of which `w` is still to be parsed, and `out` is
what the callback will have been told in the end. -/
structure Live (out : Observed) (req : HttpReq) (w : List UInt8) : Prop where
  kept : req.freed = false ∧ req.cancel = false
  state : StateOk req
  promise : (observe req.told).complete (bodyOf req w) = out
  regular : BodyRegular req w

/-- The parser has nothing to do before the next read. -/
def Starved (req : HttpReq) : Prop :=
  match req.pstate with
  | .head => False
  | .chunkSize => req.rbuf.length < 20 ∧ search [lf] req.rbuf = none
  | .chunkData => req.rbuf = []
  | .chunkCrlf => req.rbuf.length < 2
  | .idData => req.rbuf = [] ∨ req.length = 0

/-- The request is over, and the callback has been told this. -/
def Over (out : Observed) (req : HttpReq) : Prop :=
  req.freed = true ∧ observe req.told = out

/-- What one round leaves, `t` being what has not been read. -/
def Outcome (out : Observed) (t : List UInt8) : HttpReq × Next → Prop
  | (req, .again) => Live out req (req.rbuf ++ t)
  | (req, .wait) => Live out req (req.rbuf ++ t) ∧ Starved req
  | (req, .stop) => Over out req

@[simp]
theorem cb_patient_cancel (req : HttpReq) (res : HttpResponse) :
    (req.cb patient res).cancel = req.cancel := by
  simp [HttpReq.cb, patient]

@[simp]
theorem cb_told (callback : Callback) (req : HttpReq) (res : HttpResponse) :
    (req.cb callback res).told = req.told ++ [res] :=
  rfl

theorem Over.failed {out : Observed} {req : HttpReq} (seen : (observe req.told).add .err = out) :
    Over out (failed patient req).1 :=
  ⟨rfl, by simpa [Http.failed, httpError, httpFree] using seen⟩

theorem Over.finished {out : Observed} {req : HttpReq} (seen : (observe req.told).add .done = out) :
    Over out (finished patient req).1 :=
  ⟨rfl, by simpa [Http.finished, httpFree] using seen⟩

theorem Observed.complete_err (seen : Observed) : seen.complete ⟨[], .err⟩ = seen.add .err := by
  simp [Observed.complete, Observed.add]

theorem Observed.complete_done (seen : Observed) : seen.complete ⟨[], .done⟩ = seen.add .done := by
  simp [Observed.complete, Observed.add]

/-! ## Chunk sizes -/

/-- The end of a chunk-size line that is not in the buffer is not before its end. -/
theorem firstChunk_of_long {rbuf t : List UInt8} (missing : search [lf] rbuf = none)
    (long : 20 ≤ rbuf.length) : firstChunk (rbuf ++ t) = .last ⟨[], .err⟩ := by
  simp only [firstChunk, chunkLine]
  cases found : search [lf] (rbuf ++ t) with
  | none => rfl
  | some e =>
      have late := lt_of_search_append missing found
      have inside := (search_le found).resolve_right (by simp)
      simp only [List.length_cons, List.length_nil] at late inside
      simp only [Option.map_some, List.length_take]
      rw [if_pos (by omega)]

/-- What `strtol` sees of a regular line is what stands in it. -/
theorem strtol_buffer {rbuf : List UInt8} {e : Nat} (found : search [lf] rbuf = some e)
    (full : (rbuf.take e).dropWhile isspace ≠ []) :
    strtol 16 rbuf = strtol 16 (rbuf.take e ++ [lf]) := by
  have split : rbuf = rbuf.take e ++ lf :: rbuf.drop (e + 1) :=
    chunkLine_length (by simp [chunkLine, found])
  rw [congrArg (strtol 16) split]
  exact strtol_line 16 full _

theorem BodyRegular.next {w line rest : List UInt8} {n : Nat} (regular : ChunksRegular w)
    (at_line : chunkLine w = some (line, rest)) (short : line.length < 20)
    (size : chunkSize line = some (n + 1)) (data behind : List UInt8)
    (chunk : chunkRest (n + 1) rest = .next data behind) : ChunksRegular behind := by
  have here : firstChunk w = .next data behind := by
    rw [firstChunk_line at_line short, size]
    exact chunk
  have earlier : ∀ v, ChunkAt behind v → ChunkAt w v := by
    intro v reached
    induction reached with
    | first => exact .next .first here
    | next _ chunk' ih => exact .next ih chunk'
  exact fun v line' rest' reached => regular v line' rest' (earlier v reached)

theorem parseChunkSize_outcome {out : Observed} {req : HttpReq} {t : List UInt8} {len : Nat}
    (live : Live out req (req.rbuf ++ t)) (state : req.pstate = .chunkSize)
    (fits : req.rbuf.length < 20 + readSize) (some_bytes : len ≠ 0) :
    ∃ next, parseChunkSize patient req len = .ok next ∧ Outcome out t next := by
  have chunked_req : req.chunked = true := by
    have := live.state
    rwa [StateOk, state] at this
  have regular : ChunksRegular (req.rbuf ++ t) := by
    have := live.regular
    rwa [BodyRegular, state] at this
  have promise : (observe req.told).complete (firstChunk (req.rbuf ++ t)).body = out := by
    have := live.promise
    rwa [bodyOf, state, chunked_eq] at this
  have memory : memfind [lf] req.rbuf = .ok (search [lf] req.rbuf) := by simp [memfind]
  simp only [parseChunkSize, chunked_req, Bool.not_true, Bool.false_eq_true, if_false,
    if_neg some_bytes, memory]
  cases found : search [lf] req.rbuf with
  | none =>
      by_cases short : req.rbuf.length < 20
      · rw [if_pos short]
        exact ⟨_, rfl, live, by rw [Starved, state]; exact ⟨short, found⟩⟩
      · rw [if_neg short]
        rw [firstChunk_of_long found (by omega)] at promise
        exact ⟨_, rfl, Over.failed (by rw [← Observed.complete_err]; exact promise)⟩
  | some e =>
      have inside : e + 1 ≤ req.rbuf.length := (search_le found).resolve_right (by simp)
      have longer : search [lf] (req.rbuf ++ t) = some e := search_append found (by simp) t
      have at_line : chunkLine (req.rbuf ++ t) =
          some (req.rbuf.take e, req.rbuf.drop (e + 1) ++ t) := by
        simp only [chunkLine, longer, Option.map_some, List.drop_append_of_le_length inside,
          List.take_append_of_le_length (show e ≤ req.rbuf.length by omega)]
      have size : (req.rbuf.take e).length = e := by
        rw [List.length_take]
        omega
      have short : e < 20 ∧ (req.rbuf.take e).dropWhile isspace ≠ [] := by
        rcases regular _ _ _ .first at_line with short | long
        · rwa [size] at short
        · simp only [readSize] at long fits
          omega
      have same := strtol_buffer found short.2
      have body := firstChunk_line at_line (by omega)
      simp only [same]
      cases number : strtol 16 (req.rbuf.take e ++ [lf]) with
      | none => exact absurd number (strtol_line_ne_none 16 short.2)
      | some number' =>
          by_cases wrong : number'.value < 0 || !number'.converted || number'.erange
          · have none_there : chunkSize (req.rbuf.take e) = none := by
              simp only [chunkSize, number, if_pos wrong]
            rw [body, none_there] at promise
            simp only [if_pos wrong]
            exact ⟨_, rfl, Over.failed (by rw [← Observed.complete_err]; exact promise)⟩
          · have there : chunkSize (req.rbuf.take e) = some number'.value.toNat := by
              simp only [chunkSize, number, if_neg wrong]
            have nonneg : 0 ≤ number'.value := by
              by_contra negative
              exact wrong (by simp [show number'.value < 0 by omega])
            simp only [if_neg wrong]
            by_cases zero : number'.value = 0
            · rw [body, there, zero] at promise
              simp only [if_pos zero]
              exact ⟨_, rfl, Over.finished (by rw [← Observed.complete_done]; exact promise)⟩
            · have positive : ∃ n, number'.value.toNat = n + 1 := ⟨number'.value.toNat - 1, by omega⟩
              rcases positive with ⟨n, positive⟩
              rw [positive] at there
              rw [body, there] at promise
              simp only [if_neg zero]
              refine ⟨_, rfl, live.kept, ⟨rfl, by simp only; omega⟩, ?_, ?_⟩
              · simp only [bodyOf, positive]
                exact promise
              · intro data behind chunk
                simp only [positive] at chunk
                exact BodyRegular.next regular at_line (by omega) there data behind chunk

/-! ## Data -/

/-- Some of the data of a chunk, and then the rest of it. -/
theorem chunkRest_add (k m : Nat) {w : List UInt8} (enough : k ≤ w.length) :
    (chunkRest (k + m) w).body = (chunkRest m (w.drop k)).body.after (w.take k) ∧
      ∀ data rest, chunkRest m (w.drop k) = .next data rest →
        chunkRest (k + m) w = .next (w.take k ++ data) rest := by
  have length : (w.drop k).length < m ↔ w.length < k + m := by
    rw [List.length_drop]
    omega
  have front : w.take (k + m) = w.take k ++ (w.drop k).take m := List.take_add
  simp only [chunkRest, List.drop_drop, front]
  by_cases short : w.length < k + m
  · rw [if_pos short, if_pos (length.mpr short)]
    constructor
    · simp [Chunk.body, Body.after]
    · intro data rest found
      cases found
  · rw [if_neg short, if_neg (fun h => short (length.mp h))]
    cases afterChunk (w.drop (k + m)) with
    | none =>
        constructor
        · simp [Chunk.body, Body.after]
        · intro data rest found
          cases found
    | some rest =>
        constructor
        · simp [Chunk.body, Body.after]
        · intro data rest' found
          cases found
          rfl

theorem parseChunkData_outcome {out : Observed} {req : HttpReq} {t : List UInt8} {len : Nat}
    (live : Live out req (req.rbuf ++ t)) (state : req.pstate = .chunkData)
    (some_bytes : len ≠ 0) :
    ∃ next, parseChunkData patient req len = .ok next ∧ Outcome out t next := by
  have flags : req.chunked = true ∧ 0 < req.length := by
    have := live.state
    rwa [StateOk, state] at this
  have promise : (observe req.told).complete (chunkRest req.length.toNat (req.rbuf ++ t)).body = out := by
    have := live.promise
    rwa [bodyOf, state] at this
  have regular : ∀ data rest, chunkRest req.length.toNat (req.rbuf ++ t) = .next data rest →
      ChunksRegular rest := by
    have := live.regular
    rwa [BodyRegular, state] at this
  simp only [parseChunkData, if_neg some_bytes, if_neg (show ¬ req.length ≤ 0 by omega)]
  by_cases empty : req.rbuf = []
  · rw [if_pos (by simp [empty])]
    exact ⟨_, rfl, live, by rw [Starved, state]; exact empty⟩
  · have some_data : 0 < req.rbuf.length := List.length_pos_iff.mpr empty
    rw [if_neg (by omega), if_neg (by simp [live.kept.2])]
    by_cases all : req.length.toNat ≤ req.rbuf.length
    · have dlen : min req.rbuf.length req.length.toNat = req.length.toNat := by omega
      have rest : req.length - (req.length.toNat : Int) = 0 := by omega
      have split := chunkRest_add req.length.toNat 0 (w := req.rbuf ++ t)
        (by rw [List.length_append]; omega)
      rw [Nat.add_zero, List.drop_append_of_le_length all, List.take_append_of_le_length all]
        at split
      simp only [dlen, rest, if_true]
      refine ⟨_, rfl, ⟨live.kept.1, by simp [live.kept.2]⟩, ⟨flags.1, rfl⟩, ?_, ?_⟩
      · simp only [bodyOf, cb_told, observe_append, Observed.complete_after]
        rw [← split.1]
        exact promise
      · intro data behind chunk
        exact regular _ _ (split.2 data behind chunk)
    · have dlen : min req.rbuf.length req.length.toNat = req.rbuf.length := by omega
      have rest : req.length - (req.rbuf.length : Int) ≠ 0 := by omega
      have left : (req.length - (req.rbuf.length : Int)).toNat =
          req.length.toNat - req.rbuf.length := by omega
      have split := chunkRest_add req.rbuf.length (req.length.toNat - req.rbuf.length)
        (w := req.rbuf ++ t) (by rw [List.length_append]; omega)
      rw [Nat.add_sub_cancel' (by omega), List.drop_left, List.take_left] at split
      simp only [dlen, if_neg rest, List.drop_length, List.take_length]
      refine ⟨_, rfl, ⟨⟨live.kept.1, by simp [live.kept.2]⟩, ?_, ?_, ?_⟩, ?_⟩
      · have : (req.cb patient (.data req.rbuf)).pstate = .chunkData := state
        simp only [StateOk, this]
        exact ⟨flags.1, by omega⟩
      · have : (req.cb patient (.data req.rbuf)).pstate = .chunkData := state
        simp only [bodyOf, this, cb_told, observe_append, Observed.complete_after, left,
          List.nil_append]
        rw [← split.1]
        exact promise
      · have : (req.cb patient (.data req.rbuf)).pstate = .chunkData := state
        simp only [BodyRegular, this, left, List.nil_append]
        exact fun data behind chunk => regular _ _ (split.2 data behind chunk)
      · have : (req.cb patient (.data req.rbuf)).pstate = .chunkData := state
        simp only [Starved, this]

theorem parseChunkCrlf_outcome {out : Observed} {req : HttpReq} {t : List UInt8} {len : Nat}
    (live : Live out req (req.rbuf ++ t)) (state : req.pstate = .chunkCrlf)
    (some_bytes : len ≠ 0) :
    ∃ next, parseChunkCrlf patient req len = .ok next ∧ Outcome out t next := by
  have flags : req.chunked = true ∧ req.length = 0 := by
    have := live.state
    rwa [StateOk, state] at this
  have promise : (observe req.told).complete (chunkRest 0 (req.rbuf ++ t)).body = out := by
    have := live.promise
    rwa [bodyOf, state] at this
  have regular : ∀ data rest, chunkRest 0 (req.rbuf ++ t) = .next data rest →
      ChunksRegular rest := by
    have := live.regular
    rwa [BodyRegular, state] at this
  simp only [parseChunkCrlf, if_neg some_bytes, if_neg (show ¬ req.length ≠ 0 by simp [flags.2])]
  rcases bytes : req.rbuf with _ | ⟨c, _ | ⟨d, rest⟩⟩
  · exact ⟨_, rfl, live, by rw [Starved, state]; simp [bytes]⟩
  · exact ⟨_, rfl, live, by rw [Starved, state]; simp [bytes]⟩
  · rw [bytes] at promise regular
    have here : ∀ rest', afterChunk (c :: d :: rest ++ t) = some rest' →
        chunkRest 0 (c :: d :: rest ++ t) = .next [] rest' := by
      intro rest' found
      simp only [chunkRest, List.drop_zero, found]
      rfl
    by_cases crlf : c = cr ∧ d = lf
    · have chunk := here (rest ++ t) (by simp [afterChunk, crlf])
      rw [chunk] at promise
      simp only [if_pos crlf]
      exact ⟨_, rfl, live.kept, flags.1, promise, regular _ _ chunk⟩
    · by_cases isLf : c = lf
      · have chunk := here (d :: rest ++ t) (by simp [afterChunk, isLf, show lf ≠ cr by decide])
        rw [chunk] at promise
        simp only [if_neg crlf, if_pos isLf]
        exact ⟨_, rfl, live.kept, flags.1, promise, regular _ _ chunk⟩
      · have chunk : chunkRest 0 (c :: d :: rest ++ t) = .last ⟨[], .err⟩ := by
          simp [chunkRest, afterChunk, crlf, isLf]
        rw [chunk] at promise
        simp only [if_neg crlf, if_neg isLf]
        exact ⟨_, rfl, Over.failed (by rw [← Observed.complete_err]; exact promise)⟩

/-- Some of a plain body, and then the rest of it. -/
theorem plain_add {length : Int} {k : Nat} {w : List UInt8} (more : (k : Int) < length)
    (enough : k ≤ w.length) :
    plain length w = (plain (length - k) (w.drop k)).after (w.take k) := by
  have shorter : (length - k).toNat = length.toNat - k := by omega
  have front : w.take length.toNat = w.take k ++ (w.drop k).take (length.toNat - k) := by
    rw [← List.take_add, Nat.add_sub_cancel' (by omega)]
  simp only [plain, shorter, if_neg (show ¬ length < 0 by omega), if_neg (show ¬ length = 0 by omega),
    if_neg (show ¬ length - k < 0 by omega), if_neg (show ¬ length - k = 0 by omega),
    List.length_drop]
  by_cases short : w.length < length.toNat
  · rw [if_pos short, if_pos (by omega)]
    simp [Body.after]
  · rw [if_neg short, if_neg (by omega), front]
    rfl

theorem parseIdData_outcome {out : Observed} {req : HttpReq} {t : List UInt8} {len : Nat}
    (live : Live out req (req.rbuf ++ t)) (state : req.pstate = .idData) (some_bytes : len ≠ 0) :
    Outcome out t (parseIdData patient req len) := by
  have promise : (observe req.told).complete (plain req.length (req.rbuf ++ t)) = out := by
    have := live.promise
    rwa [bodyOf, state] at this
  have waits : ∀ told : HttpReq, told.pstate = .idData → told.freed = false → told.cancel = false →
      told.rbuf = [] ∨ told.length = 0 →
      (observe told.told).complete (plain told.length (told.rbuf ++ t)) = out →
      Outcome out t (told, .wait) := by
    intro told state' kept going starved promise'
    refine ⟨⟨⟨kept, going⟩, ?_, ?_, ?_⟩, ?_⟩
    · rw [StateOk, state']
      trivial
    · rw [bodyOf, state']
      exact promise'
    · rw [BodyRegular, state']
      trivial
    · rw [Starved, state']
      exact starved
  rw [parseIdData, if_neg some_bytes]
  by_cases endless : req.length < 0
  · rw [if_pos endless, idData]
    by_cases empty : req.rbuf = []
    · rw [if_pos (by simp [empty])]
      exact waits req state live.kept.1 live.kept.2 (Or.inl empty) promise
    · rw [if_neg (by simpa using empty), if_neg (by simp [live.kept.2]),
        if_neg (by omega), List.take_length, List.drop_length]
      apply waits
      · exact state
      · exact live.kept.1
      · simp [live.kept.2]
      · exact Or.inl rfl
      · simp only [cb_told, observe_append, Observed.complete_after, List.nil_append]
        simp only [plain, if_pos endless] at promise
        have length : (req.cb patient (.data req.rbuf)).length = req.length := rfl
        rw [length, plain, if_pos endless]
        exact promise
  · rw [if_neg endless, idData]
    by_cases zero : min req.rbuf.length req.length.toNat = 0
    · rw [if_pos zero]
      have starved : req.rbuf = [] ∨ req.length = 0 := by
        by_cases empty : req.rbuf = []
        · exact Or.inl empty
        · have := List.length_pos_iff.mpr empty
          exact Or.inr (by omega)
      exact waits req state live.kept.1 live.kept.2 starved promise
    · rw [if_neg zero, if_neg (by simp [live.kept.2]), if_pos (by omega)]
      by_cases all : req.length.toNat ≤ req.rbuf.length
      · have dlen : min req.rbuf.length req.length.toNat = req.length.toNat := by omega
        have rest : req.length - (req.length.toNat : Int) = 0 := by omega
        simp only [dlen, rest, if_true]
        have whole : plain req.length (req.rbuf ++ t) = ⟨req.rbuf.take req.length.toNat, .done⟩ := by
          rw [plain, if_neg endless, if_neg (by omega),
            if_neg (by rw [List.length_append]; omega), List.take_append_of_le_length all]
        rw [whole] at promise
        apply Over.finished
        simp only [cb_told, observe_append]
        rw [← promise]
        simp [Observed.complete, Observed.add]
      · have dlen : min req.rbuf.length req.length.toNat = req.rbuf.length := by omega
        have rest : req.length - (req.rbuf.length : Int) ≠ 0 := by omega
        simp only [dlen, if_neg rest, List.take_length, List.drop_length]
        apply waits
        · exact state
        · exact live.kept.1
        · simp [live.kept.2]
        · exact Or.inl rfl
        · simp only [cb_told, observe_append, Observed.complete_after, List.nil_append]
          have split : plain req.length (req.rbuf ++ t) = _ := plain_add (k := req.rbuf.length)
            (by omega) (by rw [List.length_append]; omega)
          rw [List.drop_left, List.take_left] at split
          rw [← promise, split]

end Btpd.Http
