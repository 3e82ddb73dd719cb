import Btpd.Http.Framing

/-!
# Delivery

The bytes of a well-formed response are regular, so that all reads that do not fill
`rbuf` with the end of the head give its callback what the bytes say.  That is the body
and `HTTP_T_DONE`, but for a body of length 0, which is waited for until the file ends,
and for lengths that are not read right.
-/

namespace Btpd.Http

open Text

/-! ## The head -/

theorem StatusLine.text_oneLine (status : StatusLine) : status.text ≠ [] ∧ OneLine status.text := by
  have digits : ∀ s : List UInt8, Digits 10 s → OneLine s := by
    intro s number c mem
    have byte := digit_byte (by decide) (number.2 c mem)
    refine ⟨?_, byte.2.2.2.2.1, byte.2.2.2.2.2⟩
    rintro rfl
    exact absurd byte.1 (by decide)
  have join : ∀ s t : List UInt8, OneLine s → OneLine t → OneLine (s ++ t) := by
    intro s t first second c mem
    rcases List.mem_append.mp mem with mem | mem
    · exact first c mem
    · exact second c mem
  have http : OneLine (ascii "HTTP/") := oneLine_of_all (by decide)
  have dot : OneLine (ascii ".") := oneLine_of_all (by decide)
  have blank : OneLine (ascii " ") := oneLine_of_all (by decide)
  constructor
  · have : ascii "HTTP/" ≠ [] := by decide
    simp [text, this]
  · exact join _ _ (join _ _ (join _ _ (join _ _ (join _ _ (join _ _ http (digits _ status.majorDigits))
      dot) (digits _ status.minorDigits)) blank) (digits _ status.codeDigits)) status.oneLine

/-- The lines of the head. -/
def headLines (status : StatusLine) (headers : List Header) : List (List UInt8) :=
  status.text :: headers.map Header.text

theorem headLines_full (status : StatusLine) (headers : List Header) :
    ∀ s ∈ headLines status headers, s ≠ [] ∧ OneLine s := by
  intro s mem
  rcases List.mem_cons.mp mem with rfl | mem
  · exact status.text_oneLine
  · rcases List.mem_map.mp mem with ⟨h, -, rfl⟩
    exact h.text_oneLine

theorem headText_eq (status : StatusLine) (headers : List Header) :
    headText status headers = lines (headLines status headers) ++ crlf := by
  simp [headText, headLines, lines, List.flatMap_map]

/-- Headers are neither data nor a last word. -/
theorem foldl_observe (headers : List Header) (req : HttpReq) :
    (observe (headers.foldl tellHeader req).told).data = (observe req.told).data ∧
      (observe (headers.foldl tellHeader req).told).ends = (observe req.told).ends := by
  induction headers generalizing req with
  | nil => exact ⟨rfl, rfl⟩
  | cons h headers ih =>
      have told : (tellHeader req h).told = req.told ++ [.header h.storedName h.stored] :=
        (noteHeader_told (req.cb patient (.header h.storedName h.stored)) h.storedName h.stored).1
      have rest := ih (tellHeader req h)
      rw [told, observe_append] at rest
      exact rest

/-- The request when the status code has been told. -/
def codeTold (code : Int) : HttpReq :=
  { httpGet with chunked := false, length := -1 }.cb patient (.code code)

theorem headersRest_eq {callback : Callback} {req parsed : HttpReq} {buf nl : List UInt8} {e : Nat}
    (at_nl : strchrNl buf = some nl) (going : req.cancel = false)
    (told : headerLines callback (buf.length - e) req (nl.drop 1) = (parsed, true))
    (kept : parsed.cancel = false) :
    headersRest callback req buf (some e) = .ok ({ parsed with
      pstate := if parsed.chunked then .chunkSize else .idData }, true) := by
  rw [headersRest, if_neg (by simp [going]), at_nl]
  simp only [told, kept, Bool.not_false, Bool.and_true, if_true]

/-- The head of a response is parsed to its end. -/
theorem readHead_text (status : StatusLine) (headers : List Header) {e : Nat}
    (size : e + 4 = (headText status headers).length) :
    ∃ code req, readHead (headText status headers) e = .ok (req, true) ∧
      (observe req.told).data = [] ∧ (observe req.told).ends = [] ∧
      req.chunked = (headers.foldl tellHeader (codeTold code)).chunked ∧
      req.length = (headers.foldl tellHeader (codeTold code)).length := by
  have first : headText status headers =
      status.text ++ (crlf ++ (lines (headers.map Header.text) ++ crlf)) := by
    rw [headText_eq]
    simp [headLines, lines]
  rcases scanStatus_text status (crlf ++ (lines (headers.map Header.text) ++ crlf)) with
    ⟨code, rest, scanned⟩
  have nl := (strnl_line status.text_oneLine.2 (lines (headers.map Header.text) ++ crlf)).2
  have going : (codeTold code).cancel = false := rfl
  have told := headerLines_headers headers going
  have left : (headText status headers).length - e = 4 := by omega
  have kept : (headers.foldl tellHeader (codeTold code)).cancel = false := by
    have all : ∀ (headers : List Header) (req : HttpReq), req.cancel = false →
        (headers.foldl tellHeader req).cancel = false := by
      intro headers
      induction headers with
      | nil => exact fun _ before => before
      | cons h headers ih =>
          intro req before
          exact ih _ ((noteHeader_told (req.cb patient (.header h.storedName h.stored)) _ _).2.2.trans
            ((cb_patient_cancel _ _).trans before))
    exact all headers _ going
  have observed := foldl_observe headers (codeTold code)
  have parsed : readHead (headText status headers) e =
      .ok ({ headers.foldl tellHeader (codeTold code) with
        pstate :=
          if (headers.foldl tellHeader (codeTold code)).chunked then .chunkSize else .idData }, true) := by
    rw [← first] at scanned nl
    rw [← left] at told
    simp only [readHead, headersParse, scanned]
    exact headersRest_eq nl going told kept
  exact ⟨code, _, parsed, observed.1, observed.2, rfl, rfl⟩

/-- The head of a response ends where its first empty line stands. -/
theorem WellFormed.headEnd (r : WellFormed) :
    ∃ e, headEnd r.bytes = some (e, 4) ∧ e + 4 = (headText r.status r.headers).length := by
  have full := headLines_full r.status r.headers
  have bytes : r.bytes = lines (headLines r.status r.headers) ++ (crlf ++ r.framing.bytes) := by
    rw [WellFormed.bytes, headText_eq, List.append_assoc]
  rcases search_crlf_lines (by simp [headLines]) full r.framing.bytes with ⟨e, found, place⟩
  refine ⟨e, ?_, ?_⟩
  · rw [bytes]
    refine headEnd_eq_crlf found fun f other => ?_
    have := search_lf_lines full other
    omega
  · rw [headText_eq, List.length_append, ← place]
    rfl

/-- What a well-formed response says, from the flags that its headers set. -/
theorem WellFormed.meaning (r : WellFormed) :
    ∃ e code req, Http.headEnd r.bytes = some (e, 4) ∧ e + 4 ≤ headLimit ∧
      r.bytes.take (e + 4) = headText r.status r.headers ∧
      r.bytes.drop (e + 4) = r.framing.bytes ∧
      readHead (headText r.status r.headers) e = .ok (req, true) ∧
      req.chunked = (r.headers.foldl tellHeader (codeTold code)).chunked ∧
      req.length = (r.headers.foldl tellHeader (codeTold code)).length ∧
      (Http.meaning r.bytes).data = (bodyOf req r.framing.bytes).data ∧
      (Http.meaning r.bytes).ends = [(bodyOf req r.framing.bytes).last] := by
  rcases r.headEnd with ⟨e, at_end, size⟩
  rcases readHead_text r.status r.headers size with ⟨code, req, parsed, data, ends, chunked, length⟩
  have head : r.bytes.take (e + 4) = headText r.status r.headers := by
    rw [size, WellFormed.bytes, List.take_left]
  have rest : r.bytes.drop (e + 4) = r.framing.bytes := by
    rw [size, WellFormed.bytes, List.drop_left]
  have limit : e + 4 ≤ headLimit := by
    rw [size]
    exact r.short
  have spoken : Http.meaning r.bytes = (observe req.told).complete (bodyOf req r.framing.bytes) := by
    simp only [Http.meaning, at_end, if_neg (show ¬ headLimit < e + 4 by omega), head, rest, parsed]
    rfl
  refine ⟨e, code, req, at_end, limit, head, rest, parsed, chunked, length, ?_, ?_⟩
  · rw [spoken, Observed.complete, data]
    rfl
  · rw [spoken, Observed.complete, ends]
    rfl

/-! ## The body -/

/-- The size that `strtol` finds, if a `long` holds it. -/
theorem chunkSize_text (line : SizeLine) :
    chunkSize (line.size ++ line.extension ++ [cr]) =
      if ofDigits 16 line.size < 2 ^ 63 then some (ofDigits 16 line.size) else none := by
  have next : ∃ c t, line.extension ++ [cr] ++ [lf] = c :: t ∧ isDigit 16 c = false ∧
      ¬(c = 120 ∨ c = 88) := by
    have byte : ∀ c : UInt8, c = 59 ∨ isblank c = true → isDigit 16 c = false ∧ ¬(c = 120 ∨ c = 88) :=
      forall_byte (by decide +kernel)
    cases extension : line.extension with
    | nil => exact ⟨cr, [lf], rfl, by decide, by decide⟩
    | cons c t =>
        have first := byte c (line.begins c (by simp [extension]))
        exact ⟨c, t ++ [cr] ++ [lf], rfl, first⟩
  rcases next with ⟨c, t, split, other, noMark⟩
  have number := strtol_digits (by decide) line.digits other noMark t
  rw [← split] at number
  have whole : line.size ++ line.extension ++ [cr] ++ [lf] =
      line.size ++ (line.extension ++ [cr] ++ [lf]) := by simp
  simp only [chunkSize, whole, number, toLong, Bool.false_eq_true, if_false]
  by_cases fits : ofDigits 16 line.size < 2 ^ 63
  · rw [if_pos fits, if_pos fits]
    simp
  · rw [if_neg fits, if_neg fits]
    simp

/-- A chunk-size line is regular, and the client finds what stands behind it. -/
theorem chunkLine_text (line : SizeLine) (t : List UInt8) :
    chunkLine (line.text ++ t) = some (line.size ++ line.extension ++ [cr], t) ∧
      (line.size ++ line.extension ++ [cr]).length < 20 ∧
      LineRegular (line.size ++ line.extension ++ [cr]) := by
  have noLf : lf ∉ line.size ++ line.extension ++ [cr] := by
    intro mem
    rcases List.mem_append.mp mem with mem | mem
    · rcases List.mem_append.mp mem with mem | mem
      · exact (digit_byte (by decide) (line.digits.2 lf mem)).2.2.2.2.1 rfl
      · exact line.oneLine lf mem rfl
    · exact absurd (List.mem_singleton.mp mem) (by decide)
  have short : (line.size ++ line.extension ++ [cr]).length < 20 := by
    have := line.short
    simp only [List.length_append, List.length_cons, List.length_nil] at this ⊢
    omega
  have split : line.text ++ t = (line.size ++ line.extension ++ [cr]) ++ lf :: t := by
    simp [SizeLine.text]
  have found : search [lf] (line.text ++ t) = some (line.size ++ line.extension ++ [cr]).length := by
    rw [split, search_append_of_not_mem noLf]
    simp [search]
  refine ⟨?_, short, Or.inl ⟨short, ?_⟩⟩
  · rw [chunkLine, found, split, Option.map_some, List.take_left, ← List.drop_drop, List.drop_left]
    rfl
  · cases size : line.size with
    | nil => exact absurd size line.digits.1
    | cons c s =>
        have digit := digit_byte (by decide) (line.digits.2 c (by simp [size]))
        exact dropWhile_ne_nil_of_mem (by simp) digit.1

theorem firstChunk_text (line : SizeLine) (t : List UInt8) :
    firstChunk (line.text ++ t) = sizedChunk
      (if ofDigits 16 line.size < 2 ^ 63 then some (ofDigits 16 line.size) else none) t := by
  have here := chunkLine_text line t
  rw [firstChunk_line here.1 here.2.1, chunkSize_text]

/-- The first chunk of a body is the first chunk, if a `long` holds its size. -/
theorem firstChunk_chunk (chunk : ChunkText) (t : List UInt8) :
    firstChunk (chunk.text ++ t) =
      if chunk.data.length < 2 ^ 63 then .next chunk.data t else .last ⟨[], .err⟩ := by
  have split : chunk.text ++ t = chunk.toSizeLine.text ++ (chunk.data ++ (crlf ++ t)) := by
    simp [ChunkText.text]
  rw [split, firstChunk_text, chunk.dataSize]
  by_cases fits : chunk.data.length < 2 ^ 63
  · rw [if_pos fits, if_pos fits]
    cases size : chunk.data.length with
    | zero => exact absurd (List.length_eq_zero_iff.mp size) chunk.full
    | succ n =>
        have enough : ¬ (chunk.data ++ (crlf ++ t)).length < chunk.data.length := by
          rw [List.length_append]
          omega
        simp only [sizedChunk, ← size]
        rw [chunkRest, if_neg enough, List.drop_left, List.take_left]
        rfl
  · rw [if_neg fits, if_neg fits]
    rfl

/-- Where a body begins a chunk, from its first chunk on. -/
theorem chunkAt_cases {w v : List UInt8} (at_v : ChunkAt w v) :
    v = w ∨ ∃ data rest, firstChunk w = .next data rest ∧ ChunkAt rest v := by
  induction at_v with
  | first => exact Or.inl rfl
  | next here chunk ih =>
      rcases ih with rfl | ⟨data, rest, first, later⟩
      · exact Or.inr ⟨_, _, chunk, .first⟩
      · exact Or.inr ⟨data, rest, first, .next later chunk⟩

theorem chunksRegular_text (chunks : List ChunkText) (last : LastChunk) (trailer : List UInt8) :
    ChunksRegular (chunks.flatMap ChunkText.text ++ (last.toSizeLine.text ++ trailer)) := by
  induction chunks with
  | nil =>
      intro v line rest at_v at_line
      rcases chunkAt_cases at_v with rfl | ⟨data, rest', first, -⟩
      · have here := chunkLine_text last.toSizeLine trailer
        rw [List.flatMap_nil, List.nil_append, here.1, Option.some.injEq, Prod.mk.injEq] at at_line
        rw [← at_line.1]
        exact here.2.2
      · rw [List.flatMap_nil, List.nil_append, firstChunk_text, last.zero,
          if_pos (by decide)] at first
        cases first
  | cons chunk chunks ih =>
      intro v line rest at_v at_line
      rw [List.flatMap_cons, List.append_assoc] at at_v
      rcases chunkAt_cases at_v with rfl | ⟨data, rest', first, later⟩
      · have split : chunk.text ++ (chunks.flatMap ChunkText.text ++
            (last.toSizeLine.text ++ trailer)) = chunk.toSizeLine.text ++
              (chunk.data ++ (crlf ++ (chunks.flatMap ChunkText.text ++
                (last.toSizeLine.text ++ trailer)))) := by
          simp [ChunkText.text]
        have here := chunkLine_text chunk.toSizeLine (chunk.data ++ (crlf ++
          (chunks.flatMap ChunkText.text ++ (last.toSizeLine.text ++ trailer))))
        rw [split, here.1, Option.some.injEq, Prod.mk.injEq] at at_line
        rw [← at_line.1]
        exact here.2.2
      · rw [firstChunk_chunk] at first
        split at first
        · cases first
          exact ih v line rest later at_line
        · cases first

/-! ## Responses -/

/-- A client gets the body and is told that the response is done. -/
def Delivers (r : WellFormed) (reads : List (List UInt8)) : Prop :=
  ∃ req, response patient reads = .ok req ∧ (observe req.told).data = r.framing.body ∧
    (observe req.told).ends = [.done]

/-- The headers announce chunks exactly for a chunked body. -/
theorem WellFormed.chunked_iff (r : WellFormed) (code : Int) :
    (r.headers.foldl tellHeader (codeTold code)).chunked = true ↔
      ∃ chunks last trailer, r.framing = .chunked chunks last trailer := by
  have announced := r.announced
  cases framing : r.framing with
  | chunked chunks last trailer =>
      rw [framing] at announced
      exact ⟨fun _ => ⟨chunks, last, trailer, rfl⟩, fun _ => foldl_chunked _ (Or.inr announced)⟩
  | sized digits body number size =>
      rw [framing] at announced
      rw [foldl_not_chunked _ rfl announced.1]
      simp
  | toEof body =>
      rw [framing] at announced
      rw [foldl_not_chunked _ rfl announced.1]
      simp

theorem WellFormed.regular (r : WellFormed) : Regular r.bytes := by
  rcases r.meaning with ⟨e, code, req, at_end, limit, head, rest, parsed, chunked, -⟩
  intro e' dlen at_end'
  rw [at_end, Option.some.injEq, Prod.mk.injEq] at at_end'
  rcases at_end' with ⟨rfl, rfl⟩
  refine Or.inr ⟨limit, ⟨?_, fun bare => absurd bare (by decide), ?_⟩⟩
  · have first : headText r.status r.headers =
        r.status.text ++ (crlf ++ (lines (r.headers.map Header.text) ++ crlf)) := by
      rw [headText_eq]
      simp [headLines, lines]
    rcases scanStatus_text r.status (crlf ++ (lines (r.headers.map Header.text) ++ crlf)) with
      ⟨code, behind, scanned⟩
    rw [head, first]
    simp only [StatusRegular, scanned, (strnl_line r.status.text_oneLine.2 _).2]
    simp
  · intro req' parsed' announced
    rw [head, parsed, Except.ok.injEq, Prod.mk.injEq] at parsed'
    rw [← parsed'.1, chunked] at announced
    rcases (r.chunked_iff code).mp announced with ⟨chunks, last, trailer, framing⟩
    rw [rest, framing]
    exact chunksRegular_text chunks last trailer

/-- A chunk-size line with these digits. -/
def SizeLine.ofDigits (size : List UInt8) (some_digit : size ≠ [])
    (all : size.all (isDigit 16) = true) (short : (size ++ [] ++ crlf).length ≤ 20) : SizeLine where
  size := size
  extension := []
  digits := digits_of_all some_digit all
  oneLine _ mem := by cases mem
  begins _ mem := by cases mem
  short := short

end Btpd.Http
