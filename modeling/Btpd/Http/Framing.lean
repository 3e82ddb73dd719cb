import Btpd.Http.Responses

/-!
# Well-formed responses

A response as HTTP has it: a status line and headers with their line ends, and a body
that is chunked, has a `Content-Length` or goes on to the end of the file.  What
`headers_parse` keeps of the headers is what they announce, except that a value has to
fit in its buffer.
-/

namespace Btpd.Http

open Text

/-! ## The shape of a response -/

/-- The end of a line. -/
abbrev crlf : List UInt8 := [cr, lf]

/-- Bytes of one line. -/
def OneLine (s : List UInt8) : Prop := ∀ c ∈ s, c ≠ cr ∧ c ≠ lf ∧ c ≠ 0

/-- A number in digits. -/
def Digits (base : Nat) (s : List UInt8) : Prop := s ≠ [] ∧ ∀ c ∈ s, isDigit base c = true

theorem oneLine_of_all {s : List UInt8} (all : s.all (fun c => c != cr && c != lf && c != 0) = true) :
    OneLine s := by
  intro c mem
  have byte := List.all_eq_true.mp all c mem
  simpa [and_assoc] using byte

theorem digits_of_all {base : Nat} {s : List UInt8} (some_digit : s ≠ [])
    (all : s.all (isDigit base) = true) : Digits base s :=
  ⟨some_digit, List.all_eq_true.mp all⟩

/-- `HTTP/major.minor code reason`. -/
structure StatusLine where
  major : List UInt8
  minor : List UInt8
  code : List UInt8
  reason : List UInt8
  majorDigits : Digits 10 major
  minorDigits : Digits 10 minor
  codeDigits : Digits 10 code
  oneLine : OneLine reason

def StatusLine.text (status : StatusLine) : List UInt8 :=
  ascii "HTTP/" ++ status.major ++ ascii "." ++ status.minor ++ ascii " " ++ status.code ++
    status.reason

/-- A header on one line.  The name has no blanks and no colon. -/
structure Header where
  name : List UInt8
  value : List UInt8
  named : name ≠ []
  token : ∀ c ∈ name, 32 < c ∧ c ≠ 58
  oneLine : OneLine value

def Header.text (h : Header) : List UInt8 := h.name ++ 58 :: h.value

/-- The value without the blanks around it. -/
def Header.content (h : Header) : List UInt8 := trim (h.value.dropWhile isblank)

/-- Names do not depend on the case. -/
def Header.Named (h : Header) (name : String) : Prop := strcaseeq (ascii name) h.name = true

instance (h : Header) (name : String) : Decidable (h.Named name) :=
  inferInstanceAs (Decidable (_ = true))

/-- The line with the size of a chunk, of at most 20 bytes with its line end. -/
structure SizeLine where
  size : List UInt8
  extension : List UInt8
  digits : Digits 16 size
  oneLine : ∀ c ∈ extension, c ≠ lf
  begins : ∀ c ∈ extension.head?, c = 59 ∨ isblank c = true
  short : (size ++ extension ++ crlf).length ≤ 20

def SizeLine.text (line : SizeLine) : List UInt8 := line.size ++ line.extension ++ crlf

/-- A chunk with some data. -/
structure ChunkText extends SizeLine where
  data : List UInt8
  full : data ≠ []
  dataSize : ofDigits 16 size = data.length

def ChunkText.text (chunk : ChunkText) : List UInt8 :=
  chunk.toSizeLine.text ++ chunk.data ++ crlf

/-- The last chunk, which has no data. -/
structure LastChunk extends SizeLine where
  zero : ofDigits 16 size = 0

/-- The three kinds of bodies. -/
inductive Framing
  | chunked (chunks : List ChunkText) (last : LastChunk) (trailer : List UInt8)
  | sized (digits body : List UInt8) (number : Digits 10 digits)
      (size : ofDigits 10 digits = body.length)
  | toEof (body : List UInt8)

/-- The bytes of the body as they are sent. -/
def Framing.bytes : Framing → List UInt8
  | chunked chunks last trailer =>
      chunks.flatMap ChunkText.text ++ (last.toSizeLine.text ++ trailer)
  | sized _ body _ _ => body
  | toEof body => body

/-- The body. -/
def Framing.body : Framing → List UInt8
  | chunked chunks _ _ => chunks.flatMap ChunkText.data
  | sized _ body _ _ => body
  | toEof body => body

/-- The headers say how the body is framed. -/
def Framing.AnnouncedBy (headers : List Header) : Framing → Prop
  | chunked _ _ _ =>
      ∃ h ∈ headers, h.Named "Transfer-Encoding" ∧ strcaseeq (ascii "chunked") h.content = true
  | sized digits _ _ _ =>
      (∀ h ∈ headers, ¬h.Named "Transfer-Encoding") ∧
        ∃ before h after, headers = before ++ h :: after ∧ h.Named "Content-Length" ∧
          h.content = digits ∧ ∀ h' ∈ before ++ after, ¬h'.Named "Content-Length"
  | toEof _ =>
      (∀ h ∈ headers, ¬h.Named "Transfer-Encoding") ∧ ∀ h ∈ headers, ¬h.Named "Content-Length"

/-- The status line and the headers. -/
def headText (status : StatusLine) (headers : List Header) : List UInt8 :=
  (status.text ++ crlf) ++ (headers.flatMap (fun h => h.text ++ crlf) ++ crlf)

/-- A well-formed response. -/
structure WellFormed where
  status : StatusLine
  headers : List Header
  framing : Framing
  announced : framing.AnnouncedBy headers
  short : (headText status headers).length ≤ headLimit

def WellFormed.bytes (r : WellFormed) : List UInt8 :=
  headText r.status r.headers ++ r.framing.bytes

/-! ## Numbers -/

/-- A property of all bytes. -/
theorem forall_byte {P : UInt8 → Prop} (all : ∀ n : Fin 256, P (UInt8.ofFin n)) (c : UInt8) : P c :=
  all c.toFin

theorem isDigit_mono {base base' : Nat} (le : base ≤ base') {c : UInt8}
    (digit : isDigit base c = true) : isDigit base' c = true := by
  simp only [isDigit] at digit ⊢
  cases value : digitValue c with
  | none => simp [value] at digit
  | some d =>
      simp only [value, decide_eq_true_eq] at digit ⊢
      omega

/-- A digit is no blank, no sign and not the letter of a hexadecimal prefix. -/
theorem digit_byte {base : Nat} (le : base ≤ 16) {c : UInt8} (digit : isDigit base c = true) :
    isspace c = false ∧ c ≠ 45 ∧ c ≠ 43 ∧ ¬(c = 120 ∨ c = 88) ∧ c ≠ lf ∧ c ≠ 0 := by
  have hex : ∀ c, isDigit 16 c = true →
      isspace c = false ∧ c ≠ 45 ∧ c ≠ 43 ∧ ¬(c = 120 ∨ c = 88) ∧ c ≠ lf ∧ c ≠ 0 :=
    forall_byte (by decide +kernel)
  exact hex c (isDigit_mono le digit)

theorem sign_digit {base : Nat} (le : base ≤ 16) {c : UInt8} (digit : isDigit base c = true)
    (s : List UInt8) : sign (c :: s) = (false, c :: s) := by
  have byte := digit_byte le digit
  rw [sign, if_neg byte.2.1, if_neg byte.2.2.1]

theorem takeWhile_digits {base : Nat} {s : List UInt8} (digits : Digits base s) (t : List UInt8) :
    (s ++ t).takeWhile (isDigit base) = s ++ t.takeWhile (isDigit base) ∧
      (s ++ t).dropWhile (isDigit base) = t.dropWhile (isDigit base) :=
  ⟨List.takeWhile_append_of_pos digits.2, List.dropWhile_append_of_pos digits.2⟩

/-- `strtol` of a number that something else follows. -/
theorem strtol_digits {base : Nat} (le : base ≤ 16) {s : List UInt8} (digits : Digits base s)
    {c : UInt8} (other : isDigit base c = false) (noMark : ¬(c = 120 ∨ c = 88)) (t : List UInt8) :
    strtol base (s ++ c :: t) = some (toLong false (ofDigits base s)) := by
  rcases s with _ | ⟨d, s⟩
  · exact absurd rfl digits.1
  · have first := digits.2 d List.mem_cons_self
    have byte := digit_byte le first
    have skip : (d :: s ++ c :: t).dropWhile isspace = d :: s ++ c :: t := by
      rw [List.cons_append, List.dropWhile_cons, byte.1]
      rfl
    have plain : hexPrefix (d :: s ++ c :: t) = some (d :: s ++ c :: t) := by
      rcases s with _ | ⟨e, s⟩
      · have no : ¬(d = 48 ∧ (c = 120 ∨ c = 88)) := fun h => noMark h.2
        simp only [List.cons_append, List.nil_append, hexPrefix, if_neg no]
      · have second := digit_byte le (digits.2 e (by simp))
        have no : ¬(d = 48 ∧ (e = 120 ∨ e = 88)) := fun h => second.2.2.2.1 h.2
        simp only [List.cons_append, hexPrefix, if_neg no]
    have number : digitsOf base false (d :: s ++ c :: t) =
        some (toLong false (ofDigits base (d :: s))) := by
      have runs := takeWhile_digits digits (c :: t)
      rw [List.takeWhile_cons, List.dropWhile_cons, other] at runs
      simp only [Bool.false_eq_true, if_false, List.append_nil] at runs
      rw [digitsOf, runs.1, runs.2, if_neg (by simp), if_neg (by simp)]
    have signed : sign (d :: s ++ c :: t) = (false, d :: s ++ c :: t) := sign_digit le first _
    simp only [strtol, skip, signed]
    by_cases hex : base = 16
    · simp only [if_pos hex, plain, Option.bind_eq_bind, Option.bind_some, number]
    · simp only [if_neg hex, Option.bind_eq_bind, Option.bind_some, number]

/-- `%d` reads a number behind some blanks. -/
theorem scanInt_digits (pre : List UInt8) {s : List UInt8} (blank : ∀ c ∈ pre, isspace c = true)
    (digits : Digits 10 s) (t : List UInt8) :
    ∃ value, scanInt (pre ++ (s ++ t)) = .got value (t.dropWhile (isDigit 10)) := by
  rcases s with _ | ⟨d, s⟩
  · exact absurd rfl digits.1
  · have first := digits.2 d List.mem_cons_self
    have byte := digit_byte (by decide) first
    have skip : (pre ++ (d :: s ++ t)).dropWhile isspace = d :: s ++ t := by
      rw [List.dropWhile_append_of_pos blank, List.cons_append, List.dropWhile_cons, byte.1]
      rfl
    have signed : sign (d :: s ++ t) = (false, d :: s ++ t) := sign_digit (by decide) first _
    have runs := takeWhile_digits digits t
    simp only [scanInt, skip, signed, runs.1, runs.2]
    exact ⟨_, if_neg (by simp)⟩

theorem scanText_append (text s : List UInt8) : scanText text (text ++ s) = .got () s := by
  induction text with
  | nil => rfl
  | cons c text ih => rw [List.cons_append, scanText, if_pos rfl, ih]

/-- The status line is what `sscanf` asks for. -/
theorem scanStatus_text (status : StatusLine) (t : List UInt8) :
    ∃ code rest, scanStatus (status.text ++ t) = .got code rest := by
  have dot : (ascii "." ++ status.minor ++ ascii " " ++ status.code ++ status.reason ++ t).dropWhile
      (isDigit 10) = ascii "." ++ (status.minor ++ (ascii " " ++ (status.code ++ (status.reason ++ t)))) := by
    simp only [List.append_assoc]
    rfl
  have blank : (ascii " " ++ (status.code ++ (status.reason ++ t))).dropWhile (isDigit 10) =
      ascii " " ++ (status.code ++ (status.reason ++ t)) := rfl
  have blanks : ∀ c ∈ ascii " ", isspace c = true := List.all_eq_true.mp (by decide)
  rcases scanInt_digits [] (by simp) status.majorDigits
    (ascii "." ++ status.minor ++ ascii " " ++ status.code ++ status.reason ++ t) with ⟨maj, major⟩
  rcases scanInt_digits [] (by simp) status.minorDigits
    (ascii " " ++ (status.code ++ (status.reason ++ t))) with ⟨min, minor⟩
  rcases scanInt_digits (ascii " ") blanks status.codeDigits (status.reason ++ t) with
    ⟨code, last⟩
  rw [dot] at major
  rw [blank] at minor
  simp only [List.nil_append, List.append_assoc] at major minor last
  simp only [scanStatus, StatusLine.text, List.append_assoc, scanText_append, Scan.andThen, major,
    minor, last]
  exact ⟨_, _, rfl⟩

/-! ## Lines -/

/-- A text of a line with its end. -/
theorem strnl_line {s : List UInt8} (oneLine : OneLine s) (t : List UInt8) :
    strnl (s ++ (crlf ++ t)) = some (s, t) ∧ strchrNl (s ++ (crlf ++ t)) = some (lf :: t) := by
  have all : ∀ c ∈ s ++ [cr], inLine c = true := by
    intro c mem
    rcases List.mem_append.mp mem with mem | mem
    · have bytes := oneLine c mem
      simp [inLine, bytes]
    · rw [List.mem_singleton.mp mem]
      decide
  have split : s ++ (crlf ++ t) = (s ++ [cr]) ++ lf :: t := by simp
  have front : (s ++ (crlf ++ t)).takeWhile inLine = s ++ [cr] := by
    rw [split, List.takeWhile_append_of_pos all, List.takeWhile_cons, inLine_lf]
    simp
  have behind : (s ++ (crlf ++ t)).dropWhile inLine = lf :: t := by
    rw [split, List.dropWhile_append_of_pos all, List.dropWhile_cons, inLine_lf]
    rfl
  have found : strchrNl (s ++ (crlf ++ t)) = some (lf :: t) := by
    simp only [strchrNl, behind, if_true]
  refine ⟨?_, found⟩
  simp only [strnl, found, front]
  simp [chop]

/-- The lines of a head, each with its end. -/
def lines (texts : List (List UInt8)) : List UInt8 := texts.flatMap (· ++ crlf)

/-- What follows some lines begins with no line feed, and with no carriage return unless
the lines are over. -/
theorem lines_begin {texts : List (List UInt8)}
    (full : ∀ s ∈ texts, s ≠ [] ∧ OneLine s) (t : List UInt8) :
    ∃ c x, lines texts ++ (crlf ++ t) = c :: x ∧ c ≠ lf ∧ (texts ≠ [] → c ≠ cr) := by
  cases texts with
  | nil => exact ⟨cr, lf :: t, rfl, by decide, fun h => absurd rfl h⟩
  | cons s texts =>
      have here := full s List.mem_cons_self
      cases s with
      | nil => exact absurd rfl here.1
      | cons c s =>
          have byte := here.2 c List.mem_cons_self
          exact ⟨c, _, rfl, byte.2.1, fun _ => byte.1⟩

/-- The first empty line ends the head. -/
theorem search_crlf_lines {texts : List (List UInt8)} (some_line : texts ≠ [])
    (full : ∀ s ∈ texts, s ≠ [] ∧ OneLine s) (t : List UInt8) :
    ∃ e, search [cr, lf, cr, lf] (lines texts ++ (crlf ++ t)) = some e ∧
      e + 2 = (lines texts).length := by
  induction texts with
  | nil => exact absurd rfl some_line
  | cons s texts ih =>
      have here := full s List.mem_cons_self
      have noCr : cr ∉ s := fun mem => (here.2 cr mem).1 rfl
      have split : lines (s :: texts) ++ (crlf ++ t) =
          s ++ cr :: lf :: (lines texts ++ (crlf ++ t)) := by
        simp [lines]
      have size : (lines (s :: texts)).length = s.length + 2 + (lines texts).length := by
        simp [lines]
        omega
      rw [split, search_append_of_not_mem noCr, size]
      by_cases last : texts = []
      · subst last
        refine ⟨s.length, ?_, by simp [lines]⟩
        have stands : search [cr, lf, cr, lf] (cr :: lf :: (lines [] ++ (crlf ++ t))) = some 0 := by
          simp [lines, search]
        rw [stands]
        simp
      · have rest : ∀ s ∈ texts, s ≠ [] ∧ OneLine s :=
          fun s mem => full s (List.mem_cons_of_mem _ mem)
        rcases ih last rest with ⟨e, found, place⟩
        rcases lines_begin rest t with ⟨c, x, begins, -, notCr⟩
        have elsewhere : search [cr, lf, cr, lf] (cr :: lf :: c :: x) =
            (search [cr, lf, cr, lf] (lf :: c :: x)).map (· + 1) := by
          apply search_cons
          simp only [List.cons_prefix_cons, true_and]
          exact fun stands => notCr last stands.1.symm
        rw [begins] at found
        rw [begins, elsewhere, search_cons_of_ne (by decide), found]
        refine ⟨s.length + 2 + e, ?_, by omega⟩
        simp only [Option.map_some, Option.some.injEq]
        omega

/-- A bare empty line is not in the head. -/
theorem search_lf_lines {texts : List (List UInt8)} (full : ∀ s ∈ texts, s ≠ [] ∧ OneLine s)
    {t : List UInt8} {f : Nat} (found : search [lf, lf] (lines texts ++ (crlf ++ t)) = some f) :
    (lines texts).length < f := by
  induction texts generalizing f with
  | nil =>
      have skip : search [lf, lf] (cr :: lf :: t) = (search [lf, lf] (lf :: t)).map (· + 1) :=
        search_cons_of_ne (by decide) _ _
      have found' : search [lf, lf] (cr :: lf :: t) = some f := found
      rw [skip] at found'
      rcases Option.map_eq_some_iff.mp found' with ⟨g, -, rfl⟩
      simp [lines]
  | cons s texts ih =>
      have here := full s List.mem_cons_self
      have noLf : lf ∉ s := fun mem => (here.2 lf mem).2.1 rfl
      have rest : ∀ s ∈ texts, s ≠ [] ∧ OneLine s :=
        fun s mem => full s (List.mem_cons_of_mem _ mem)
      have split : lines (s :: texts) ++ (crlf ++ t) =
          s ++ cr :: lf :: (lines texts ++ (crlf ++ t)) := by
        simp [lines]
      have size : (lines (s :: texts)).length = s.length + 2 + (lines texts).length := by
        simp [lines]
        omega
      rcases lines_begin rest t with ⟨c, x, begins, notLf, -⟩
      have elsewhere : search [lf, lf] (lf :: c :: x) = (search [lf, lf] (c :: x)).map (· + 1) := by
        apply search_cons
        simp only [List.cons_prefix_cons, true_and]
        exact fun stands => notLf stands.1.symm
      rw [split, search_append_of_not_mem noLf, begins, search_cons_of_ne (by decide), elsewhere,
        Option.map_map, Option.map_map] at found
      rcases Option.map_eq_some_iff.mp found with ⟨g, later, rfl⟩
      rw [← begins] at later
      have := ih rest later
      rw [size]
      simp only [Function.comp_apply]
      omega

/-! ## What the client keeps of a header -/

/-- Blanks at the end of a value make no difference. -/
theorem trim_append {s blanks : List UInt8} (all : ∀ c ∈ blanks, isblank c = true) :
    trim (s ++ blanks) = trim s := by
  simp only [trim, List.rdropWhile, List.reverse_append]
  rw [List.dropWhile_append_of_pos (fun c mem => all c (List.mem_reverse.mp mem))]

theorem trim_split (s : List UInt8) :
    ∃ blanks, s = trim s ++ blanks ∧ ∀ c ∈ blanks, isblank c = true := by
  refine ⟨(s.reverse.takeWhile isblank).reverse, ?_, ?_⟩
  · have split := List.takeWhile_append_dropWhile (p := isblank) (l := s.reverse)
    have back := congrArg List.reverse split
    rw [List.reverse_append, List.reverse_reverse] at back
    exact back.symm
  · intro c mem
    exact List.mem_takeWhile_imp (List.mem_reverse.mp mem)

theorem trim_trim (s : List UInt8) : trim (trim s) = trim s := by
  rcases trim_split s with ⟨blanks, split, all⟩
  have same := trim_append (s := trim s) all
  rw [← split] at same
  exact same.symm

/-- What `name` and `value` hold of a header. -/
def Header.storedName (h : Header) : List UInt8 := h.name.take (nameSize - 1)

def Header.stored (h : Header) : List UInt8 :=
  trim ((h.value.dropWhile isblank).take (valueSize - 1))

/-- A value that fits is stored. -/
theorem Header.stored_of_short (h : Header) (short : h.content.length ≤ valueSize - 1) :
    h.stored = h.content := by
  rcases trim_split (h.value.dropWhile isblank) with ⟨blanks, split, all⟩
  have short' : (trim (h.value.dropWhile isblank)).length ≤ valueSize - 1 := short
  rw [stored, split, List.take_append, List.take_of_length_le short',
    trim_append fun c mem => all c (List.mem_of_mem_take mem)]
  exact trim_trim _

/-- A name that is compared with a short one is not cut too short. -/
theorem strcaseeq_take {s t : List UInt8} {n : Nat} (short : s.length < n) :
    strcaseeq s (t.take n) = strcaseeq s t := by
  by_cases all : t.length ≤ n
  · rw [List.take_of_length_le all]
  · have differ : ∀ u : List UInt8, s.length < u.length → strcaseeq s u = false := by
      intro u longer
      simp only [strcaseeq, beq_eq_false_iff_ne, ne_eq]
      intro same
      have := congrArg List.length same
      simp only [List.length_map] at this
      omega
    rw [differ _ (by rw [List.length_take]; omega), differ _ (by omega)]

theorem strcaseeq_length {s t : List UInt8} (same : strcaseeq s t = true) :
    s.length = t.length := by
  simpa using congrArg List.length (eq_of_beq same)

/-! ## The headers -/

/-- One header of a patient client. -/
def tellHeader (req : HttpReq) (h : Header) : HttpReq :=
  noteHeader (req.cb patient (.header h.storedName h.stored)) h.storedName h.stored

theorem Header.text_oneLine (h : Header) : h.text ≠ [] ∧ OneLine h.text := by
  constructor
  · simp [text]
  · have byte : ∀ c : UInt8, 32 < c → c ≠ cr ∧ c ≠ lf ∧ c ≠ 0 := forall_byte (by decide +kernel)
    intro c mem
    rcases List.mem_append.mp mem with mem | mem
    · exact byte c (h.token c mem).1
    · rcases List.mem_cons.mp mem with rfl | mem
      · decide
      · exact h.oneLine c mem

/-- A header line, its name and its value. -/
theorem Header.text_split (h : Header) :
    58 ∈ h.text ∧ h.text.takeWhile (· != 58) = h.name ∧
      (h.text.dropWhile (· != 58)).drop 1 = h.value := by
  have all : ∀ c ∈ h.name, (c != 58) = true := fun c mem => by simpa using (h.token c mem).2
  refine ⟨by simp [text], ?_, ?_⟩
  · rw [text, List.takeWhile_append_of_pos all]
    simp
  · rw [text, List.dropWhile_append_of_pos all]
    simp

/-- Neither a header nor the empty line is a continuation line. -/
theorem headers_begin (headers : List Header) :
    ∃ c x, lines (headers.map Header.text) ++ crlf = c :: x ∧ isblank c = false := by
  cases headers with
  | nil => exact ⟨cr, [lf], rfl, by decide⟩
  | cons h headers =>
      have byte : ∀ c : UInt8, 32 < c → isblank c = false := forall_byte (by decide +kernel)
      cases name : h.name with
      | nil => exact absurd name h.named
      | cons c rest =>
          refine ⟨c, rest ++ 58 :: h.value ++ crlf ++ (lines (headers.map Header.text) ++ crlf),
            ?_, byte c (h.token c (by simp [name])).1⟩
          simp [lines, Header.text, name]

/-- All the headers are told. -/
theorem headerLines_headers (headers : List Header) {req : HttpReq} (going : req.cancel = false) :
    headerLines patient 4 req (lines (headers.map Header.text) ++ crlf) =
      (headers.foldl tellHeader req, true) := by
  induction headers generalizing req with
  | nil => rw [headerLines, if_pos (by simp [lines])]; rfl
  | cons h headers ih =>
      have split : lines ((h :: headers).map Header.text) ++ crlf =
          h.text ++ (crlf ++ (lines (headers.map Header.text) ++ crlf)) := by
        simp [lines]
      have named : 1 ≤ h.name.length := List.length_pos_iff.mpr h.named
      have outside : ¬ (h.text ++ (crlf ++ (lines (headers.map Header.text) ++ crlf))).length ≤ 4 := by
        simp [Header.text]
        omega
      rcases headers_begin headers with ⟨c, x, begins, other⟩
      rw [split, headerLines_found outside (strnl_line h.text_oneLine.2 _).1, if_pos h.text_split.1,
        h.text_split.2.1, h.text_split.2.2, valLoop_last begins other]
      have go : (req.cb patient (.header h.storedName h.stored)).cancel = false :=
        (cb_patient_cancel _ _).trans going
      have goes : (tellHeader req h).cancel = false :=
        (noteHeader_told (req.cb patient (.header h.storedName h.stored)) _ _).2.2.trans go
      simp only [List.nil_append]
      refine (if_neg (by simpa using going)).trans ?_
      exact ih goes

/-! ## What the headers announce -/

theorem noteHeader_chunked (req : HttpReq) (name value : List UInt8) :
    (noteHeader req name value).chunked = (req.chunked ||
      (strcaseeq (ascii "Transfer-Encoding") name && strcaseeq (ascii "chunked") value)) := by
  simp only [noteHeader]
  split <;> rfl

theorem storedName_transferEncoding (h : Header) :
    strcaseeq (ascii "Transfer-Encoding") h.storedName =
      strcaseeq (ascii "Transfer-Encoding") h.name :=
  strcaseeq_take (by decide)

/-- One header that announces chunks. -/
theorem foldl_chunked (headers : List Header) {req : HttpReq}
    (announced : req.chunked = true ∨ ∃ h ∈ headers, h.Named "Transfer-Encoding" ∧
      strcaseeq (ascii "chunked") h.content = true) :
    (headers.foldl tellHeader req).chunked = true := by
  induction headers generalizing req with
  | nil =>
      rcases announced with before | ⟨h, mem, -⟩
      · exact before
      · cases mem
  | cons h headers ih =>
      refine ih ?_
      have flag := noteHeader_chunked (req.cb patient (.header h.storedName h.stored)) h.storedName
        h.stored
      rcases announced with before | ⟨h', mem, named, chunked⟩
      · left
        rw [tellHeader, flag]
        simp [HttpReq.cb, before]
      · rcases List.mem_cons.mp mem with rfl | later
        · left
          have short : h'.content.length ≤ valueSize - 1 := by
            rw [← strcaseeq_length chunked]
            decide
          rw [tellHeader, flag, storedName_transferEncoding, h'.stored_of_short short, chunked, named]
          simp
        · exact Or.inr ⟨h', later, named, chunked⟩

/-- No header announces chunks. -/
theorem foldl_not_chunked (headers : List Header) {req : HttpReq} (before : req.chunked = false)
    (none : ∀ h ∈ headers, ¬h.Named "Transfer-Encoding") :
    (headers.foldl tellHeader req).chunked = false := by
  induction headers generalizing req with
  | nil => exact before
  | cons h headers ih =>
      refine ih ?_ fun h' mem => none h' (List.mem_cons_of_mem _ mem)
      rw [tellHeader, noteHeader_chunked, storedName_transferEncoding,
        Bool.eq_false_iff.mpr (none h List.mem_cons_self)]
      simp [HttpReq.cb, before]

end Btpd.Http
