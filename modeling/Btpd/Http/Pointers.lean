import Btpd.Http.HeaderLines

/-!
# The pointers of `headers_parse`

`headers_parse` walks over the buffer with pointers.  Here a pointer is an offset into the
memory, which is the buffer and the zero byte behind it; a byte that is not in the memory
is not read, and what `strchr` has found is there or not.  `nl` is compared before it is
looked at whether it is there: the null pointer is below every other one, and where it
bounds the copying of a value the walk says so.  `end` may point into a block that has been
freed; it is compared only.

The walk does what the parser does on the rest of the buffer.
-/

namespace Btpd.Http.Pointers

open Text

/-- How the walk ends otherwise: a byte outside the memory, a null pointer or one into a freed
block that is used, or more rounds than there are bytes. -/
inductive Stray
  | outside | null | stale | endless
  deriving DecidableEq, Repr

abbrev Walk := Except Stray

/-! ## Pointers -/

/-- `*p`. -/
def byteAt (mem : List UInt8) (p : Nat) : Walk UInt8 :=
  match mem[p]? with
  | some c => .ok c
  | none => .error .outside

/-- `strchr`, with the bytes from `p` on. -/
def seek (c : UInt8) (p : Nat) : List UInt8 → Walk (Option Nat)
  | [] => .error .outside
  | x :: s => if x = c then .ok (some p) else if x = 0 then .ok none else seek c (p + 1) s

/-- `strchr(str, c)`. -/
def strchr (mem : List UInt8) (str : Nat) (c : UInt8) : Walk (Option Nat) :=
  seek c str (mem.drop str)

/-- `strnl`: the line end and its size. -/
def strnl (mem : List UInt8) (str : Nat) : Walk (Option Nat × Nat) := do
  match ← strchr mem str lf with
  | none => pure (none, 1)
  | some nl =>
      if str < nl then
        let c ← byteAt mem (nl - 1)
        if c = cr then pure (some (nl - 1), 2) else pure (some nl, 1)
      else pure (some nl, 1)

/-- `p < nl`. -/
def below (p : Nat) : Option Nat → Bool
  | some nl => p < nl
  | none => false

/-- `nl < p`. -/
def above (p : Nat) : Option Nat → Bool
  | some nl => nl < p
  | none => true

/-- `while (isblank(*cur)) cur++`, with the bytes from `p` on. -/
def blanks (p : Nat) : List UInt8 → Walk Nat
  | [] => .error .outside
  | x :: s => if isblank x then blanks (p + 1) s else .ok p

/-- `if (i < sizeof(value) - 1) value[i++] = c`. -/
def put (value : List UInt8) (c : UInt8) : List UInt8 :=
  if value.length < valueSize - 1 then value ++ [c] else value

/-- `while (cur < nl)`, with the bytes from `cur` on. -/
def copy (nl : Option Nat) (cur : Nat) (value : List UInt8) : List UInt8 → Walk (Nat × List UInt8)
  | [] => if below cur nl then .error .outside else .ok (cur, value)
  | x :: s => if below cur nl then copy nl (cur + 1) (put value x) s else .ok (cur, value)

/-! ## The loops -/

/-- Where the walk is: `cur`, the line end that has been looked for from there and its size,
the value so far, and whether a line end that was not there has bounded a value. -/
structure Cursor where
  cur : Nat
  nl : Option Nat
  nlsize : Nat
  value : List UInt8
  absent : Bool
  deriving DecidableEq, Repr

/-- From `val_loop` on. -/
def valLoop (mem : List UInt8) : Nat → Cursor → Walk Cursor
  | 0, _ => .error .endless
  | rounds + 1, s => do
      let cur ← blanks s.cur (mem.drop s.cur)
      let (cur, value) ← copy s.nl cur s.value (mem.drop cur)
      let cur := cur + s.nlsize
      let (nl, nlsize) ← strnl mem cur
      let c ← byteAt mem cur
      if isblank c then
        valLoop mem rounds ⟨cur + 1, nl, nlsize, put value 32, s.absent || s.nl.isNone⟩
      else .ok ⟨cur, nl, nlsize, value, s.absent || s.nl.isNone⟩

/-- `snprintf(name, sizeof(name), "%.*s", n, str)`. -/
def printName (mem : List UInt8) (str n : Nat) : List UInt8 :=
  (((mem.drop str).take n).takeWhile (· != 0)).take (nameSize - 1)

/-- What `headers_parse` returns, with the request and whether a line end that was not there
has bounded a value. -/
structure Outcome where
  req : HttpReq
  ok : Bool
  absent : Bool
  deriving DecidableEq, Repr

/-- The loop of `headers_parse`. -/
def headerLines (callback : Callback) (mem : List UInt8) (e rounds : Nat) :
    Nat → HttpReq → Cursor → Walk Outcome
  | 0, _, _ => .error .endless
  | fuel + 1, req, s =>
      if e ≤ s.cur then .ok ⟨req, true, s.absent⟩
      else do
        match ← strchr mem s.cur 58 with
        | none => .ok ⟨req, false, s.absent⟩
        | some colon =>
            if above colon s.nl then .ok ⟨req, false, s.absent⟩
            else do
              let name := printName mem s.cur (colon - s.cur)
              let s ← valLoop mem rounds { s with cur := colon + 1, value := [] }
              -- `value[i] = '\0'`
              if valueSize ≤ s.value.length then .error .outside
              else
                let value := trim s.value
                let req := req.cb callback (.header name value)
                if req.cancel then .ok ⟨req, true, s.absent⟩
                else headerLines callback mem e rounds fuel (noteHeader req name value) s

/-- `headers_parse` of what is in the buffer, with `fuel` rounds for each loop; `e` is
where `end` points in the buffer, if it points into it. -/
def headersParse (callback : Callback) (fuel : Nat) (req : HttpReq) (rbuf : List UInt8)
    (e : Option Nat) : Walk Outcome :=
  let mem := rbuf ++ [0]
  let req := { req with chunked := false, length := -1 }
  match scanStatus mem with
  | .exhausted => .error .outside
  | .mismatch => .ok ⟨req, false, false⟩
  | .got code _ =>
      let req := req.cb callback (.code code)
      if req.cancel then .ok ⟨req, true, false⟩
      else do
        match ← strchr mem 0 lf with
        | none => .error .null
        | some first =>
            let cur := first + 1
            let (nl, nlsize) ← strnl mem cur
            match e with
            | none => .error .stale
            | some e =>
                let parsed ← headerLines callback mem e fuel fuel req ⟨cur, nl, nlsize, [], false⟩
                if parsed.ok && !parsed.req.cancel then
                  .ok { parsed with
                    req := { parsed.req with
                      pstate := if parsed.req.chunked then .chunkSize else .idData } }
                else .ok parsed

@[simp] theorem ok_bind {α β : Type} (a : α) (f : α → Walk β) : (.ok a : Walk α) >>= f = f a := rfl

/-! ## Where a pointer points -/

/-- The pointer `p` into the buffer has these bytes behind it. -/
structure At (rbuf : List UInt8) (p : Nat) (s : List UInt8) : Prop where
  inside : p ≤ rbuf.length
  bytes : rbuf.drop p = s

variable {rbuf : List UInt8} {p : Nat}

theorem At.start (rbuf : List UInt8) : At rbuf 0 rbuf := ⟨Nat.zero_le _, rfl⟩

/-- Behind some of the bytes. -/
theorem At.advance {t s : List UInt8} (here : At rbuf p (t ++ s)) : At rbuf (p + t.length) s := by
  have size := congrArg List.length here.bytes
  rw [List.length_drop, List.length_append] at size
  constructor
  · have := here.inside
    omega
  · rw [← List.drop_drop, here.bytes, List.drop_left]

theorem At.mem {s : List UInt8} (here : At rbuf p s) : (rbuf ++ [0]).drop p = s ++ [0] := by
  rw [List.drop_append_of_le_length here.inside, here.bytes]

theorem At.length {s : List UInt8} (here : At rbuf p s) : p + s.length = rbuf.length := by
  have size := congrArg List.length here.bytes
  rw [List.length_drop] at size
  have := here.inside
  omega

theorem At.byteAt {s : List UInt8} {c : UInt8} {rest : List UInt8} (here : At rbuf p s)
    (next : s ++ [0] = c :: rest) : byteAt (rbuf ++ [0]) p = .ok c := by
  have found : (rbuf ++ [0])[p]? = some c := by
    rw [← List.head?_drop, here.mem, next]
    rfl
  rw [Pointers.byteAt, found]

/-! ## Searching -/

/-- `strchr` stops at the zero byte behind the buffer. -/
theorem seek_lf (p : Nat) (s : List UInt8) :
    seek lf p (s ++ [0]) = .ok ((strchrNl s).map fun _ => p + (s.takeWhile inLine).length) := by
  induction s generalizing p with
  | nil => rfl
  | cons x s ih =>
      rw [List.cons_append, seek]
      by_cases isLf : x = lf
      · subst isLf
        rfl
      · rw [if_neg isLf]
        by_cases isNul : x = 0
        · subst isNul
          rfl
        · have inside : inLine x = true := by simp [inLine, isLf, isNul]
          rw [if_neg isNul, ih, strchrNl, strchrNl, List.dropWhile_cons_of_pos inside,
            List.takeWhile_cons_of_pos inside, List.length_cons]
          congr 2
          funext _
          omega

theorem strchr_lf {s : List UInt8} (here : At rbuf p s) :
    strchr (rbuf ++ [0]) p lf =
      .ok ((strchrNl s).map fun _ => p + (s.takeWhile inLine).length) := by
  rw [strchr, here.mem, seek_lf]

/-- A line and its end. -/
structure Ended (s text eol rest : List UInt8) : Prop where
  line : s = text ++ (eol ++ rest)
  eol : eol = [lf] ∨ eol = [cr, lf]
  inside : ∀ c ∈ text, inLine c = true

/-- The line that `strnl` takes off. -/
theorem ended_of_strnl {s text rest : List UInt8} (found : Http.strnl s = some (text, rest)) :
    ∃ eol, Ended s text eol rest ∧ eol.length + text.length = (s.takeWhile inLine).length + 1 ∧
      text = chop (s.takeWhile inLine) := by
  rcases strnl_eq found with ⟨text_eq, nl, at_nl, rest_eq⟩
  rcases strchrNl_eq at_nl with ⟨rest', rfl, split⟩
  have all : ∀ c ∈ s.takeWhile inLine, inLine c = true := fun c => List.mem_takeWhile_imp
  rw [List.drop_succ_cons, List.drop_zero] at rest_eq
  subst rest_eq
  by_cases ret : (s.takeWhile inLine).getLast? = some cr
  · have whole := List.dropLast_append_getLast? cr ret
    have chopped : chop (s.takeWhile inLine) = (s.takeWhile inLine).dropLast := if_pos ret
    have size := congrArg List.length whole
    rw [List.length_append] at size
    refine ⟨[cr, lf], ⟨?_, .inr rfl, ?_⟩, ?_, text_eq⟩
    · rw [text_eq, chopped]
      calc
        s = s.takeWhile inLine ++ lf :: rest := split
        _ = (s.takeWhile inLine).dropLast ++ [cr] ++ lf :: rest := by rw [whole]
        _ = (s.takeWhile inLine).dropLast ++ ([cr, lf] ++ rest) := by simp
    · rw [text_eq, chopped]
      exact fun c mem => all c (List.dropLast_subset _ mem)
    · rw [text_eq, chopped, ← size]
      simp only [List.length_cons, List.length_nil]
      omega
  · have chopped : chop (s.takeWhile inLine) = s.takeWhile inLine := if_neg ret
    refine ⟨[lf], ⟨?_, .inl rfl, ?_⟩, ?_, text_eq⟩
    · rw [text_eq, chopped]
      exact split
    · rw [text_eq, chopped]
      exact all
    · rw [text_eq, chopped]
      exact Nat.add_comm _ _

theorem strnl_found {s text rest : List UInt8} (here : At rbuf p s)
    (found : Http.strnl s = some (text, rest)) :
    ∃ eol, Ended s text eol rest ∧
      strnl (rbuf ++ [0]) p = .ok (some (p + text.length), eol.length) := by
  rcases strnl_eq found with ⟨-, nl, at_nl, -⟩
  rcases ended_of_strnl found with ⟨eol, ended, size, text_eq⟩
  refine ⟨eol, ended, ?_⟩
  have sought : strchr (rbuf ++ [0]) p lf = .ok (some (p + (s.takeWhile inLine).length)) := by
    rw [strchr_lf here, at_nl]
    rfl
  rcases List.eq_nil_or_concat (s.takeWhile inLine) with empty | ⟨init, c, line⟩
  · rw [empty] at sought size text_eq
    have bare : text = [] := text_eq
    subst bare
    have one : eol.length = 1 := size
    rw [strnl, sought, one]
    exact if_neg (Nat.lt_irrefl p)
  · rw [List.concat_eq_append] at line
    have more : p < p + (s.takeWhile inLine).length := by
      rw [line, List.length_append]
      exact Nat.lt_add_of_pos_right (Nat.succ_pos _)
    have back : p + (s.takeWhile inLine).length - 1 = p + init.length := by
      rw [line, List.length_append, List.length_singleton]
      omega
    have last : byteAt (rbuf ++ [0]) (p + init.length) = .ok c := by
      have split := List.takeWhile_append_dropWhile (p := inLine) (l := s)
      rw [line, List.append_assoc] at split
      rw [← split] at here
      exact here.advance.byteAt rfl
    have read : strnl (rbuf ++ [0]) p =
        if c = cr then .ok (some (p + init.length), 2)
        else .ok (some (p + (s.takeWhile inLine).length), 1) := by
      rw [strnl, sought]
      refine (if_pos more).trans ?_
      rw [back, last]
      rfl
    rw [read]
    by_cases ret : c = cr
    · have chopped : text = init := by
        rw [text_eq, line, chop, List.getLast?_concat, ret, if_pos rfl, List.dropLast_concat]
      have two : eol.length = 2 := by
        rw [chopped, line, List.length_append, List.length_singleton] at size
        omega
      rw [if_pos ret, two, chopped]
    · have chopped : text = s.takeWhile inLine := by
        rw [text_eq, line, chop, List.getLast?_concat,
          if_neg fun same => ret (Option.some.inj same)]
      have one : eol.length = 1 := by
        rw [chopped] at size
        omega
      rw [if_neg ret, one, chopped]

theorem strnl_missing {s : List UInt8} (here : At rbuf p s) (missing : Http.strnl s = none) :
    strnl (rbuf ++ [0]) p = .ok (none, 1) := by
  have nowhere : strchrNl s = none := by
    cases found : strchrNl s with
    | none => rfl
    | some nl => simp [Http.strnl, found] at missing
  rw [strnl, strchr_lf here, nowhere]
  rfl

theorem strnl_ok {s : List UInt8} (here : At rbuf p s) :
    ∃ nl nlsize, strnl (rbuf ++ [0]) p = .ok (nl, nlsize) := by
  cases found : Http.strnl s with
  | none => exact ⟨_, _, strnl_missing here found⟩
  | some taken =>
      rcases strnl_found here found with ⟨eol, -, sought⟩
      exact ⟨_, _, sought⟩

/-- Blanks are skipped up to the zero byte at the latest. -/
theorem blanks_eq (p : Nat) (s : List UInt8) :
    blanks p (s ++ [0]) = .ok (p + (s.takeWhile isblank).length) := by
  induction s generalizing p with
  | nil => rfl
  | cons x s ih =>
      rw [List.cons_append, blanks]
      by_cases blank : isblank x = true
      · rw [if_pos blank, ih, List.takeWhile_cons_of_pos blank, List.length_cons]
        congr 1
        omega
      · rw [if_neg blank, List.takeWhile_cons_of_neg blank]
        rfl

/-- A value is cut where its array ends. -/
theorem put_eq {value : List UInt8} (fits : value.length ≤ valueSize - 1) (c : UInt8) :
    put value c = (value ++ [c]).take (valueSize - 1) := by
  by_cases room : value.length < valueSize - 1
  · rw [put, if_pos room, List.take_of_length_le]
    rw [List.length_append]
    exact room
  · have full : value.length = valueSize - 1 := Nat.le_antisymm fits (Nat.not_lt.mp room)
    rw [put, if_neg room, ← full, List.take_left]

/-- Copying up to the line end. -/
theorem copy_eq {value : List UInt8} (fits : value.length ≤ valueSize - 1) (cur : Nat)
    (t s : List UInt8) :
    copy (some (cur + t.length)) cur value (t ++ s) =
      .ok (cur + t.length, (value ++ t).take (valueSize - 1)) := by
  induction t generalizing cur value with
  | nil =>
      have stops : ¬ (decide (cur < cur) = true) := by simp
      rw [List.append_nil, List.take_of_length_le fits]
      cases s with
      | nil => exact if_neg stops
      | cons x s => exact if_neg stops
  | cons x t ih =>
      have goes : below cur (some (cur + (x :: t).length)) = true := by simp [below]
      have far : cur + (x :: t).length = cur + 1 + t.length := by
        rw [List.length_cons]
        omega
      have room : (put value x).length ≤ valueSize - 1 := by
        rw [put_eq fits, List.length_take]
        exact Nat.min_le_left _ _
      rw [List.cons_append, copy, if_pos goes, far, ih room, put_eq fits, take_take_append,
        List.append_assoc]
      rfl

/-- Without a line end nothing is copied. -/
theorem copy_absent (cur : Nat) (value s : List UInt8) :
    copy none cur value s = .ok (cur, value) := by
  cases s with
  | nil => rfl
  | cons x s => rfl

/-! ## The value of a header -/

/-- The walk is in a line, of which it has this text before it and this rest behind; or it
has found no line end, and skips one byte behind the blanks. -/
inductive Bounded (rbuf : List UInt8) (s : Cursor) : List UInt8 → List UInt8 → Prop
  | ended {text eol rest : List UInt8} (here : At rbuf s.cur (text ++ (eol ++ rest)))
      (isEol : eol = [lf] ∨ eol = [cr, lf]) (nl : s.nl = some (s.cur + text.length))
      (nlsize : s.nlsize = eol.length) : Bounded rbuf s text rest
  | absent {line rest : List UInt8} {c : UInt8} (here : At rbuf s.cur line) (nl : s.nl = none)
      (nlsize : s.nlsize = 1) (behind : line.dropWhile isblank = c :: rest) : Bounded rbuf s [] rest

theorem takeWhile_eol (text rest : List UInt8) {eol : List UInt8}
    (isEol : eol = [lf] ∨ eol = [cr, lf]) :
    (text ++ (eol ++ rest)).takeWhile isblank = text.takeWhile isblank ∧
      (text ++ (eol ++ rest)).dropWhile isblank = text.dropWhile isblank ++ (eol ++ rest) := by
  have stops : (eol ++ rest).takeWhile isblank = [] ∧
      (eol ++ rest).dropWhile isblank = eol ++ rest := by
    rcases isEol with rfl | rfl
    · exact ⟨rfl, rfl⟩
    · exact ⟨rfl, rfl⟩
  rw [List.takeWhile_append, List.dropWhile_append, stops.1, stops.2]
  constructor
  · split
    · rename_i all
      rw [List.append_nil, (List.takeWhile_sublist _).eq_of_length all]
    · rfl
  · split
    · rename_i all
      rw [List.isEmpty_iff.mp all, List.nil_append]
    · rfl

/-- One time round the loop, up to the line behind. -/
theorem valLoop_round {s : Cursor} {text rest : List UInt8} (bounded : Bounded rbuf s text rest)
    (fits : s.value.length ≤ valueSize - 1) :
    ∃ q, At rbuf q rest ∧ ∀ rounds {nl nlsize c}, strnl (rbuf ++ [0]) q = .ok (nl, nlsize) →
      byteAt (rbuf ++ [0]) q = .ok c → valLoop (rbuf ++ [0]) (rounds + 1) s =
        let value := (s.value ++ text.dropWhile isblank).take (valueSize - 1)
        if isblank c then
          valLoop (rbuf ++ [0]) rounds
            ⟨q + 1, nl, nlsize, put value 32, s.absent || s.nl.isNone⟩
        else .ok ⟨q, nl, nlsize, value, s.absent || s.nl.isNone⟩ := by
  cases bounded with
  | @ended text eol rest here isEol nl nlsize =>
      have skip := takeWhile_eol text rest isEol
      have split := List.takeWhile_append_dropWhile (p := isblank) (l := text)
      have behind : At rbuf (s.cur + (text.takeWhile isblank).length)
          (text.dropWhile isblank ++ (eol ++ rest)) := by
        rw [← split, List.append_assoc] at here
        exact here.advance
      have size : s.cur + text.length =
          s.cur + (text.takeWhile isblank).length + (text.dropWhile isblank).length := by
        rw [Nat.add_assoc, ← List.length_append, split]
      refine ⟨s.cur + text.length + eol.length, ?_, fun rounds _ _ _ sought read => ?_⟩
      · rw [size]
        exact behind.advance.advance
      · have copied : copy s.nl (s.cur + (text.takeWhile isblank).length) s.value
            ((rbuf ++ [0]).drop (s.cur + (text.takeWhile isblank).length)) =
            .ok (s.cur + text.length,
              (s.value ++ text.dropWhile isblank).take (valueSize - 1)) := by
          rw [behind.mem, nl, size, List.append_assoc, copy_eq fits]
        rw [valLoop, here.mem, blanks_eq, skip.1, ok_bind, copied, ok_bind, nlsize]
        dsimp only
        rw [sought, ok_bind]
        dsimp only
        rw [read, ok_bind]
  | @absent line rest c here nl nlsize behind =>
      have split := List.takeWhile_append_dropWhile (p := isblank) (l := line)
      rw [behind] at split
      have next : At rbuf (s.cur + (line.takeWhile isblank).length) (c :: rest) := by
        rw [← split] at here
        exact here.advance
      refine ⟨s.cur + (line.takeWhile isblank).length + 1, ?_, fun rounds _ _ _ sought read => ?_⟩
      · exact At.advance (t := [c]) next
      · have copied : copy s.nl (s.cur + (line.takeWhile isblank).length) s.value
            ((rbuf ++ [0]).drop (s.cur + (line.takeWhile isblank).length)) =
            .ok (s.cur + (line.takeWhile isblank).length,
              (s.value ++ ([] : List UInt8).dropWhile isblank).take (valueSize - 1)) := by
          rw [nl, copy_absent, List.dropWhile_nil, List.append_nil, List.take_of_length_le fits]
        rw [valLoop, here.mem, blanks_eq, ok_bind, copied, ok_bind, nlsize]
        dsimp only
        rw [sought, ok_bind]
        dsimp only
        rw [read, ok_bind]

/-- The walk has read a value and stands at the next line, whose end it has looked for.
Every line end of the value was there if no line that goes on with it is cut short. -/
structure ValueRead (rbuf x : List UInt8) (s s' : Cursor) (lines : List UInt8)
    (read : List UInt8 × List UInt8) : Prop where
  value : s'.value = read.1
  here : At rbuf s'.cur (read.2 ++ x)
  sought : strnl (rbuf ++ [0]) s'.cur = .ok (s'.nl, s'.nlsize)
  absent : s'.absent = false ↔
    s.absent = false ∧ s.nl.isSome = true ∧ ∀ line ∈ foldsOf lines, 0 ∉ line

theorem valLoop_walks {x text v value : List UInt8} (lines : Lines v)
    (fits : value.length ≤ valueSize - 1) : ∀ {s : Cursor} {rounds : Nat},
      Bounded rbuf s text (v ++ x) → s.value = value → v.length < rounds →
        ∃ s', valLoop (rbuf ++ [0]) rounds s = .ok s' ∧
          ValueRead rbuf x s s' v (Http.valLoop value text v) := by
  have cut : ∀ w : List UInt8, (w.take (valueSize - 1)).length ≤ valueSize - 1 := fun w => by
    rw [List.length_take]
    exact Nat.min_le_left _ _
  fun_induction Http.valLoop value text v with
  | case1 =>
      intro s rounds
      exact absurd rfl lines.endsLine.ne_nil
  | case2 value text value' c cur blank text' rest' found ih =>
      intro s rounds bounded same enough
      rcases Nat.exists_eq_succ_of_ne_zero (Nat.ne_zero_of_lt enough) with ⟨fewer, rfl⟩
      rcases valLoop_round bounded (same ▸ fits) with ⟨q, here, goes⟩
      have longer : Http.strnl (c :: cur ++ x) = some (text', rest' ++ x) := by
        rw [strnl_append lines.endsLine, found]
        rfl
      rcases strnl_found here longer with ⟨eol, ended, sought⟩
      have first : byteAt (rbuf ++ [0]) q = .ok c := here.byteAt rfl
      have goesOn : continues (c :: cur) = true := blank
      have blankText : continues text' = true := (continues_text found).trans goesOn
      have stepped := (goes fewer sought first).trans (if_pos blank)
      rw [same] at stepped
      have bounded' : Bounded rbuf ⟨q + 1, some (q + text'.length), eol.length,
          put ((value ++ text.dropWhile isblank).take (valueSize - 1)) 32,
          s.absent || s.nl.isNone⟩ (text'.drop 1) (rest' ++ x) := by
        cases text' with
        | nil => cases blankText
        | cons d text' =>
            rw [ended.line] at here
            apply Bounded.ended (At.advance (t := [d]) here) ended.eol
            · rw [List.drop_one, List.tail_cons, List.length_cons, Nat.add_assoc,
                Nat.add_comm 1]
            · rfl
      have few : rest'.length < fewer := by
        have := strnl_length found
        omega
      rcases ih (lines_of_strnl lines (not_empty_of_blank blank).1 (not_empty_of_blank blank).2
        found) (cut _) bounded' (put_eq (cut _) 32) few with ⟨s', ran, read⟩
      refine ⟨s', stepped.trans ran, read.value, read.here, read.sought, ?_⟩
      rw [read.absent, foldsOf_text found goesOn, List.forall_mem_cons]
      simp [text_legible found, and_assoc]
  | case3 value text value' c cur blank missing ih =>
      intro s rounds bounded same enough
      rcases Nat.exists_eq_succ_of_ne_zero (Nat.ne_zero_of_lt enough) with ⟨fewer, rfl⟩
      rcases valLoop_round bounded (same ▸ fits) with ⟨q, here, goes⟩
      have longer : Http.strnl (c :: cur ++ x) = none := by
        rw [strnl_append lines.endsLine, missing]
        rfl
      have first : byteAt (rbuf ++ [0]) q = .ok c := here.byteAt rfl
      have stepped := (goes fewer (strnl_missing here longer) first).trans
        (if_pos blank)
      rw [same] at stepped
      have skip := lines_of_skip blank lines
      have bounded' : Bounded rbuf ⟨q + 1, none, 1,
          put ((value ++ text.dropWhile isblank).take (valueSize - 1)) 32,
          s.absent || s.nl.isNone⟩ [] ((cur.dropWhile isblank).drop 1 ++ x) := by
        rcases List.exists_cons_of_ne_nil skip.1 with ⟨d, rest, left⟩
        have next : At rbuf (q + 1) (cur ++ x) := At.advance (t := [c]) here
        apply Bounded.absent next rfl rfl
        rw [dropWhile_append_of_ended skip.1, left]
        rfl
      have few : ((cur.dropWhile isblank).drop 1).length < fewer := by
        have := (List.dropWhile_suffix (l := cur) isblank).length_le
        rw [List.length_drop]
        rw [List.length_cons] at enough
        omega
      rcases ih skip.2 (cut _) bounded' (put_eq (cut _) 32) few with ⟨s', ran, read⟩
      refine ⟨s', stepped.trans ran, read.value, read.here, read.sought, ?_⟩
      rcases textLines_missing lines.endsLine missing with ⟨line, more, firstLine, nul, goesOn⟩
      have folded : line ∈ foldsOf (c :: cur) := by
        rw [foldsOf, firstLine, List.takeWhile_cons_of_pos (goesOn.trans blank)]
        exact List.mem_cons_self ..
      rw [read.absent]
      constructor
      · rintro ⟨-, isSome, -⟩
        cases isSome
      · rintro ⟨-, -, whole⟩
        exact absurd nul (whole line folded)
  | case4 value text value' c cur other =>
      intro s rounds bounded same enough
      rcases Nat.exists_eq_succ_of_ne_zero (Nat.ne_zero_of_lt enough) with ⟨fewer, rfl⟩
      rcases valLoop_round bounded (same ▸ fits) with ⟨q, here, goes⟩
      have first : byteAt (rbuf ++ [0]) q = .ok c := here.byteAt rfl
      have last := foldsOf_last lines.endsLine (Bool.not_eq_true _ ▸ other)
      rcases strnl_ok here with ⟨nl, nlsize, sought⟩
      have stepped := (goes fewer sought first).trans (if_neg other)
      rw [same] at stepped
      refine ⟨_, stepped, rfl, here, sought, ?_⟩
      rw [last.1]
      simp

/-! ## The header lines -/

/-- A search ends at the zero byte behind the buffer. -/
theorem seek_ends (c : UInt8) (p : Nat) (s : List UInt8) :
    seek c p (s ++ [0]) = .ok none ∨ ∃ q, seek c p (s ++ [0]) = .ok (some q) ∧ p ≤ q := by
  induction s generalizing p with
  | nil =>
      rw [List.nil_append, seek]
      by_cases isNul : 0 = c
      · exact .inr ⟨p, if_pos isNul, Nat.le_refl p⟩
      · exact .inl ((if_neg isNul).trans (if_pos rfl))
  | cons x s ih =>
      rw [List.cons_append, seek]
      by_cases here : x = c
      · exact .inr ⟨p, if_pos here, Nat.le_refl p⟩
      · rw [if_neg here]
        by_cases isNul : x = 0
        · exact .inl (if_pos isNul)
        · rw [if_neg isNul]
          rcases ih (p + 1) with nothing | ⟨q, found, behind⟩
          · exact .inl nothing
          · exact .inr ⟨q, found, Nat.le_of_succ_le behind⟩

/-- A search goes past bytes that are neither sought nor zero. -/
theorem seek_past {c : UInt8} {t : List UInt8} (others : ∀ x ∈ t, x ≠ c ∧ x ≠ 0) (p : Nat)
    (s : List UInt8) : seek c p (t ++ s) = seek c (p + t.length) s := by
  induction t generalizing p with
  | nil => rfl
  | cons x t ih =>
      have first := others x (List.mem_cons_self ..)
      rw [List.cons_append, seek, if_neg first.1, if_neg first.2,
        ih fun y mem => others y (List.mem_cons_of_mem _ mem), List.length_cons, Nat.add_assoc,
        Nat.add_comm 1]

theorem dropWhile_colon {text : List UInt8} (colon : 58 ∈ text) :
    text.dropWhile (· != 58) = 58 :: (text.dropWhile (· != 58)).drop 1 := by
  cases rest : text.dropWhile (· != 58) with
  | nil =>
      have all := List.dropWhile_eq_nil_iff.mp rest 58 colon
      exact absurd all (by decide)
  | cons c more =>
      have head := List.head?_dropWhile_not (· != 58) text
      rw [rest] at head
      have isColon : c = 58 := by simpa using head
      rw [isColon]
      rfl

/-- The colon of a line is found before its end. -/
theorem strchr_colon {text tail : List UInt8} (here : At rbuf p (text ++ tail))
    (inside : ∀ c ∈ text, inLine c = true) (colon : 58 ∈ text) :
    strchr (rbuf ++ [0]) p 58 = .ok (some (p + (text.takeWhile (· != 58)).length)) := by
  have split := List.takeWhile_append_dropWhile (p := (· != 58)) (l := text)
  have left := dropWhile_colon colon
  rw [left] at split
  rw [strchr, here.mem]
  conv_lhs => rw [← split, List.append_assoc, List.append_assoc]
  rw [seek_past]
  · rfl
  · intro c mem
    have other := List.mem_takeWhile_imp mem
    have inText := inside c ((List.takeWhile_sublist _).subset mem)
    simp only [bne_iff_ne] at other
    simp only [inLine, Bool.and_eq_true, bne_iff_ne] at inText
    exact ⟨other, inText.2⟩

/-- If a line has no colon, one that is found stands behind its end. -/
theorem strchr_noColon {text eol tail : List UInt8} (here : At rbuf p (text ++ (eol ++ tail)))
    (isEol : eol = [lf] ∨ eol = [cr, lf]) (inside : ∀ c ∈ text, inLine c = true)
    (noColon : 58 ∉ text) : strchr (rbuf ++ [0]) p 58 = .ok none ∨
      ∃ q, strchr (rbuf ++ [0]) p 58 = .ok (some q) ∧ p + text.length < q := by
  have others : ∀ c ∈ text, c ≠ 58 ∧ c ≠ 0 := by
    intro c mem
    have inText := inside c mem
    simp only [inLine, Bool.and_eq_true, bne_iff_ne] at inText
    exact ⟨fun isColon => noColon (isColon ▸ mem), inText.2⟩
  have behind : ∀ c t, c ≠ 58 → c ≠ 0 → eol ++ tail = c :: t →
      strchr (rbuf ++ [0]) p 58 = .ok none ∨
        ∃ q, strchr (rbuf ++ [0]) p 58 = .ok (some q) ∧ p + text.length < q := by
    intro c t notColon notNul first
    rw [strchr, here.mem, List.append_assoc, seek_past others, first, List.cons_append, seek,
      if_neg notColon, if_neg notNul]
    rcases seek_ends 58 (p + text.length + 1) t with nothing | ⟨q, found, far⟩
    · exact .inl nothing
    · exact .inr ⟨q, found, far⟩
  rcases isEol with rfl | rfl
  · exact behind lf tail (by decide) (by decide) rfl
  · exact behind cr (lf :: tail) (by decide) (by decide) rfl

/-- The name of a header. -/
theorem printName_eq {text tail : List UInt8} (here : At rbuf p (text ++ tail))
    (inside : ∀ c ∈ text, inLine c = true) :
    printName (rbuf ++ [0]) p (text.takeWhile (· != 58)).length =
      (text.takeWhile (· != 58)).take (nameSize - 1) := by
  have split := List.takeWhile_append_dropWhile (p := (· != 58)) (l := text)
  have all : (text.takeWhile (· != 58)).takeWhile (· != 0) = text.takeWhile (· != 58) := by
    apply List.takeWhile_eq_self_iff.mpr
    intro c mem
    have inText := inside c ((List.takeWhile_sublist _).subset mem)
    simp only [inLine, Bool.and_eq_true] at inText
    exact inText.2
  rw [printName, here.mem]
  conv_lhs => rw [← split, List.append_assoc, List.append_assoc]
  rw [split, List.take_left, all]

/-- A line that is rejected. -/
theorem headerLines_rejects {callback : Callback} {e rounds fuel : Nat} {req : HttpReq}
    {s : Cursor} (inside : ¬ e ≤ s.cur)
    (rejects : strchr (rbuf ++ [0]) s.cur 58 = .ok none ∨
      ∃ q, strchr (rbuf ++ [0]) s.cur 58 = .ok (some q) ∧ above q s.nl = true) :
    headerLines callback (rbuf ++ [0]) e rounds (fuel + 1) req s = .ok ⟨req, false, s.absent⟩ := by
  rw [headerLines, if_neg inside]
  rcases rejects with nothing | ⟨q, found, far⟩
  · rw [nothing, ok_bind]
  · rw [found, ok_bind]
    exact if_pos far

/-- A header line is read and told. -/
theorem headerLines_header (callback : Callback) {e rounds : Nat} (req : HttpReq) {s : Cursor}
    {cur text rest x : List UInt8} (inside : ¬ e ≤ s.cur)
    (here : At rbuf s.cur (cur ++ x)) (ends : EndsLine cur)
    (sought : strnl (rbuf ++ [0]) s.cur = .ok (s.nl, s.nlsize))
    (found : Http.strnl cur = some (text, rest)) (colon : 58 ∈ text) (lines : Lines rest)
    (enough : rest.length < rounds) :
    ∃ s', ValueRead rbuf x { s with nl := some 0 } s' rest
        (Http.valLoop [] ((text.dropWhile (· != 58)).drop 1) rest) ∧
      ∀ fuel, headerLines callback (rbuf ++ [0]) e rounds (fuel + 1) req s =
        if (req.cb callback (headerTold text rest)).cancel = true then
          .ok ⟨req.cb callback (headerTold text rest), true, s'.absent⟩
        else headerLines callback (rbuf ++ [0]) e rounds fuel
          (noteHeader (req.cb callback (headerTold text rest))
            ((text.takeWhile (· != 58)).take (nameSize - 1))
            (trim (Http.valLoop [] ((text.dropWhile (· != 58)).drop 1) rest).1)) s' := by
  have longer : Http.strnl (cur ++ x) = some (text, rest ++ x) := by
    rw [strnl_append ends, found]
    rfl
  rcases strnl_found here longer with ⟨eol, ended, at_nl⟩
  rw [sought, Except.ok.injEq, Prod.mk.injEq] at at_nl
  rw [ended.line] at here
  have split := List.takeWhile_append_dropWhile (p := (· != 58)) (l := text)
  have left := dropWhile_colon colon
  have size : (text.takeWhile (· != 58)).length + 1 + ((text.dropWhile (· != 58)).drop 1).length =
      text.length := by
    conv_rhs => rw [← split, left]
    rw [List.length_append, List.length_cons]
    omega
  have at_colon := strchr_colon here ended.inside colon
  have before : above (s.cur + (text.takeWhile (· != 58)).length) s.nl = false := by
    rw [at_nl.1]
    simp only [above, decide_eq_false_iff_not]
    omega
  have name : printName (rbuf ++ [0]) s.cur
      (s.cur + (text.takeWhile (· != 58)).length - s.cur) =
        (text.takeWhile (· != 58)).take (nameSize - 1) := by
    rw [Nat.add_sub_cancel_left, printName_eq here ended.inside]
  have bounded : Bounded rbuf { s with
      cur := s.cur + (text.takeWhile (· != 58)).length + 1, value := [] }
      ((text.dropWhile (· != 58)).drop 1) (rest ++ x) := by
    have behind : At rbuf (s.cur + (text.takeWhile (· != 58)).length + 1)
        ((text.dropWhile (· != 58)).drop 1 ++ (eol ++ (rest ++ x))) := by
      rw [← split, left, List.append_assoc] at here
      exact At.advance (t := [58]) here.advance
    apply Bounded.ended behind ended.eol
    · rw [at_nl.1]
      simp only [Option.some.injEq]
      omega
    · exact at_nl.2
  rcases valLoop_walks lines (Nat.zero_le _) bounded rfl enough with ⟨s', ran, read⟩
  have fits : ¬ valueSize ≤ s'.value.length := by
    rw [read.value]
    exact Nat.not_le.mpr (Nat.lt_of_le_of_lt (valLoop_fits _ _ _) (by decide))
  refine ⟨s', ⟨read.value, read.here, read.sought, ?_⟩, fun fuel => ?_⟩
  · rw [read.absent, at_nl.1]
    rfl
  · rw [headerLines, if_neg inside, at_colon, ok_bind]
    dsimp only
    rw [before, name, ran, ok_bind, if_neg Bool.false_ne_true, if_neg fits, read.value]
    rfl

/-- The walk over the header lines does what the parser does with the rest of the buffer, and
every line end that bounds a value is there as long as no line is cut short. -/
theorem headerLines_walks (callback : Callback) {left e rounds : Nat} (req : HttpReq)
    {v x : List UInt8} (lines : Lines v) (closes : Closes left v)
    (ends : e + (left + x.length) = rbuf.length) (enough : v.length < rounds) :
    ∀ {s : Cursor} {fuel : Nat}, At rbuf s.cur (v ++ x) →
      strnl (rbuf ++ [0]) s.cur = .ok (s.nl, s.nlsize) → v.length < fuel →
        ∃ absent, headerLines callback (rbuf ++ [0]) e rounds fuel req s =
            .ok ⟨(Http.headerLines callback left req v).1, (Http.headerLines callback left req v).2,
              absent⟩ ∧
          (absent = false ↔ s.absent = false ∧ Clear callback req (headersOf v)) := by
  have placed : ∀ {p : Nat} {w : List UInt8}, At rbuf p (w ++ x) → (e ≤ p ↔ w.length ≤ left) := by
    intro p w here
    have size := here.length
    rw [List.length_append] at size
    omega
  fun_induction Http.headerLines callback left req v with
  | case1 req cur inside =>
      intro s fuel here sought more
      rcases Nat.exists_eq_succ_of_ne_zero (Nat.ne_zero_of_lt more) with ⟨fewer, rfl⟩
      have empty := closes cur (List.suffix_refl _) lines.endsLine.ne_nil inside
      refine ⟨s.absent, if_pos ((placed here).mpr inside), ?_⟩
      simp [clear_of_empty empty]
  | case2 req cur outside missing =>
      intro s fuel here sought more
      rcases Nat.exists_eq_succ_of_ne_zero (Nat.ne_zero_of_lt more) with ⟨fewer, rfl⟩
      have longer : Http.strnl (cur ++ x) = none := by
        rw [strnl_append lines.endsLine, missing]
        rfl
      rw [strnl_missing here longer, Except.ok.injEq, Prod.mk.injEq] at sought
      have rejects : strchr (rbuf ++ [0]) s.cur 58 = .ok none ∨
          ∃ q, strchr (rbuf ++ [0]) s.cur 58 = .ok (some q) ∧ above q s.nl = true := by
        rw [strchr, here.mem, ← sought.1]
        rcases seek_ends 58 s.cur (cur ++ x) with nothing | ⟨q, found, -⟩
        · exact .inl nothing
        · exact .inr ⟨q, found, rfl⟩
      rcases textLines_missing lines.endsLine missing with ⟨line, more, first, nul, -⟩
      refine ⟨s.absent, headerLines_rejects (outside ∘ (placed here).mp) rejects, ?_⟩
      simp [clear_of_illegible first fun _ => nul]
  | case3 req cur outside text rest found colon name value told cancelled =>
      intro s fuel here sought more
      rcases Nat.exists_eq_succ_of_ne_zero (Nat.ne_zero_of_lt more) with ⟨fewer, rfl⟩
      have after := lines_of_strnl lines (not_empty_of_colon found colon).1
        (not_empty_of_colon found colon).2 found
      rcases headerLines_header callback req (outside ∘ (placed here).mp) here lines.endsLine
        sought found colon after ((strnl_length found).trans enough) with ⟨s', read, goes⟩
      refine ⟨s'.absent, (goes fewer).trans (if_pos cancelled), ?_⟩
      rw [read.absent, clear_found found colon after]
      constructor
      · rintro ⟨kept, -, whole⟩
        exact ⟨kept, whole, fun going => Bool.noConfusion (cancelled.symm.trans going)⟩
      · rintro ⟨kept, whole, -⟩
        exact ⟨kept, rfl, whole⟩
  | case4 req cur outside text rest found colon name value told go ih =>
      intro s fuel here sought more
      rcases Nat.exists_eq_succ_of_ne_zero (Nat.ne_zero_of_lt more) with ⟨fewer, rfl⟩
      have after := lines_of_strnl lines (not_empty_of_colon found colon).1
        (not_empty_of_colon found colon).2 found
      rcases headerLines_header callback req (outside ∘ (placed here).mp) here lines.endsLine
        sought found colon after ((strnl_length found).trans enough) with ⟨s', read, goes⟩
      have shorter := Nat.lt_of_le_of_lt
        (valLoop_length [] ((text.dropWhile (· != 58)).drop 1) rest) (strnl_length found)
      rcases ih (valLoop_append [] _ rest [] after).2
        (closes.of_suffix ((valLoop_suffix _ _ _).trans (strnl_suffix found)))
        (shorter.trans enough) read.here read.sought
        (Nat.lt_of_lt_of_le shorter (Nat.le_of_lt_succ more)) with ⟨absent, ran, clear⟩
      refine ⟨absent, (goes fewer).trans ((if_neg go).trans ran), ?_⟩
      have same := noteHeader_alike told name (trim value.1)
      rw [clear, read.absent, clear_found found colon after, clear_alike same]
      constructor
      · rintro ⟨⟨kept, -, whole⟩, later⟩
        exact ⟨kept, whole, fun _ => later⟩
      · rintro ⟨kept, whole, later⟩
        exact ⟨⟨kept, rfl, whole⟩, later (Bool.not_eq_true _ ▸ go)⟩
  | case5 req cur outside text rest found noColon =>
      intro s fuel here sought more
      rcases Nat.exists_eq_succ_of_ne_zero (Nat.ne_zero_of_lt more) with ⟨fewer, rfl⟩
      have longer : Http.strnl (cur ++ x) = some (text, rest ++ x) := by
        rw [strnl_append lines.endsLine, found]
        rfl
      rcases strnl_found here longer with ⟨eol, ended, at_nl⟩
      rw [sought, Except.ok.injEq, Prod.mk.injEq] at at_nl
      have whole := here
      rw [ended.line] at whole
      have rejects : strchr (rbuf ++ [0]) s.cur 58 = .ok none ∨
          ∃ q, strchr (rbuf ++ [0]) s.cur 58 = .ok (some q) ∧ above q s.nl = true := by
        rcases strchr_noColon whole ended.eol ended.inside noColon with nothing | ⟨q, at_q, far⟩
        · exact .inl nothing
        · rw [at_nl.1]
          exact .inr ⟨q, at_q, decide_eq_true far⟩
      refine ⟨s.absent, headerLines_rejects (outside ∘ (placed here).mp) rejects, ?_⟩
      by_cases empty : text = []
      · have none_left : textLines cur = [] := by rw [textLines_found found, if_pos empty]
        simp [clear_of_empty none_left]
      · have first := textLines_text found empty
        simp [clear_of_illegible first fun colon => absurd colon noColon]

end Btpd.Http.Pointers
