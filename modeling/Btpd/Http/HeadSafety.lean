import Btpd.Http.Pointers
import Btpd.Http.Responses
import Mathlib

/-!
# Heads with zero bytes

`headers_parse` gets a buffer in which an empty line has been found.  Its pointers stay in
the buffer, its loops end and no value is longer than its array.  But the status line may
have a zero byte behind the code: then `strchr` does not find its end, and what it returns
is used.  So may a line that goes on with a header line: then the walk goes on in the middle
of that line.  And the buffer may be full, so that `end` points to where it was before it
got room for one more byte.  On all other buffers the headers are told as they stand.
-/

namespace Btpd.Http

open Text

/-! ## The buffer -/

/-- `http_parse` has found the end of the head at `e`. -/
def EndFound (rbuf : List UInt8) (e : Nat) : Prop :=
  memfind [cr, lf, cr, lf] rbuf = .ok (some e) ∨
    memfind [cr, lf, cr, lf] rbuf = .ok none ∧ memfind [lf, lf] rbuf = .ok (some e)

/-- `http_parse` hands over what is in `rbuf`, an allocation of this size, and `end`, with room
for the byte behind it. -/
def Handed (rbuf : List UInt8) (size : Nat) (p : Option Nat) : Prop :=
  ∃ e, EndFound rbuf e ∧ ((atHead rbuf size).accommodate 1 e).2 = p

theorem EndFound.isHead {rbuf : List UInt8} {e : Nat} (ends : EndFound rbuf e) :
    ∃ head x, rbuf = head ++ x ∧ IsHead head e := by
  have found : ∀ {word : List UInt8}, memfind word rbuf = .ok (some e) →
      search word rbuf = some e := by
    intro word at_e
    rw [memfind] at at_e
    split at at_e
    · cases at_e
    · exact Except.ok.inj at_e
  have cut : ∀ dlen, IsHead (rbuf.take (e + dlen)) e ∧ e + dlen ≤ rbuf.length →
      ∃ head x, rbuf = head ++ x ∧ IsHead head e := fun dlen isHead =>
    ⟨_, _, (List.take_append_drop (e + dlen) rbuf).symm, isHead.1⟩
  rcases ends with crlf | ⟨-, lflf⟩
  · exact cut 4 (isHead_of_search (.inl ⟨rfl, found crlf⟩))
  · exact cut 2 (isHead_of_search (.inr ⟨rfl, found lflf⟩))

/-- `end` points to the end of the head, unless the buffer is full. -/
theorem Handed.cases {rbuf : List UInt8} {size : Nat} {p : Option Nat}
    (handed : Handed rbuf size p) :
    ∃ e, EndFound rbuf e ∧ (rbuf.length < size ∧ p = some e ∨ ¬ rbuf.length < size ∧ p = none) := by
  rcases handed with ⟨e, ends, rfl⟩
  refine ⟨e, ends, ?_⟩
  by_cases room : rbuf.length < size
  · exact .inl ⟨room, by rw [accommodate_room room]⟩
  · exact .inr ⟨room, by rw [accommodate_full (Nat.le_of_not_lt room)]⟩

/-- What is left of a head where it ends is an empty line. -/
theorem IsHead.closes {head : List UInt8} {e : Nat} (isHead : IsHead head e) :
    Closes (head.length - e) head := by
  have tails : ∀ (u l : List UInt8), (∀ w ∈ l.tails, w ≠ [] → textLines w = []) →
      Closes ((u ++ l).length - u.length) (u ++ l) := by
    intro u l empty w inside some_byte short
    rw [List.length_append, Nat.add_sub_cancel_left] at short
    exact empty w ((List.mem_tails _ _).mpr
      (List.suffix_of_suffix_length_le inside (List.suffix_append u l) short)) some_byte
  cases isHead with
  | full u => exact tails u _ (by decide)
  | bare u => exact tails u _ (by decide)

/-- The lines of a head are the same if more follows. -/
theorem textLines_append {v : List UInt8} (lines : Lines v) (x : List UInt8) :
    textLines (v ++ x) = textLines v := by
  have stops : ∀ a b : List (List UInt8), (a ++ [] :: b).takeWhile (· ≠ []) =
      a.takeWhile (· ≠ []) := by
    intro a b
    rw [List.takeWhile_append]
    split
    · rename_i all
      rw [(List.takeWhile_sublist _).eq_of_length all]
      exact List.append_nil a
    · rfl
  -- the lines before the empty one, whatever stands behind it
  have cut : ∀ u t : List UInt8, (u = [] ∨ EndsLine u) → lf ∉ t → chop t = [] →
      ∃ a, ∀ y, textLines (u ++ t ++ lf :: y) = List.takeWhile (· ≠ []) a := by
    intro u t before noLf empty
    rcases before with rfl | ⟨w, rfl⟩
    · refine ⟨[], fun y => ?_⟩
      rw [List.nil_append, textLines, List.splitOn_append_cons_self_of_not_mem noLf, List.map_cons,
        empty]
      exact stops [] _
    · refine ⟨(w.splitOn lf).map chop, fun y => ?_⟩
      rw [textLines, List.append_assoc, List.append_assoc, List.singleton_append,
        List.splitOn_append_cons_self, List.splitOn_append_cons_self_of_not_mem noLf,
        List.map_append, List.map_cons, empty]
      exact stops _ _
  rcases lines with ⟨u, l, before, rfl | rfl, rfl⟩
  · rcases cut u [] before (by decide) rfl with ⟨a, same⟩
    rw [List.append_nil] at same
    rw [List.append_assoc]
    exact (same x).trans (same []).symm
  · rcases cut u [cr] before (by decide) (by decide) with ⟨a, same⟩
    have shape : ∀ y, u ++ [cr, lf] ++ y = u ++ [cr] ++ lf :: y := by simp
    have whole := shape []
    rw [List.append_nil] at whole
    rw [shape, whole]
    exact (same x).trans (same []).symm

theorem headersOf_append {v : List UInt8} (lines : Lines v) (x : List UInt8) :
    headersOf (v ++ x) = headersOf v := by
  rw [headersOf, textLines_append lines, headersOf]

/-! ## What `headers_parse` is to do -/

/-- What stands behind the first line. -/
def behindStatus (rbuf : List UInt8) : List UInt8 := (rbuf.dropWhile (· != lf)).drop 1

/-- The code in the status line; `sscanf` reads up to the zero byte that has been written. -/
def StatusCode (rbuf : List UInt8) (code : Int) : Prop :=
  ∃ rest, scanStatus (rbuf ++ [0]) = .got code rest

/-- The status code and the headers. -/
def report (rbuf : List UInt8) (code : Int) : List HttpResponse :=
  .code code :: (headersOf (behindStatus rbuf)).map FoldedLine.response

/-- The walk stays in the buffer, uses no line end that is not there, tells no value that is
too long, and rejects the buffer or tells the headers that it has. -/
def Parses (callback : Callback) (req : HttpReq) (rbuf : List UInt8)
    (walk : Pointers.Walk Pointers.Outcome) : Prop :=
  ∃ w, walk = .ok w ∧ w.absent = false ∧
    (∃ told, w.req.told = req.told ++ told ∧ ∀ n v, .header n v ∈ told → v.length ≤ 871) ∧
    (w.ok = true → ∃ code, StatusCode rbuf code ∧
      w.req.told = (deliver callback req (report rbuf code)).told)

/-- Nothing stands in the way.  If what follows the first line is looked at, there is no zero
byte in that line and the buffer is not full; and there is none in a line that goes on with a
header line, if all the lines before are header lines and the callback has not cancelled the
request. -/
structure Clean (callback : Callback) (req : HttpReq) (rbuf : List UInt8) (size : Nat) :
    Prop where
  status : ∀ code, StatusCode rbuf code → (req.cb callback (.code code)).cancel = false →
    0 ∉ rbuf.takeWhile (· != lf)
  room : ∀ code, StatusCode rbuf code → (req.cb callback (.code code)).cancel = false →
    rbuf.length < size
  folds : ∀ code, StatusCode rbuf code → ∀ before h after,
    headersOf (behindStatus rbuf) = before ++ h :: after → (∀ g ∈ before, g.Legible) →
      h.Legible →
      (deliver callback req (.code code :: before.map FoldedLine.response)).cancel = false →
        h.Whole

theorem clear_iff {callback : Callback} {req : HttpReq} (going : req.cancel = false)
    (hs : List FoldedLine) : Clear callback req hs ↔
      ∀ before h after, hs = before ++ h :: after → (∀ g ∈ before, g.Legible) → h.Legible →
        (deliver callback req (before.map FoldedLine.response)).cancel = false → h.Whole := by
  induction hs generalizing req with
  | nil =>
      constructor
      · intro _ before h after split
        simp at split
      · intro _
        trivial
  | cons g hs ih =>
      rw [Clear]
      constructor
      · intro clear before h after split legible here gone
        cases before with
        | nil =>
            rw [List.nil_append, List.cons.injEq] at split
            rw [← split.1] at here ⊢
            exact (clear here).1
        | cons b before =>
            rw [List.cons_append, List.cons.injEq] at split
            rcases split with ⟨rfl, rest⟩
            rw [List.map_cons, deliver] at gone
            by_cases cancelled : (req.cb callback g.response).cancel = true
            · rw [if_pos cancelled, cancelled] at gone
              cases gone
            · rw [if_neg cancelled] at gone
              have more := Bool.not_eq_true _ ▸ cancelled
              have later := (clear (legible g (List.mem_cons_self ..))).2 more
              exact (ih more).mp later before h after rest
                (fun d mem => legible d (List.mem_cons_of_mem _ mem)) here gone
      · intro each legible
        refine ⟨each [] g hs rfl (fun _ mem => by cases mem) legible going, fun more => ?_⟩
        apply (ih more).mpr
        intro before h after rest all here gone
        apply each (g :: before) h after (by rw [rest]; rfl)
        · intro d mem
          rcases List.mem_cons.mp mem with rfl | inside
          · exact legible
          · exact all d inside
        · exact here
        · rw [List.map_cons, deliver, if_neg (by rw [more]; exact Bool.false_ne_true)]
          exact gone

/-! ## What it does -/

theorem scanStatus_terminates : Terminates scanStatus := by
  have literal : ∀ text : List UInt8, 0 ∉ text → Terminates (scanText text) :=
    fun _ noNul => scanText_terminates noNul
  exact (literal (ascii "HTTP/") (by decide)).andThen fun _ =>
    scanInt_terminates.andThen fun _ =>
      (literal (ascii ".") (by decide)).andThen fun _ =>
        scanInt_terminates.andThen fun _ => scanInt_terminates

/-- Every value that is told fits in its array. -/
theorem headerLines_values (callback : Callback) (left : Nat) (req : HttpReq) (cur : List UInt8) :
    ∃ told, (headerLines callback left req cur).1.told = req.told ++ told ∧
      ∀ n v, .header n v ∈ told → v.length ≤ 871 := by
  have fits : ∀ text rest : List UInt8, (trim (valLoop [] text rest).1).length ≤ 871 :=
    fun text rest => (List.rdropWhile_prefix _ _).length_le.trans (valLoop_fits [] text rest)
  fun_induction headerLines callback left req cur with
  | case1 req => exact ⟨[], (List.append_nil _).symm, fun _ _ mem => by cases mem⟩
  | case2 req => exact ⟨[], (List.append_nil _).symm, fun _ _ mem => by cases mem⟩
  | case3 req cur outside text rest found colon name value told cancelled =>
      refine ⟨[.header name (trim value.1)], rfl, fun n v mem => ?_⟩
      rw [List.mem_singleton, HttpResponse.header.injEq] at mem
      rw [mem.2]
      exact fits _ rest
  | case4 req cur outside text rest found colon name value told go ih =>
      rcases ih with ⟨later, same, short⟩
      refine ⟨.header name (trim value.1) :: later, ?_, fun n v mem => ?_⟩
      · rw [same, (noteHeader_alike told name (trim value.1)).told]
        exact List.append_assoc req.told [.header name (trim value.1)] later
      · rcases List.mem_cons.mp mem with here | there
        · rw [(HttpResponse.header.inj here).2]
          exact fits _ rest
        · exact short n v there
  | case5 req => exact ⟨[], (List.append_nil _).symm, fun _ _ mem => by cases mem⟩

/-- The request when the status code is told. -/
def statusTold (callback : Callback) (req : HttpReq) (code : Int) : HttpReq :=
  { req with chunked := false, length := -1 }.cb callback (.code code)

theorem statusTold_alike (callback : Callback) (req : HttpReq) (code : Int) :
    TellsAlike (statusTold callback req code) (req.cb callback (.code code)) := by
  have alike : TellsAlike { req with chunked := false, length := -1 } req := ⟨rfl, rfl⟩
  exact alike.cb callback (.code code)

theorem firstLine_split {line : List UInt8} (noLf : lf ∉ line) (rest : List UInt8) :
    (line ++ lf :: rest).takeWhile (· != lf) = line ∧
      (line ++ lf :: rest).dropWhile (· != lf) = lf :: rest := by
  have others : ∀ c ∈ line, (c != lf) = true := by
    intro c mem
    rw [bne_iff_ne]
    rintro rfl
    exact noLf mem
  rw [List.takeWhile_append_of_pos others, List.dropWhile_append_of_pos others]
  exact ⟨List.append_nil line, rfl⟩

/-- The first line of which `strchr` finds the end. -/
theorem firstLine_of_strchrNl {rbuf nl : List UInt8} (at_nl : strchrNl rbuf = some nl) :
    0 ∉ rbuf.takeWhile (· != lf) ∧ behindStatus rbuf = nl.drop 1 := by
  rcases strchrNl_eq at_nl with ⟨rest, rfl, split⟩
  have apart : lf ∉ rbuf.takeWhile inLine := fun mem =>
    absurd (List.mem_takeWhile_imp mem) (by decide)
  have first := firstLine_split apart rest
  rw [← split] at first
  constructor
  · rw [first.1]
    intro mem
    exact absurd (List.mem_takeWhile_imp mem) (by decide)
  · rw [behindStatus, first.2]

/-- If there is no zero byte in the first line, `strchr` finds its end. -/
theorem strchrNl_of_firstLine {rbuf : List UInt8} (ends : lf ∈ rbuf)
    (noNul : 0 ∉ rbuf.takeWhile (· != lf)) : ∃ nl, strchrNl rbuf = some nl := by
  rcases List.eq_append_cons_of_mem ends with ⟨line, rest, rfl, noLf⟩
  rw [(firstLine_split noLf rest).1] at noNul
  have inside : ∀ c ∈ line, inLine c = true := by
    intro c mem
    rw [inLine, Bool.and_eq_true, bne_iff_ne, bne_iff_ne]
    exact ⟨fun isLf => noLf (isLf ▸ mem), fun isNul => noNul (isNul ▸ mem)⟩
  refine ⟨lf :: rest, ?_⟩
  rw [strchrNl, List.dropWhile_append_of_pos inside]
  rfl

theorem headersParse_going {callback : Callback} {req : HttpReq} {rbuf : List UInt8} {e fuel : Nat}
    {code : Int} {rest : List UInt8} {first nlsize : Nat} {nl : Option Nat}
    {parsed : Pointers.Outcome} (scanned : scanStatus (rbuf ++ [0]) = .got code rest)
    (going : (statusTold callback req code).cancel = false)
    (found : Pointers.strchr (rbuf ++ [0]) 0 lf = .ok (some first))
    (sought : Pointers.strnl (rbuf ++ [0]) (first + 1) = .ok (nl, nlsize))
    (walked : Pointers.headerLines callback (rbuf ++ [0]) e fuel fuel
      (statusTold callback req code) ⟨first + 1, nl, nlsize, [], false⟩ = .ok parsed) :
    Pointers.headersParse callback fuel req rbuf (some e) =
      if parsed.ok && !parsed.req.cancel then
        .ok { parsed with
          req := { parsed.req with
            pstate := if parsed.req.chunked then .chunkSize else .idData } }
      else .ok parsed := by
  rw [statusTold] at going walked
  rw [Pointers.headersParse, scanned]
  dsimp only
  rw [if_neg (by rw [going]; exact Bool.false_ne_true), found, Pointers.ok_bind]
  dsimp only
  rw [sought, Pointers.ok_bind]
  dsimp only
  rw [walked, Pointers.ok_bind]

/-- What happens behind the status line. -/
theorem behindStatus_walks {callback : Callback} {req : HttpReq} {rbuf : List UInt8} {e fuel : Nat}
    {code : Int} {rest nl : List UInt8} (ends : EndFound rbuf e) (enough : rbuf.length < fuel)
    (scanned : scanStatus (rbuf ++ [0]) = .got code rest)
    (going : (statusTold callback req code).cancel = false) (at_nl : strchrNl rbuf = some nl) :
    ∃ v left req' absent,
      headersRest callback (statusTold callback req code) rbuf (some e) =
        .ok (req', (headerLines callback left (statusTold callback req code) v).2) ∧
      req'.told = (headerLines callback left (statusTold callback req code) v).1.told ∧
      Pointers.headersParse callback fuel req rbuf (some e) =
        .ok ⟨req', (headerLines callback left (statusTold callback req code) v).2, absent⟩ ∧
      (absent = false ↔ Clear callback (statusTold callback req code) (headersOf v)) ∧
      Lines v ∧ Closes left v ∧ headersOf (behindStatus rbuf) = headersOf v := by
  rcases ends.isHead with ⟨head, x, rfl, isHead⟩
  rcases isHead.lines with ⟨lines, not_lf, not_crlf, inside⟩
  have longer := at_nl
  rw [strchrNl_append lines.endsLine] at longer
  rcases Option.map_eq_some_iff.mp longer with ⟨nl', found, rfl⟩
  rcases strchrNl_eq found with ⟨v, rfl, split⟩
  have behind : Lines v := lines_of_strchrNl lines not_lf not_crlf found
  have suffix : v <:+ head := ⟨head.takeWhile inLine ++ [lf], by
    rw [List.append_assoc, List.singleton_append]
    exact split.symm⟩
  have closes := isHead.closes.of_suffix suffix
  have first := (firstLine_of_strchrNl at_nl).2
  have told : headersOf (behindStatus (head ++ x)) = headersOf v := by
    rw [first]
    exact headersOf_append behind x
  -- the pointers
  have start : Pointers.At (head ++ x) 0 (head.takeWhile inLine ++ ([lf] ++ (v ++ x))) := by
    refine ⟨Nat.zero_le _, ?_⟩
    rw [List.drop_zero]
    conv_lhs => rw [split, List.append_assoc]
    rfl
  have size : (head ++ x).takeWhile inLine = head.takeWhile inLine :=
    takeWhile_append_of_ended (dropWhile_ne_nil_of_mem lines.endsLine.mem inLine_lf) x
  have sought := Pointers.strchr_lf (Pointers.At.start (head ++ x))
  rw [at_nl, size, Option.map_some, Nat.zero_add] at sought
  have cur := start.advance.advance
  rw [Nat.zero_add] at cur
  rcases Pointers.strnl_ok cur with ⟨nl, nlsize, end_found⟩
  have short : v.length < fuel := by
    have := suffix.length_le
    rw [List.length_append] at enough
    omega
  have place : e + (head.length - e + x.length) = (head ++ x).length := by
    rw [List.length_append]
    omega
  let s : Pointers.Cursor :=
    ⟨(head.takeWhile inLine).length + 1, nl, nlsize, [], false⟩
  have here : Pointers.At (head ++ x) s.cur (v ++ x) := cur
  have at_end : Pointers.strnl (head ++ x ++ [0]) s.cur = .ok (s.nl, s.nlsize) := end_found
  rcases Pointers.headerLines_walks callback (statusTold callback req code) behind closes place short
    here at_end short with ⟨absent, walked, clear⟩
  have ran := headersParse_going scanned going sought end_found walked
  have rested : headersRest callback (statusTold callback req code) (head ++ x) (some e) =
      headersRest callback (statusTold callback req code) head (some e) :=
    headersRest_append isHead x
  rw [headersRest.eq_def callback _ head (some e), if_neg (by rw [going]; exact Bool.false_ne_true),
    found] at rested
  dsimp only at ran rested
  rw [List.drop_succ_cons, List.drop_zero] at rested
  refine ⟨v, head.length - e, ?_⟩
  rw [rested, ran]
  rcases headerLines callback (head.length - e) (statusTold callback req code) v with ⟨req', ok⟩
  dsimp only
  have cleared : absent = false ↔
      Clear callback (statusTold callback req code) (headersOf v) :=
    clear.trans (and_iff_right rfl)
  by_cases accepted : (ok && !req'.cancel) = true
  · have isOk : ok = true := (Bool.and_eq_true_iff.mp accepted).1
    rw [if_pos accepted, if_pos accepted, isOk]
    exact ⟨_, absent, rfl, rfl, rfl, cleared, behind, closes, told⟩
  · rw [if_neg accepted, if_neg accepted]
    exact ⟨_, absent, rfl, rfl, rfl, cleared, behind, closes, told⟩

/-- A status line that is rejected. -/
theorem headersParse_mismatch (callback : Callback) (req : HttpReq) {rbuf : List UInt8}
    (scanned : scanStatus (rbuf ++ [0]) = .mismatch) (p : Option Nat) (fuel : Nat) :
    Pointers.headersParse callback fuel req rbuf p =
        .ok ⟨{ req with chunked := false, length := -1 }, false, false⟩ ∧
      headersParse callback req rbuf p =
        .ok ({ req with chunked := false, length := -1 }, false) := by
  constructor
  · rw [Pointers.headersParse, scanned]
  · rw [scanStatus_terminates] at scanned
    rw [headersParse]
    cases found : scanStatus rbuf with
    | got code rest =>
        rw [found] at scanned
        cases scanned
    | mismatch => rfl
    | exhausted => rfl

/-- The callback cancels the request when it is told the status code. -/
theorem headersParse_cancelled {callback : Callback} {req : HttpReq} {rbuf : List UInt8}
    {code : Int} {rest : List UInt8} (scanned : scanStatus (rbuf ++ [0]) = .got code rest)
    (cancelled : (statusTold callback req code).cancel = true) (p : Option Nat) (fuel : Nat) :
    Pointers.headersParse callback fuel req rbuf p =
        .ok ⟨statusTold callback req code, true, false⟩ ∧
      headersRest callback (statusTold callback req code) rbuf p =
        .ok (statusTold callback req code, true) := by
  constructor
  · rw [Pointers.headersParse, scanned]
    exact if_pos cancelled
  · exact if_pos cancelled

/-- The first line has a zero byte. -/
theorem headersParse_null {callback : Callback} {req : HttpReq} {rbuf : List UInt8}
    {code : Int} {rest : List UInt8} (scanned : scanStatus (rbuf ++ [0]) = .got code rest)
    (going : (statusTold callback req code).cancel = false) (missing : strchrNl rbuf = none)
    (p : Option Nat) (fuel : Nat) :
    Pointers.headersParse callback fuel req rbuf p = .error .null ∧
      headersRest callback (statusTold callback req code) rbuf p = .error .nullPointer := by
  have stays : ¬ (statusTold callback req code).cancel = true := by
    rw [going]
    exact Bool.false_ne_true
  constructor
  · have nowhere := Pointers.strchr_lf (Pointers.At.start rbuf)
    rw [missing, Option.map_none] at nowhere
    rw [Pointers.headersParse, scanned]
    dsimp only
    rw [statusTold] at stays
    rw [if_neg stays, nowhere]
    rfl
  · rw [headersRest, if_neg stays, missing]

/-- The buffer is full, so that `end` points into the block that has been freed. -/
theorem headersParse_stale {callback : Callback} {req : HttpReq} {rbuf : List UInt8}
    {code : Int} {rest nl : List UInt8} (scanned : scanStatus (rbuf ++ [0]) = .got code rest)
    (going : (statusTold callback req code).cancel = false) (at_nl : strchrNl rbuf = some nl)
    (fuel : Nat) :
    Pointers.headersParse callback fuel req rbuf none = .error .stale ∧
      headersRest callback (statusTold callback req code) rbuf none = .error .stalePointer := by
  have stays : ¬ (statusTold callback req code).cancel = true := by
    rw [going]
    exact Bool.false_ne_true
  constructor
  · rcases strchrNl_eq at_nl with ⟨v, -, split⟩
    have start : Pointers.At rbuf 0 (rbuf.takeWhile inLine ++ ([lf] ++ v)) :=
      ⟨Nat.zero_le _, split⟩
    have cur := start.advance.advance
    rw [Nat.zero_add] at cur
    have sought := Pointers.strchr_lf (Pointers.At.start rbuf)
    rw [at_nl, Option.map_some, Nat.zero_add] at sought
    rcases Pointers.strnl_ok cur with ⟨next, nlsize, found⟩
    have behind : Pointers.strnl (rbuf ++ [0]) ((rbuf.takeWhile inLine).length + 1) =
        .ok (next, nlsize) := found
    rw [Pointers.headersParse, scanned]
    dsimp only
    rw [statusTold] at stays
    rw [if_neg stays, sought, Pointers.ok_bind]
    dsimp only
    rw [behind, Pointers.ok_bind]
  · rw [headersRest, if_neg stays, at_nl]

theorem headersParse_got {callback : Callback} {req : HttpReq} {rbuf : List UInt8} {p : Option Nat}
    {code : Int} {rest : List UInt8} (scanned : scanStatus (rbuf ++ [0]) = .got code rest) :
    headersParse callback req rbuf p =
      headersRest callback (statusTold callback req code) rbuf p := by
  rw [scanStatus_terminates] at scanned
  rw [headersParse]
  cases found : scanStatus rbuf with
  | got code' rest' =>
      rw [found] at scanned
      have same := (Scan.got.inj scanned).1
      rw [← same]
      rfl
  | mismatch =>
      rw [found] at scanned
      cases scanned
  | exhausted =>
      rw [found] at scanned
      cases scanned

/-- `sscanf` stops at the zero byte. -/
theorem scanStatus_ends (rbuf : List UInt8) : scanStatus (rbuf ++ [0]) = .mismatch ∨
    ∃ code rest, scanStatus (rbuf ++ [0]) = .got code rest := by
  rw [scanStatus_terminates]
  cases scanStatus rbuf with
  | got code rest => exact .inr ⟨code, rest ++ [0], rfl⟩
  | mismatch => exact .inl rfl
  | exhausted => exact .inl rfl

/-- The walk does what the parser does: it rejects the same buffers and tells the same, and
where the parser ends with a null pointer or a stale one it uses one. -/
def Mirrors (parsed : Except Fault (HttpReq × Bool)) (walk : Pointers.Walk Pointers.Outcome) :
    Prop :=
  (∃ req ok absent, parsed = .ok (req, ok) ∧ walk = .ok ⟨req, ok, absent⟩) ∨
    parsed = .error .nullPointer ∧ walk = .error .null ∨
    parsed = .error .stalePointer ∧ walk = .error .stale

theorem headersParse_mirrors (callback : Callback) (req : HttpReq) {rbuf : List UInt8}
    {size fuel : Nat} {p : Option Nat} (handed : Handed rbuf size p)
    (enough : rbuf.length < fuel) :
    Mirrors (headersParse callback req rbuf p)
      (Pointers.headersParse callback fuel req rbuf p) := by
  rcases handed.cases with ⟨e, ends, place⟩
  rcases scanStatus_ends rbuf with mismatch | ⟨code, rest, scanned⟩
  · have rejected := headersParse_mismatch callback req mismatch p fuel
    exact .inl ⟨_, _, _, rejected.2, rejected.1⟩
  · rw [headersParse_got scanned]
    cases going : (statusTold callback req code).cancel with
    | true =>
        have ran := headersParse_cancelled scanned going p fuel
        exact .inl ⟨_, _, _, ran.2, ran.1⟩
    | false =>
        cases at_nl : strchrNl rbuf with
        | none =>
            have ran := headersParse_null scanned going at_nl p fuel
            exact .inr (.inl ⟨ran.2, ran.1⟩)
        | some nl =>
            rcases place with ⟨-, rfl⟩ | ⟨-, rfl⟩
            · rcases behindStatus_walks ends enough scanned going at_nl with
                ⟨v, left, req', absent, parsed, -, walked, -⟩
              exact .inl ⟨_, _, _, parsed, walked⟩
            · have ran := headersParse_stale scanned going at_nl fuel
              exact .inr (.inr ⟨ran.2, ran.1⟩)

/-- A walk that uses a pointer that is not there does not parse the buffer. -/
theorem not_parses_of_error {callback : Callback} {req : HttpReq} {rbuf : List UInt8}
    {walk : Pointers.Walk Pointers.Outcome} {stray : Pointers.Stray} (ran : walk = .error stray) :
    ¬ Parses callback req rbuf walk := by
  rintro ⟨w, walked, -⟩
  rw [ran] at walked
  cases walked

theorem StatusCode.unique {rbuf : List UInt8} {code code' : Int} (here : StatusCode rbuf code)
    (again : StatusCode rbuf code') : code' = code := by
  rcases here with ⟨rest, scanned⟩
  rcases again with ⟨rest', scanned'⟩
  rw [scanned] at scanned'
  exact (Scan.got.inj scanned').1.symm

/-- The status code, and what is told behind it. -/
theorem deliver_code (callback : Callback) (req : HttpReq) (code : Int)
    (more : List HttpResponse) : deliver callback req (.code code :: more) =
      if (statusTold callback req code).cancel = true then req.cb callback (.code code)
      else deliver callback (req.cb callback (.code code)) more := by
  rw [deliver, (statusTold_alike callback req code).cancel]

/-- Without a status code there is nothing to tell. -/
theorem parses_iff_mismatch (callback : Callback) (req : HttpReq) {rbuf : List UInt8} (size : Nat)
    (mismatch : scanStatus (rbuf ++ [0]) = .mismatch) (p : Option Nat) (fuel : Nat) :
    Parses callback req rbuf (Pointers.headersParse callback fuel req rbuf p) ↔
      Clean callback req rbuf size := by
  have noCode : ∀ code, ¬ StatusCode rbuf code := by
    rintro code ⟨rest, scanned⟩
    rw [mismatch] at scanned
    cases scanned
  constructor
  · intro _
    exact ⟨fun code here => absurd here (noCode code), fun code here => absurd here (noCode code),
      fun code here => absurd here (noCode code)⟩
  · intro _
    refine ⟨_, (headersParse_mismatch callback req mismatch p fuel).1, rfl,
      ⟨[], (List.append_nil _).symm, fun _ _ mem => by cases mem⟩, ?_⟩
    intro accepted
    cases accepted

/-- If the callback cancels the request at the status code, nothing more is told. -/
theorem parses_iff_cancelled {callback : Callback} {req : HttpReq} {rbuf : List UInt8} (size : Nat)
    {code : Int} {rest : List UInt8} (scanned : scanStatus (rbuf ++ [0]) = .got code rest)
    (cancelled : (statusTold callback req code).cancel = true) (p : Option Nat) (fuel : Nat) :
    Parses callback req rbuf (Pointers.headersParse callback fuel req rbuf p) ↔
      Clean callback req rbuf size := by
  have here : StatusCode rbuf code := ⟨rest, scanned⟩
  have alike := statusTold_alike callback req code
  have stopped : ∀ {code'}, StatusCode rbuf code' →
      ¬ (req.cb callback (.code code')).cancel = false := by
    intro code' again gone
    rw [here.unique again, ← alike.cancel, cancelled] at gone
    cases gone
  constructor
  · intro _
    constructor
    · exact fun code' again gone => absurd gone (stopped again)
    · exact fun code' again gone => absurd gone (stopped again)
    · intro code' again before h after _ _ _ gone
      rw [here.unique again, deliver_code, if_pos cancelled, ← alike.cancel, cancelled] at gone
      cases gone
  · intro _
    refine ⟨_, (headersParse_cancelled scanned cancelled p fuel).1, rfl,
      ⟨[.code code], rfl, fun n v mem => ?_⟩, fun _ => ⟨code, here, ?_⟩⟩
    · cases List.mem_singleton.mp mem
    · rw [report, deliver_code, if_pos cancelled]
      exact alike.told

/-- With room behind the buffer it depends on the lines that go on with a header line. -/
theorem parses_iff_walks {callback : Callback} {req : HttpReq} {rbuf : List UInt8}
    {size e fuel : Nat} {code : Int} {rest nl : List UInt8} (ends : EndFound rbuf e)
    (enough : rbuf.length < fuel) (scanned : scanStatus (rbuf ++ [0]) = .got code rest)
    (going : (statusTold callback req code).cancel = false) (at_nl : strchrNl rbuf = some nl)
    (room : rbuf.length < size) :
    Parses callback req rbuf (Pointers.headersParse callback fuel req rbuf (some e)) ↔
      Clean callback req rbuf size := by
  have here : StatusCode rbuf code := ⟨rest, scanned⟩
  have alike := statusTold_alike callback req code
  have gone : (req.cb callback (.code code)).cancel = false := alike.cancel ▸ going
  have stays : ¬ (statusTold callback req code).cancel = true := by
    rw [going]
    exact Bool.false_ne_true
  rcases behindStatus_walks ends enough scanned going at_nl with
    ⟨v, left, req', absent, -, told, walked, clear, lines, closes, same⟩
  have folded := clear
  rw [clear_alike alike, ← same, clear_iff gone] at folded
  constructor
  · rintro ⟨w, out, present, -⟩
    rw [walked, Except.ok.injEq] at out
    rw [← out] at present
    have folds := folded.mp present
    constructor
    · intro code' _ _
      exact (firstLine_of_strchrNl at_nl).1
    · exact fun _ _ _ => room
    · intro code' again before h after split legible whole more
      rw [here.unique again, deliver_code, if_neg stays] at more
      exact folds before h after split legible whole more
  · intro clean
    have present : absent = false := by
      apply folded.mpr
      intro before h after split legible whole more
      apply clean.folds code here before h after split legible whole
      rw [deliver_code, if_neg stays]
      exact more
    refine ⟨_, walked, present, ?_, fun accepted => ⟨code, here, ?_⟩⟩
    · rcases headerLines_values callback left (statusTold callback req code) v with
        ⟨later, grown, short⟩
      refine ⟨.code code :: later, ?_, fun n v mem => ?_⟩
      · rw [told, grown]
        exact List.append_assoc req.told [.code code] later
      · rcases List.mem_cons.mp mem with isCode | there
        · cases isCode
        · exact short n v there
    · rw [told, report, deliver_code, if_neg stays,
        headerLines_tells lines closes (clear.mp present) accepted, same]
      exact (deliver_alike alike callback _).told

/-- The buffer is parsed as it should be exactly if no zero byte stands in the way and there
is room behind it. -/
theorem headersParse_parses_iff (callback : Callback) (req : HttpReq) {rbuf : List UInt8}
    {size fuel : Nat} {p : Option Nat} (handed : Handed rbuf size p)
    (enough : rbuf.length < fuel) :
    Parses callback req rbuf (Pointers.headersParse callback fuel req rbuf p) ↔
      Clean callback req rbuf size := by
  rcases handed.cases with ⟨e, ends, place⟩
  rcases scanStatus_ends rbuf with mismatch | ⟨code, rest, scanned⟩
  · exact parses_iff_mismatch callback req size mismatch p fuel
  cases going : (statusTold callback req code).cancel with
  | true => exact parses_iff_cancelled size scanned going p fuel
  | false =>
      have here : StatusCode rbuf code := ⟨rest, scanned⟩
      have gone : (req.cb callback (.code code)).cancel = false :=
        (statusTold_alike callback req code).cancel ▸ going
      cases at_nl : strchrNl rbuf with
      | none =>
          have ran := (headersParse_null scanned going at_nl p fuel).1
          refine iff_of_false (not_parses_of_error ran) fun clean => ?_
          have noNul := clean.status code here gone
          rcases ends.isHead with ⟨head, x, rfl, isHead⟩
          have line := List.mem_append_left x isHead.lines.1.endsLine.mem
          rcases strchrNl_of_firstLine line noNul with ⟨nl, found⟩
          rw [at_nl] at found
          cases found
      | some nl =>
          rcases place with ⟨room, rfl⟩ | ⟨full, rfl⟩
          · exact parses_iff_walks ends enough scanned going at_nl room
          · have ran := (headersParse_stale scanned going at_nl fuel).1
            exact iff_of_false (not_parses_of_error ran) fun clean =>
              absurd (clean.room code here gone) full

/-- A zero byte behind the status code. -/
def nulStatus : List UInt8 := ascii "HTTP/1.0 200" ++ [0, lf, lf]

/-- A zero byte in a line that goes on with a header line. -/
def nulFold : List UInt8 :=
  ascii "HTTP/1.0 200" ++ lf :: ascii "a: b" ++ lf :: 32 :: 0 :: ascii "x: y" ++ [lf, lf]

/-- A buffer of 4096 bytes that one read has filled. -/
theorem fullBuffer_stale : Handed (fullHead ++ fullBody) 4096 none ∧
    Pointers.headersParse patient 4097 httpGet (fullHead ++ fullBody) none = .error .stale := by
  have ends := fullHead_ends fullBody
  have full : (fullHead ++ fullBody).length = 4096 := by
    rw [List.length_append, fullHead_size.1, fullHead_size.2]
  constructor
  · refine ⟨21, .inl ?_, by rw [accommodate_full (Nat.le_of_eq full.symm)]⟩
    rw [memfind, if_neg (by rw [full]; decide), ends.1]
  · rcases scanStatus_fullHead (fullBody ++ [0]) with ⟨rest, scanned⟩
    rw [← List.append_assoc] at scanned
    rcases Option.ne_none_iff_exists'.mp ends.2 with ⟨nl, at_nl⟩
    exact (headersParse_stale scanned rfl at_nl 4097).1

/-- The first makes `headers_parse` use a null pointer, the second makes it tell a header that
is not there, and the third makes it use a pointer into a block that has been freed. -/
theorem nulByte_breaks :
    (Handed nulStatus 4096 (some 13) ∧
      ¬ Parses patient httpGet nulStatus
        (Pointers.headersParse patient (nulStatus.length + 1) httpGet nulStatus (some 13))) ∧
    (Handed nulFold 4096 (some 24) ∧
      (Pointers.headersParse patient (nulFold.length + 1) httpGet nulFold (some 24)).map
          (·.req.told) =
        .ok [.code 200, .header (ascii "a") (ascii "b"), .header (ascii "x") (ascii "y")] ∧
      ¬ Parses patient httpGet nulFold
        (Pointers.headersParse patient (nulFold.length + 1) httpGet nulFold (some 24))) ∧
    Handed (fullHead ++ fullBody) 4096 none ∧
      ¬ Parses patient httpGet (fullHead ++ fullBody)
        (Pointers.headersParse patient 4097 httpGet (fullHead ++ fullBody) none) := by
  have null : Pointers.headersParse patient (nulStatus.length + 1) httpGet nulStatus (some 13) =
      .error .null := by decide +kernel
  have absent : (Pointers.headersParse patient (nulFold.length + 1) httpGet nulFold (some 24)).map
      (·.absent) = .ok true := by decide +kernel
  refine ⟨⟨⟨13, .inr (by decide +kernel), rfl⟩, ?_⟩,
    ⟨⟨24, .inr (by decide +kernel), rfl⟩, by decide +kernel, ?_⟩, fullBuffer_stale.1, ?_⟩
  · exact not_parses_of_error null
  · rintro ⟨w, walked, present, -⟩
    rw [walked] at absent
    exact Bool.noConfusion (present.symm.trans (Except.ok.inj absent))
  · exact not_parses_of_error fullBuffer_stale.2

/-- A head with a line that goes on with a header line, and a body behind it. -/
def foldedHead : List UInt8 :=
  ascii "HTTP/1.1 200 OK" ++ cr :: lf :: ascii "A: b" ++ cr :: lf :: ascii "  c" ++
    [cr, lf, cr, lf] ++ ascii "body"

/-- It is parsed as it should be; with a zero byte in the way it is not. -/
theorem headersParse_parses_iff_foldedHead :
    Parses patient httpGet foldedHead
        (Pointers.headersParse patient 40 httpGet foldedHead (some 26)) ∧
      ¬ Parses patient httpGet nulStatus
        (Pointers.headersParse patient 40 httpGet nulStatus (some 13)) := by
  have each : ∀ h ∈ headersOf (behindStatus foldedHead), h.Whole := by decide +kernel
  have handed : Handed foldedHead 4096 (some 26) := ⟨26, .inl (by decide +kernel), rfl⟩
  have handed' : Handed nulStatus 4096 (some 13) := ⟨13, .inr (by decide +kernel), rfl⟩
  constructor
  · apply (headersParse_parses_iff patient httpGet handed (by decide +kernel)).mpr
    constructor
    · intro code _ _
      decide +kernel
    · intro code _ _
      decide
    · intro code _ before h after split _ _ _
      apply each h
      rw [split]
      exact List.mem_append_right _ (List.mem_cons_self ..)
  · intro parses
    have clean := (headersParse_parses_iff patient httpGet handed' (by decide +kernel)).mp parses
    have code : StatusCode nulStatus 200 := ⟨[0, lf, lf, 0], by decide +kernel⟩
    exact absurd (clean.status 200 code rfl) (by decide +kernel)

end Btpd.Http
