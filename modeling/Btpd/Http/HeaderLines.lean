import Btpd.Http.Cuts

/-!
# Header lines

A head is its lines up to the empty one.  A line that begins with a blank continues the
header line before it; the value of a header is what its lines say, one blank between two
of them.  Where no line is cut short by a zero byte, `headers_parse` tells these headers.
-/

namespace Btpd.Http

open Text

/-! ## The lines of a head -/

/-- The lines up to the empty one. -/
def textLines (s : List UInt8) : List (List UInt8) :=
  ((s.splitOn lf).map chop).takeWhile (· ≠ [])

/-- Whether a line goes on with the header line before it. -/
def continues : List UInt8 → Bool
  | [] => false
  | c :: _ => isblank c

/-- A header line and the lines that go on with it. -/
structure FoldedLine where
  first : List UInt8
  folds : List (List UInt8)
  deriving DecidableEq, Repr

/-- The headers that the lines make. -/
def foldLines : List (List UInt8) → List FoldedLine
  | [] => []
  | line :: more =>
      match foldLines more with
      | [] => [⟨line, []⟩]
      | next :: later =>
          if continues next.first then ⟨line, next.first :: next.folds⟩ :: later
          else ⟨line, []⟩ :: next :: later

theorem foldLines_cons (line : List UInt8) (more : List (List UInt8)) :
    foldLines (line :: more) =
      ⟨line, more.takeWhile continues⟩ :: foldLines (more.dropWhile continues) := by
  induction more generalizing line with
  | nil => rfl
  | cons next later ih =>
      rw [foldLines, ih next]
      by_cases goesOn : continues next = true
      · rw [List.takeWhile_cons_of_pos goesOn, List.dropWhile_cons_of_pos goesOn]
        exact if_pos goesOn
      · rw [List.takeWhile_cons_of_neg goesOn, List.dropWhile_cons_of_neg goesOn, ih next]
        exact if_neg goesOn

namespace FoldedLine

/-- What stands before the colon, as far as there is room. -/
def name (h : FoldedLine) : List UInt8 := (h.first.takeWhile (· != 58)).take (nameSize - 1)

/-- What stands behind the colon. -/
def text (h : FoldedLine) : List UInt8 := (h.first.dropWhile (· != 58)).drop 1

/-- The lines without the blanks at their beginnings, with one blank between two of them. -/
def joined (h : FoldedLine) : List UInt8 :=
  h.text.dropWhile isblank ++ h.folds.flatMap fun line => 32 :: line.dropWhile isblank

/-- As much of it as there is room for, without the blanks at its end. -/
def value (h : FoldedLine) : List UInt8 := trim (h.joined.take (valueSize - 1))

/-- What is told of a header. -/
def response (h : FoldedLine) : HttpResponse := .header h.name h.value

/-- A header line has a colon, and is a line of a C string. -/
def Legible (h : FoldedLine) : Prop := 58 ∈ h.first ∧ 0 ∉ h.first

instance (h : FoldedLine) : Decidable h.Legible := inferInstanceAs (Decidable (_ ∧ _))

/-- No line that goes on with it is cut short by a zero byte. -/
def Whole (h : FoldedLine) : Prop := ∀ line ∈ h.folds, 0 ∉ line

instance (h : FoldedLine) : Decidable h.Whole := inferInstanceAs (Decidable (∀ _ ∈ _, _))

end FoldedLine

/-- The headers of a head, from the line behind the status line on. -/
def headersOf (s : List UInt8) : List FoldedLine := foldLines (textLines s)

/-! ## Taking lines off -/

theorem mem_chop {c : UInt8} (other : c ≠ cr) (line : List UInt8) : c ∈ chop line ↔ c ∈ line := by
  rw [chop]
  split
  · rename_i ret
    have whole := List.dropLast_append_getLast? cr ret
    conv_rhs => rw [← whole]
    simp [other]
  · rfl

theorem continues_chop (line : List UInt8) : continues (chop line) = continues line := by
  rw [chop]
  split
  · rename_i ret
    rcases line with _ | ⟨c, _ | ⟨d, line⟩⟩
    · rfl
    · have isCr : c = cr := Option.some.inj ret
      rw [isCr]
      rfl
    · rfl
  · rfl

theorem continues_append_cons (s : List UInt8) (c : UInt8) (t u : List UInt8) :
    continues (s ++ c :: t) = continues (s ++ c :: u) := by
  cases s with
  | nil => rfl
  | cons d s => rfl

/-- The line that `strnl` takes off is the first one. -/
theorem textLines_found {s text rest : List UInt8} (found : strnl s = some (text, rest)) :
    textLines s = if text = [] then [] else text :: textLines rest := by
  rcases strnl_eq found with ⟨text_eq, nl, at_nl, rest_eq⟩
  rcases strchrNl_eq at_nl with ⟨rest', rfl, split⟩
  rw [List.drop_succ_cons, List.drop_zero] at rest_eq
  subst rest_eq
  have apart : lf ∉ s.takeWhile inLine := fun mem =>
    absurd (List.mem_takeWhile_imp mem) (by decide)
  have lines : s.splitOn lf = s.takeWhile inLine :: rest.splitOn lf := by
    conv_lhs => rw [split]
    exact List.splitOn_append_cons_self_of_not_mem apart rest
  rw [textLines, lines, List.map_cons, ← text_eq]
  by_cases empty : text = []
  · rw [if_pos empty, List.takeWhile_cons_of_neg (by simp [empty])]
  · rw [if_neg empty, List.takeWhile_cons_of_pos (by simp [empty])]
    rfl

theorem text_legible {s text rest : List UInt8} (found : strnl s = some (text, rest)) :
    0 ∉ text := by
  rw [(strnl_eq found).1, mem_chop (by decide)]
  intro mem
  exact absurd (List.mem_takeWhile_imp mem) (by decide)

/-- If `strnl` finds no line end, a zero byte stands before it. -/
theorem textLines_missing {s : List UInt8} (ends : EndsLine s) (missing : strnl s = none) :
    ∃ line more, textLines s = line :: more ∧ 0 ∈ line ∧ continues line = continues s := by
  have ended : s.dropWhile inLine ≠ [] := dropWhile_ne_nil_of_mem ends.mem inLine_lf
  cases left : s.dropWhile inLine with
  | nil => exact absurd left ended
  | cons c rest =>
      have split := List.takeWhile_append_dropWhile (p := inLine) (l := s)
      have stops : inLine c = false := by
        have head := List.head?_dropWhile_not inLine s
        rw [left] at head
        exact head
      have isNul : c = 0 := by
        by_cases isLf : c = lf
        · simp [strnl, strchrNl, left, isLf] at missing
        · by_contra other
          exact absurd stops (by simp [inLine, isLf, other])
      subst isNul
      rw [left] at split
      have apart : lf ∉ s.takeWhile inLine := fun mem =>
        absurd (List.mem_takeWhile_imp mem) (by decide)
      have behind : lf ∈ rest := by
        have mem := ends.mem
        rw [← split, List.mem_append, List.mem_cons] at mem
        rcases mem with inside | isNul | behind
        · exact absurd inside apart
        · exact absurd isNul (by decide)
        · exact behind
      rcases List.eq_append_cons_of_mem behind with ⟨line, more, cut, whole⟩
      have lines : s.splitOn lf = (s.takeWhile inLine ++ 0 :: line) :: more.splitOn lf := by
        have shape : s = (s.takeWhile inLine ++ 0 :: line) ++ lf :: more := by
          rw [List.append_assoc, List.cons_append, ← cut]
          exact split.symm
        conv_lhs => rw [shape]
        apply List.splitOn_append_cons_self_of_not_mem
        rw [List.mem_append, List.mem_cons]
        rintro (inside | isNul | inside)
        · exact apart inside
        · exact absurd isNul (by decide)
        · exact whole inside
      have mem : 0 ∈ chop (s.takeWhile inLine ++ 0 :: line) :=
        (mem_chop (by decide) _).mpr (List.mem_append_right _ (List.mem_cons_self ..))
      refine ⟨chop (s.takeWhile inLine ++ 0 :: line),
        ((more.splitOn lf).map chop).takeWhile (· ≠ []), ?_, mem, ?_⟩
      · rw [textLines, lines, List.map_cons, List.takeWhile_cons_of_pos]
        simpa using List.ne_nil_of_mem mem
      · rw [continues_chop]
        conv_rhs => rw [← split]
        exact continues_append_cons ..

/-- A line that `strnl` takes off goes on with the one before as what it is taken off does. -/
theorem continues_text {s text rest : List UInt8} (found : strnl s = some (text, rest)) :
    continues text = continues s := by
  rcases strnl_eq found with ⟨text_eq, nl, at_nl, -⟩
  rcases strchrNl_eq at_nl with ⟨rest', -, split⟩
  rw [text_eq, continues_chop]
  conv_rhs => rw [split]
  cases s.takeWhile inLine with
  | nil => exact (rfl : isblank lf = false).symm
  | cons c line => rfl

theorem ne_nil_of_continues {line : List UInt8} (goesOn : continues line = true) : line ≠ [] := by
  rintro rfl
  cases goesOn

/-- A line that is not empty, taken off. -/
theorem textLines_text {s text rest : List UInt8} (found : strnl s = some (text, rest))
    (some_byte : text ≠ []) : textLines s = text :: textLines rest := by
  rw [textLines_found found, if_neg some_byte]

/-- The lines that go on with the one before. -/
def foldsOf (s : List UInt8) : List (List UInt8) := (textLines s).takeWhile continues

theorem foldsOf_text {s text rest : List UInt8} (found : strnl s = some (text, rest))
    (goesOn : continues s = true) : foldsOf s = text :: foldsOf rest := by
  have here : continues text = true := (continues_text found).trans goesOn
  rw [foldsOf, textLines_text found (ne_nil_of_continues here), List.takeWhile_cons_of_pos here]
  rfl

theorem foldsOf_last {s : List UInt8} (ends : EndsLine s) (other : continues s = false) :
    foldsOf s = [] ∧ (textLines s).dropWhile continues = textLines s := by
  have first : ∀ {line : List UInt8} {more}, textLines s = line :: more →
      continues line = continues s →
      foldsOf s = [] ∧ (textLines s).dropWhile continues = textLines s := by
    intro line more lines same
    have stops : ¬ continues line = true := by
      rw [same, other]
      exact Bool.false_ne_true
    rw [foldsOf, lines, List.takeWhile_cons_of_neg stops, List.dropWhile_cons_of_neg stops]
    exact ⟨rfl, rfl⟩
  cases found : strnl s with
  | none =>
      rcases textLines_missing ends found with ⟨line, more, lines, -, same⟩
      exact first lines same
  | some taken =>
      rcases taken with ⟨text, rest⟩
      by_cases empty : text = []
      · rw [foldsOf, textLines_found found, if_pos empty]
        exact ⟨rfl, rfl⟩
      · exact first (textLines_text found empty) (continues_text found)

/-! ## What is told -/

/-- A value is cut once, however often it is cut on the way. -/
theorem take_take_append (n : Nat) (a b : List UInt8) :
    (a.take n ++ b).take n = (a ++ b).take n := by
  rcases Nat.le_total n a.length with long | short
  · have whole : (a.take n).length = n := by
      rw [List.length_take]
      exact Nat.min_eq_left long
    rw [List.take_append_of_le_length (Nat.le_of_eq whole.symm),
      List.take_append_of_le_length long, List.take_take, Nat.min_self]
  · rw [List.take_of_length_le short]

/-- Where no line is cut short, a value is made of the lines that go on with the first one,
and the next header starts behind them. -/
theorem valLoop_lines (value text : List UInt8) {rest : List UInt8} (lines : Lines rest)
    (whole : ∀ line ∈ foldsOf rest, 0 ∉ line) :
    (valLoop value text rest).1 =
        (value ++ (text.dropWhile isblank ++
          (foldsOf rest).flatMap fun line => 32 :: line.dropWhile isblank)).take (valueSize - 1) ∧
      textLines (valLoop value text rest).2 = (textLines rest).dropWhile continues := by
  fun_induction valLoop value text rest with
  | case1 => exact absurd rfl lines.endsLine.ne_nil
  | case2 value text value' c cur blank text' rest' found ih =>
      have goesOn : continues (c :: cur) = true := blank
      have folds := foldsOf_text found goesOn
      have here : continues text' = true := (continues_text found).trans goesOn
      rw [folds] at whole ⊢
      have later := ih (lines_of_strnl lines (not_empty_of_blank blank).1
        (not_empty_of_blank blank).2 found) fun line mem => whole line (List.mem_cons_of_mem _ mem)
      have skipped : (text'.drop 1).dropWhile isblank = text'.dropWhile isblank := by
        cases text' with
        | nil => rfl
        | cons d text' => exact (List.dropWhile_cons_of_pos (p := isblank) here).symm
      constructor
      · rw [later.1, skipped, take_take_append, List.append_assoc]
        change List.take _ (List.take _ (value ++ text.dropWhile isblank) ++ _) = _
        rw [take_take_append]
        simp only [List.flatMap_cons, List.append_assoc, List.cons_append, List.nil_append]
      · rw [later.2, textLines_text found (ne_nil_of_continues here),
          List.dropWhile_cons_of_pos here]
  | case3 value text value' c cur blank missing ih =>
      rcases textLines_missing lines.endsLine missing with ⟨line, more, same, nul, first⟩
      have here : continues line = true := first.trans blank
      apply absurd nul
      apply whole
      rw [foldsOf, same, List.takeWhile_cons_of_pos here]
      exact List.mem_cons_self ..
  | case4 value text value' c cur other =>
      have last := foldsOf_last lines.endsLine (Bool.not_eq_true _ ▸ other)
      rw [last.1, last.2, List.flatMap_nil, List.append_nil]
      exact ⟨rfl, rfl⟩

/-- The responses are told one after another, until the callback cancels the request. -/
def deliver (callback : Callback) : HttpReq → List HttpResponse → HttpReq
  | req, [] => req
  | req, res :: more =>
      if (req.cb callback res).cancel then req.cb callback res
      else deliver callback (req.cb callback res) more

/-- Up to the header at which the callback cancels the request, or to the first line that is
no header line, no line that goes on with a header line is cut short by a zero byte. -/
def Clear (callback : Callback) : HttpReq → List FoldedLine → Prop
  | _, [] => True
  | req, h :: more =>
      h.Legible → h.Whole ∧
        ((req.cb callback h.response).cancel = false →
          Clear callback (req.cb callback h.response) more)

/-- Two requests that tell the same. -/
structure TellsAlike (req req' : HttpReq) : Prop where
  told : req.told = req'.told
  cancel : req.cancel = req'.cancel

theorem TellsAlike.cb {req req' : HttpReq} (alike : TellsAlike req req') (callback : Callback)
    (res : HttpResponse) : TellsAlike (req.cb callback res) (req'.cb callback res) := by
  constructor
  · simp only [HttpReq.cb, alike.told]
  · simp only [HttpReq.cb, alike.told, alike.cancel]

theorem noteHeader_alike (req : HttpReq) (name value : List UInt8) :
    TellsAlike (noteHeader req name value) req := by
  unfold noteHeader
  dsimp only
  split
  · exact ⟨rfl, rfl⟩
  · exact ⟨rfl, rfl⟩

theorem deliver_alike {req req' : HttpReq} (alike : TellsAlike req req') (callback : Callback)
    (report : List HttpResponse) :
    TellsAlike (deliver callback req report) (deliver callback req' report) := by
  induction report generalizing req req' with
  | nil => exact alike
  | cons res more ih =>
      have told := alike.cb callback res
      rw [deliver, deliver, told.cancel]
      split
      · exact told
      · exact ih told

theorem clear_alike {req req' : HttpReq} (alike : TellsAlike req req') (callback : Callback)
    (hs : List FoldedLine) : Clear callback req hs ↔ Clear callback req' hs := by
  induction hs generalizing req req' with
  | nil => exact Iff.rfl
  | cons h more ih =>
      have told := alike.cb callback h.response
      rw [Clear, Clear, told.cancel, ih told]

theorem strnl_suffix {s text rest : List UInt8} (found : strnl s = some (text, rest)) :
    rest <:+ s := by
  rcases (strnl_eq found).2 with ⟨nl, at_nl, rest_eq⟩
  rcases strchrNl_eq at_nl with ⟨rest', rfl, split⟩
  rw [rest_eq]
  exact ⟨s.takeWhile inLine ++ [lf], by
    rw [List.append_assoc, List.singleton_append]
    exact split.symm⟩

theorem valLoop_suffix (value text rest : List UInt8) : (valLoop value text rest).2 <:+ rest := by
  fun_induction valLoop value text rest with
  | case1 => exact List.suffix_refl _
  | case2 value text value' c cur blank text' rest' found ih =>
      exact ih.trans (strnl_suffix found)
  | case3 value text value' c cur blank missing ih =>
      exact ih.trans ((List.drop_suffix 1 _).trans ((List.dropWhile_suffix _).trans
        (List.suffix_cons c cur)))
  | case4 => exact List.suffix_refl _

/-- The rest of a head in which nothing is left before `end` has no line any more. -/
def Closes (left : Nat) (s : List UInt8) : Prop :=
  ∀ w, w <:+ s → w ≠ [] → w.length ≤ left → textLines w = []

theorem Closes.of_suffix {left : Nat} {s w : List UInt8} (closes : Closes left s)
    (suffix : w <:+ s) : Closes left w :=
  fun v inside some_byte short => closes v (inside.trans suffix) some_byte short

/-- The first header of a head. -/
theorem headersOf_found {cur text rest : List UInt8} (found : strnl cur = some (text, rest))
    (colon : 58 ∈ text) :
    headersOf cur =
      ⟨text, foldsOf rest⟩ :: foldLines ((textLines rest).dropWhile continues) := by
  rw [headersOf, textLines_text found (List.ne_nil_of_mem colon), foldLines_cons]
  rfl

/-- The others stand behind what is read of it. -/
theorem headersOf_rest (value text : List UInt8) {rest : List UInt8} (lines : Lines rest)
    (whole : ∀ line ∈ foldsOf rest, 0 ∉ line) :
    foldLines ((textLines rest).dropWhile continues) =
      headersOf (valLoop value text rest).2 := by
  rw [headersOf, (valLoop_lines value text lines whole).2]

/-- What `headers_parse` tells of the line that it takes off. -/
def headerTold (text rest : List UInt8) : HttpResponse :=
  .header ((text.takeWhile (· != 58)).take (nameSize - 1))
    (trim (valLoop [] ((text.dropWhile (· != 58)).drop 1) rest).1)

theorem response_found {text rest : List UInt8} (lines : Lines rest)
    (whole : ∀ line ∈ foldsOf rest, 0 ∉ line) :
    FoldedLine.response ⟨text, foldsOf rest⟩ = headerTold text rest := by
  rw [headerTold, (valLoop_lines [] _ lines whole).1]
  rfl

theorem clear_found {callback : Callback} {req : HttpReq} {cur text rest : List UInt8}
    (found : strnl cur = some (text, rest)) (colon : 58 ∈ text) (lines : Lines rest) :
    Clear callback req (headersOf cur) ↔ (∀ line ∈ foldsOf rest, 0 ∉ line) ∧
      ((req.cb callback (headerTold text rest)).cancel = false →
        Clear callback (req.cb callback (headerTold text rest))
          (headersOf (valLoop [] ((text.dropWhile (· != 58)).drop 1) rest).2)) := by
  have legible : FoldedLine.Legible ⟨text, foldsOf rest⟩ := ⟨colon, text_legible found⟩
  rw [headersOf_found found colon, Clear]
  constructor
  · intro clear
    have whole := (clear legible).1
    have later := (clear legible).2
    rw [response_found lines whole, headersOf_rest _ _ lines whole] at later
    exact ⟨whole, later⟩
  · rintro ⟨whole, later⟩ -
    rw [response_found lines whole, headersOf_rest _ _ lines whole]
    exact ⟨whole, later⟩

/-- Behind a line that is no header line nothing is looked at. -/
theorem clear_of_illegible {callback : Callback} {req : HttpReq} {s line : List UInt8}
    {more : List (List UInt8)} (first : textLines s = line :: more)
    (illegible : 58 ∈ line → 0 ∈ line) : Clear callback req (headersOf s) := by
  rw [headersOf, first, foldLines_cons, Clear]
  intro legible
  exact absurd (illegible legible.1) legible.2

theorem clear_of_empty {callback : Callback} {req : HttpReq} {s : List UInt8}
    (empty : textLines s = []) : Clear callback req (headersOf s) := by
  rw [headersOf, empty]
  trivial

theorem valLoop_fits (value text rest : List UInt8) :
    (valLoop value text rest).1.length ≤ valueSize - 1 := by
  have cut : ∀ w : List UInt8, (w.take (valueSize - 1)).length ≤ valueSize - 1 := fun w => by
    rw [List.length_take]
    exact Nat.min_le_left _ _
  fun_induction valLoop value text rest with
  | case1 => exact cut _
  | case2 value text value' c cur blank text' rest' found ih => exact ih
  | case3 value text value' c cur blank missing ih => exact ih
  | case4 => exact cut _

/-- Where no line is cut short, the headers of the head are told, unless it is rejected. -/
theorem headerLines_tells {callback : Callback} {left : Nat} {req : HttpReq} {cur : List UInt8}
    (lines : Lines cur) (closes : Closes left cur) (clear : Clear callback req (headersOf cur))
    (accepted : (headerLines callback left req cur).2 = true) :
    (headerLines callback left req cur).1.told =
      (deliver callback req ((headersOf cur).map FoldedLine.response)).told := by
  fun_induction headerLines callback left req cur with
  | case1 req cur inside =>
      rw [headersOf, closes cur (List.suffix_refl _) lines.endsLine.ne_nil inside]
      rfl
  | case2 => cases accepted
  | case3 req cur outside text rest found colon name value told cancelled =>
      have after := lines_of_strnl lines (not_empty_of_colon found colon).1
        (not_empty_of_colon found colon).2 found
      have whole := ((clear_found found colon after).mp clear).1
      rw [headersOf_found found colon, List.map_cons, response_found after whole, deliver]
      exact congrArg HttpReq.told (if_pos cancelled).symm
  | case4 req cur outside text rest found colon name value told go ih =>
      have after := lines_of_strnl lines (not_empty_of_colon found colon).1
        (not_empty_of_colon found colon).2 found
      rcases (clear_found found colon after).mp clear with ⟨whole, later⟩
      rw [headersOf_found found colon, List.map_cons, response_found after whole,
        headersOf_rest _ _ after whole, deliver]
      have same := noteHeader_alike told name (trim value.1)
      have behind := ih (valLoop_append [] _ rest [] after).2
        (closes.of_suffix ((valLoop_suffix _ _ _).trans (strnl_suffix found)))
        ((clear_alike same callback _).mpr (later (Bool.not_eq_true _ ▸ go))) accepted
      rw [behind, (deliver_alike same callback _).told]
      exact congrArg HttpReq.told (if_neg go).symm
  | case5 => cases accepted

end Btpd.Http
