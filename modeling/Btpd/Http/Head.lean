import Btpd.Http.Parser

/-!
# A head decides alone

`headers_parse` gets a C string that goes on behind the head.  What it makes of the
head does not depend on what follows, provided that `sscanf` finds an end to the status
line in the head.  The head ends with an empty line, so that the line that is looked at
next has its end in the head too.
-/

namespace Btpd.Http

open Text

/-- Lines of which the last is empty. -/
def Lines (s : List UInt8) : Prop :=
  ∃ u l, (u = [] ∨ EndsLine u) ∧ (l = [lf] ∨ l = [cr, lf]) ∧ s = u ++ l

theorem Lines.endsLine {s : List UInt8} (lines : Lines s) : EndsLine s := by
  rcases lines with ⟨u, l, -, rfl | rfl, rfl⟩
  · exact ⟨u, rfl⟩
  · exact ⟨u ++ [cr], by simp⟩

/-- There is another line before the empty one. -/
theorem Lines.before {s : List UInt8} (lines : Lines s) (not_lf : s ≠ [lf])
    (not_crlf : s ≠ [cr, lf]) :
    ∃ u l, EndsLine u ∧ (l = [lf] ∨ l = [cr, lf]) ∧ s = u ++ l := by
  rcases lines with ⟨u, l, none_before | before, empty, rfl⟩
  · subst none_before
    rcases empty with rfl | rfl
    · exact absurd rfl not_lf
    · exact absurd rfl not_crlf
  · exact ⟨u, l, before, empty, rfl⟩

/-- What is left of lines behind some bytes of the first ones. -/
theorem Lines.of_rest {u v l : List UInt8} (before : EndsLine (u ++ v))
    (empty : l = [lf] ∨ l = [cr, lf]) : Lines (v ++ l) := by
  by_cases all : v = []
  · exact ⟨[], l, Or.inl rfl, empty, by simp [all]⟩
  · exact ⟨v, l, Or.inr (before.of_append all), empty, rfl⟩

theorem inLine_lf : inLine lf = false := by decide

/-- The line end that `strchr` finds in lines is the same if more follows. -/
theorem strchrNl_append {s : List UInt8} (ends : EndsLine s) (x : List UInt8) :
    strchrNl (s ++ x) = (strchrNl s).map (· ++ x) := by
  have ended : s.dropWhile inLine ≠ [] := dropWhile_ne_nil_of_mem ends.mem inLine_lf
  simp only [strchrNl, dropWhile_append_of_ended ended]
  cases left : s.dropWhile inLine with
  | nil => exact absurd left ended
  | cons c rest =>
      by_cases isLf : c = lf
      · simp [isLf]
      · simp [isLf]

theorem strnl_append {s : List UInt8} (ends : EndsLine s) (x : List UInt8) :
    strnl (s ++ x) = (strnl s).map fun line => (line.1, line.2 ++ x) := by
  have ended : s.dropWhile inLine ≠ [] := dropWhile_ne_nil_of_mem ends.mem inLine_lf
  simp only [strnl, strchrNl_append ends, takeWhile_append_of_ended ended]
  cases found : strchrNl s with
  | none => rfl
  | some nl =>
      have some_byte := (strchrNl_length found).1
      have : 1 ≤ nl.length := List.length_pos_iff.mpr some_byte
      simp [List.drop_append_of_le_length this]

/-- What `strchr` finds is the rest of the string from its first line feed on. -/
theorem strchrNl_eq {s nl : List UInt8} (found : strchrNl s = some nl) :
    ∃ rest, nl = lf :: rest ∧ s = s.takeWhile inLine ++ lf :: rest := by
  have split := List.takeWhile_append_dropWhile (p := inLine) (l := s)
  simp only [strchrNl] at found
  split at found
  · cases found
  · rename_i c rest at_c
    split at found
    · rename_i isLf
      cases found
      rw [at_c, isLf] at split
      exact ⟨rest, by rw [isLf], split.symm⟩
    · cases found

/-- Behind the first of several lines there are lines again. -/
theorem lines_of_strchrNl {s nl : List UInt8} (lines : Lines s) (not_lf : s ≠ [lf])
    (not_crlf : s ≠ [cr, lf]) (found : strchrNl s = some nl) : Lines (nl.drop 1) := by
  rcases lines.before not_lf not_crlf with ⟨u, l, before, empty, rfl⟩
  rcases strchrNl_eq found with ⟨rest, rfl, split⟩
  rw [strchrNl_append before] at found
  rcases Option.map_eq_some_iff.mp found with ⟨nl', found', same⟩
  rcases strchrNl_eq found' with ⟨rest', rfl, split'⟩
  simp only [List.cons_append, List.cons.injEq, true_and] at same
  simp only [List.drop_succ_cons, List.drop_zero, ← same]
  rw [split'] at before
  apply Lines.of_rest (u := u.takeWhile inLine ++ [lf]) (by simpa using before) empty

theorem strnl_eq {s text rest : List UInt8} (found : strnl s = some (text, rest)) :
    text = chop (s.takeWhile inLine) ∧ ∃ nl, strchrNl s = some nl ∧ rest = nl.drop 1 := by
  simp only [strnl] at found
  split at found
  · cases found
  · rename_i nl at_nl
    cases found
    exact ⟨rfl, nl, at_nl, rfl⟩

theorem lines_of_strnl {s text rest : List UInt8} (lines : Lines s) (not_lf : s ≠ [lf])
    (not_crlf : s ≠ [cr, lf]) (found : strnl s = some (text, rest)) : Lines rest := by
  rcases (strnl_eq found).2 with ⟨nl, at_nl, rfl⟩
  exact lines_of_strchrNl lines not_lf not_crlf at_nl

/-- A continuation line is not the empty line. -/
theorem not_empty_of_blank {c : UInt8} {cur : List UInt8} (blank : isblank c = true) :
    c :: cur ≠ [lf] ∧ c :: cur ≠ [cr, lf] := by
  constructor
  · intro same
    rw [(List.cons.inj same).1] at blank
    exact absurd blank (by decide)
  · intro same
    rw [(List.cons.inj same).1] at blank
    exact absurd blank (by decide)

/-- Without a line end a continuation line is left at the byte behind its blanks. -/
theorem lines_of_skip {c : UInt8} {cur : List UInt8} (blank : isblank c = true)
    (lines : Lines (c :: cur)) :
    cur.dropWhile isblank ≠ [] ∧ Lines ((cur.dropWhile isblank).drop 1) := by
  rcases lines.before (not_empty_of_blank blank).1 (not_empty_of_blank blank).2 with
    ⟨u, l, before, empty, same⟩
  cases u with
  | nil => exact absurd rfl before.ne_nil
  | cons d u =>
      rw [List.cons_append, List.cons.injEq] at same
      rcases same with ⟨rfl, rfl⟩
      have more : u ≠ [] := by
        rintro rfl
        rcases before with ⟨v, whole⟩
        cases v with
        | nil =>
            rw [(List.cons.inj whole).1] at blank
            exact absurd blank (by decide)
        | cons y v => simp at whole
      have here : EndsLine u := before.of_append (u := [c]) more
      have ended : u.dropWhile isblank ≠ [] := dropWhile_ne_nil_of_mem here.mem (by decide)
      rw [dropWhile_append_of_ended ended]
      cases left : u.dropWhile isblank with
      | nil => exact absurd left ended
      | cons d v =>
          have split := List.takeWhile_append_dropWhile (p := isblank) (l := u)
          rw [left] at split
          rw [← split] at here
          constructor
          · simp
          · simp only [List.cons_append, List.drop_succ_cons, List.drop_zero]
            exact Lines.of_rest (u := u.takeWhile isblank ++ [d]) (by simpa using here) empty

/-- A value does not depend on what follows the head. -/
theorem valLoop_append (value text rest x : List UInt8) (lines : Lines rest) :
    valLoop value text (rest ++ x) = ((valLoop value text rest).1, (valLoop value text rest).2 ++ x) ∧
      Lines (valLoop value text rest).2 := by
  fun_induction valLoop value text rest with
  | case1 => exact absurd rfl lines.endsLine.ne_nil
  | case2 value text value' c cur blank text' rest' found ih =>
      have later := ih (lines_of_strnl lines (not_empty_of_blank blank).1
        (not_empty_of_blank blank).2 found)
      have longer := strnl_append lines.endsLine x
      rw [found, Option.map_some] at longer
      rw [valLoop_found (List.cons_append ..) blank longer]
      exact later
  | case3 value text value' c cur blank missing ih =>
      have skip := lines_of_skip blank lines
      have some_byte : 1 ≤ (cur.dropWhile isblank).length := List.length_pos_iff.mpr skip.1
      have longer := strnl_append lines.endsLine x
      rw [missing, Option.map_none] at longer
      rw [valLoop_missing (List.cons_append ..) blank longer, dropWhile_append_of_ended skip.1,
        List.drop_append_of_le_length some_byte]
      exact ih skip.2
  | case4 value text value' c cur other =>
      rw [valLoop_last (List.cons_append ..) (Bool.not_eq_true _ ▸ other)]
      exact ⟨rfl, lines⟩

/-- A line with a colon is not the empty line. -/
theorem not_empty_of_colon {cur text rest : List UInt8} (found : strnl cur = some (text, rest))
    (colon : 58 ∈ text) : cur ≠ [lf] ∧ cur ≠ [cr, lf] := by
  have same := (strnl_eq found).1
  constructor
  · rintro rfl
    rw [same] at colon
    exact absurd colon (by decide)
  · rintro rfl
    rw [same] at colon
    exact absurd colon (by decide)

/-- The header lines do not depend on what follows the head. -/
theorem headerLines_append {callback : Callback} {left : Nat} {req : HttpReq}
    {cur : List UInt8} (lines : Lines cur) (x : List UInt8) :
    headerLines callback (left + x.length) req (cur ++ x) = headerLines callback left req cur := by
  have longer : ∀ {s : List UInt8}, s.length ≤ left ↔ (s ++ x).length ≤ left + x.length := by
    intro s
    rw [List.length_append]
    omega
  fun_induction headerLines callback left req cur with
  | case1 req cur inside => rw [headerLines, if_pos (longer.mp inside)]
  | case2 req cur outside missing =>
      have found := strnl_append lines.endsLine x
      rw [missing, Option.map_none] at found
      exact headerLines_missing (fun inside => outside (longer.mpr inside)) found
  | case3 req cur outside text rest found colon name value req' cancelled =>
      have after := lines_of_strnl lines (not_empty_of_colon found colon).1
        (not_empty_of_colon found colon).2 found
      have same := strnl_append lines.endsLine x
      rw [found, Option.map_some] at same
      rw [headerLines_found (fun inside => outside (longer.mpr inside)) same, if_pos colon,
        (valLoop_append [] _ rest x after).1]
      exact if_pos cancelled
  | case4 req cur outside text rest found colon name value req' go ih =>
      have after := lines_of_strnl lines (not_empty_of_colon found colon).1
        (not_empty_of_colon found colon).2 found
      have same := strnl_append lines.endsLine x
      rw [found, Option.map_some] at same
      have later := valLoop_append [] ((text.dropWhile (· != 58)).drop 1) rest x after
      rw [headerLines_found (fun inside => outside (longer.mpr inside)) same, if_pos colon, later.1]
      exact (if_neg go).trans (ih later.2)
  | case5 req cur outside text rest found noColon =>
      have same := strnl_append lines.endsLine x
      rw [found, Option.map_some] at same
      rw [headerLines_found (fun inside => outside (longer.mpr inside)) same, if_neg noColon]

/-! ## The status line -/

theorem scanStatus_local : Local scanStatus := by
  have literal : ∀ text : List UInt8, lf ∉ text → Local (scanText text) :=
    fun _ inside => scanText_local inside
  exact (literal (ascii "HTTP/") (by decide)).andThen fun _ =>
    scanInt_local.andThen fun _ =>
      (literal (ascii ".") (by decide)).andThen fun _ =>
        scanInt_local.andThen fun _ => scanInt_local

/-- A head: some bytes and the empty line that ends it. -/
inductive IsHead : List UInt8 → Nat → Prop
  | full (u : List UInt8) : IsHead (u ++ [cr, lf, cr, lf]) u.length
  | bare (u : List UInt8) : IsHead (u ++ [lf, lf]) u.length

theorem IsHead.lines {head : List UInt8} {e : Nat} (isHead : IsHead head e) :
    Lines head ∧ head ≠ [lf] ∧ head ≠ [cr, lf] ∧ e ≤ head.length := by
  cases isHead with
  | full u =>
      refine ⟨⟨u ++ [cr, lf], [cr, lf], Or.inr ⟨u ++ [cr], by simp⟩, Or.inr rfl, by simp⟩, ?_, ?_, ?_⟩
      · intro same
        simpa using congrArg List.length same
      · intro same
        simpa using congrArg List.length same
      · simp
  | bare u =>
      refine ⟨⟨u ++ [lf], [lf], Or.inr ⟨u, rfl⟩, Or.inl rfl, by simp⟩, ?_, ?_, ?_⟩
      · intro same
        simpa using congrArg List.length same
      · intro same
        have shape := congrArg List.reverse same
        simp only [List.reverse_append, List.reverse_cons, List.reverse_nil, List.nil_append,
          List.cons_append, List.cons.injEq] at shape
        exact absurd shape.2.1 (by decide)
      · simp

theorem headersRest_append {callback : Callback} {req : HttpReq} {head : List UInt8} {e : Nat}
    (isHead : IsHead head e) (x : List UInt8) :
    headersRest callback req (head ++ x) (some e) = headersRest callback req head (some e) := by
  have lines := isHead.lines
  simp only [headersRest, strchrNl_append lines.1.endsLine]
  cases at_nl : strchrNl head with
  | none => rfl
  | some nl =>
      have some_byte : 1 ≤ nl.length := List.length_pos_iff.mpr (strchrNl_length at_nl).1
      have left : (head ++ x).length - e = head.length - e + x.length := by
        rw [List.length_append]
        have := lines.2.2.2
        omega
      simp only [Option.map_some, List.drop_append_of_le_length some_byte, left,
        headerLines_append (lines_of_strchrNl lines.1 lines.2.1 lines.2.2.1 at_nl)]

/-- What `headers_parse` makes of a head does not depend on what follows. -/
theorem headersParse_append {callback : Callback} {req : HttpReq} {head : List UInt8} {e : Nat}
    (isHead : IsHead head e) (complete : scanStatus head ≠ .exhausted) (x : List UInt8) :
    headersParse callback req (head ++ x) (some e) = headersParse callback req head (some e) := by
  have scanned := (scanStatus_local head isHead.lines.1.endsLine complete).2 x
  cases found : scanStatus head with
  | exhausted => exact absurd found complete
  | mismatch =>
      rw [found] at scanned
      simp only [headersParse, scanned, found, Scan.followedBy]
  | got code rest =>
      rw [found] at scanned
      simp only [headersParse, scanned, found, Scan.followedBy]
      exact headersRest_append isHead x

end Btpd.Http
