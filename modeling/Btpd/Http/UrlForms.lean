import Btpd.Http.Url

/-!
# The URLs that are accepted

The parts that the routine finds are compared with the form of a URL that is
stated on its own.  What is accepted has the form, and everything of the form is
accepted, whatever number its port writes.
-/

namespace Btpd.Http.Url

open Benc (Fault Exec literal)
open Text (ofDigits)

/-! ## The form that is accepted -/

/-- A digit does not end a host, nor what stands before the path. -/
theorem plain_of_isdigit {c : UInt8} (digit : isdigit c) :
    c ≠ '@'.toUInt8 ∧ c ≠ '/'.toUInt8 ∧ c ≠ '?'.toUInt8 := by
  refine ⟨?_, ?_, ?_⟩ <;>
    · rintro rfl
      exact absurd digit (by decide)

namespace UrlForm

/-- What stands between the user and the rest. -/
theorem mem_hostport (form : UrlForm) {c : UInt8}
    (mem : c ∈ form.host ++ portText form.port) :
    c ∈ form.host ∨ c = ':'.toUInt8 ∨ isdigit c := by
  rcases List.mem_append.mp mem with host | port
  · exact Or.inl host
  · apply Or.inr
    cases given : form.port with
    | none =>
        rw [given, portText] at port
        cases port
    | some digits =>
        rw [given, portText] at port
        rcases List.mem_cons.mp port with colon | digit
        · exact Or.inl colon
        · exact Or.inr ((form.port_digits digits given).2 c digit)

/-- The parts of the URL of a form. -/
def cut (form : UrlForm) : Cut where
  user := form.user
  hostport := form.host ++ portText form.port
  rest := form.rest
  user_plain := form.user_plain
  plain := by
    intro c mem
    rcases form.mem_hostport mem with host | rfl | digit
    · exact (form.host_plain c host).2
    · decide
    · exact (plain_of_isdigit digit).2
  no_user := by
    intro none mem
    rcases form.mem_hostport mem with host | colon | digit
    · exact form.no_user none host
    · exact absurd colon (by decide)
    · exact (plain_of_isdigit digit).1 rfl
  rest_starts := form.rest_starts

/-- The host of the form is the host that the routine finds, and so is the port. -/
theorem host_cut (form : UrlForm) :
    form.cut.host = form.host ∧ form.cut.tail = portText form.port := by
  have plain : ∀ c ∈ form.host, (c != ':'.toUInt8) = true :=
    fun c mem => bne_iff_ne.mpr (form.host_plain c mem).1
  rw [Cut.host, Cut.tail, cut]
  dsimp only
  rw [List.takeWhile_append_of_pos plain, List.dropWhile_append_of_pos plain]
  cases form.port with
  | none => exact ⟨List.append_nil _, rfl⟩
  | some digits =>
      rw [portText, List.takeWhile_cons, List.dropWhile_cons]
      exact ⟨List.append_nil _, rfl⟩

theorem accepted_cut (form : UrlForm) : form.cut.Accepted := by
  rcases form.host_cut with ⟨host, tail⟩
  constructor
  · rw [host]
    exact form.host_some
  · intro c digits starts
    rw [tail] at starts
    cases given : form.port with
    | none =>
        rw [given] at starts
        cases starts
    | some found =>
        rw [given] at starts
        cases starts
        exact form.port_digits digits given

/-- The port that is stored for a form. -/
theorem port_cut (form : UrlForm) (undefined : Nat → UInt16) :
    form.cut.port undefined =
      if form.portValue < 65536 then form.portValue.toUInt16 else undefined form.portValue := by
  rw [Cut.port, form.host_cut.2, portValue]
  cases form.port with
  | none => rfl
  | some digits => rfl

end UrlForm

/-- The form of a URL that is accepted. -/
theorem Cut.Accepted.form {cut : Cut} (accepted : cut.Accepted) :
    ∃ form : UrlForm, form.text = cut.url := by
  have sub : ∀ c ∈ cut.host, c ∈ cut.hostport :=
    (List.takeWhile_sublist _).subset
  have plain : ∀ c ∈ cut.host, c ≠ ':'.toUInt8 ∧ c ≠ '/'.toUInt8 ∧ c ≠ '?'.toUInt8 := by
    intro c mem
    have inRun : c ∈ cut.hostport.takeWhile (· != ':'.toUInt8) := mem
    have kind := List.mem_takeWhile_imp inRun
    exact ⟨bne_iff_ne.mp kind, cut.plain c (sub c mem)⟩
  have noUser : cut.user = none → '@'.toUInt8 ∉ cut.host :=
    fun none mem => cut.no_user none (sub _ mem)
  have url : ∀ port, cut.tail = UrlForm.portText port →
      cut.url = scheme ++ (cut.before ++ ((cut.host ++ UrlForm.portText port) ++ cut.rest)) := by
    intro port tail
    rw [← tail, cut.host_append_tail, Cut.url]
  rcases cut.tail_starts with noTail | ⟨digits, tail⟩
  · refine ⟨⟨cut.user, cut.host, none, cut.rest, cut.user_plain, accepted.1, plain, noUser,
      by simp, cut.rest_starts⟩, ?_⟩
    rw [url none noTail]
    rfl
  · refine ⟨⟨cut.user, cut.host, some digits, cut.rest, cut.user_plain, accepted.1, plain,
      noUser, ?_, cut.rest_starts⟩, ?_⟩
    · intro digits' same
      cases same
      exact accepted.2 _ digits tail
    · rw [url (some digits) tail]
      rfl

/-- The path begins at the first of the two characters. -/
theorem exists_front (s : List UInt8) :
    ∃ front rest, s = front ++ rest ∧ (∀ c ∈ front, c ≠ '/'.toUInt8 ∧ c ≠ '?'.toUInt8) ∧
      (rest = [] ∨ ∃ c tail, rest = c :: tail ∧ (c = '/'.toUInt8 ∨ c = '?'.toUInt8)) := by
  induction s with
  | nil => exact ⟨[], [], rfl, by simp, Or.inl rfl⟩
  | cons c s ih =>
      by_cases path : c = '/'.toUInt8 ∨ c = '?'.toUInt8
      · exact ⟨[], c :: s, rfl, by simp, Or.inr ⟨c, s, rfl, path⟩⟩
      · rcases ih with ⟨front, rest, split, plain, starts⟩
        refine ⟨c :: front, rest, by rw [split, List.cons_append], ?_, starts⟩
        intro d mem
        rcases List.mem_cons.mp mem with rfl | mem
        · exact not_or.mp path
        · exact plain d mem

/-- A URL with the scheme has its parts. -/
theorem exists_cut {url : List UInt8} (starts : url.take 7 = scheme) :
    ∃ cut : Cut, cut.url = url := by
  have whole : url = scheme ++ url.drop 7 := by
    rw [← starts, List.take_append_drop]
  rcases exists_front (url.drop 7) with ⟨front, rest, split, plain, restStarts⟩
  rw [split] at whole
  by_cases user : '@'.toUInt8 ∈ front
  · rcases List.eq_append_cons_of_mem user with ⟨u, hostport, rfl, first⟩
    have userPlain : ∀ v, some u = some v → ∀ c ∈ v,
        c ≠ '@'.toUInt8 ∧ c ≠ '/'.toUInt8 ∧ c ≠ '?'.toUInt8 := by
      intro v same c mem
      cases same
      exact ⟨fun same => first (same ▸ mem), plain c (List.mem_append_left _ mem)⟩
    have hostPlain : ∀ c ∈ hostport, c ≠ '/'.toUInt8 ∧ c ≠ '?'.toUInt8 :=
      fun c mem => plain c (List.mem_append_right _ (List.mem_cons_of_mem _ mem))
    refine ⟨⟨some u, hostport, rest, userPlain, hostPlain, by simp, restStarts⟩, ?_⟩
    rw [whole]
    simp [Cut.url, Cut.before, UrlForm.userText]
  · exact ⟨⟨none, front, rest, by simp, plain, fun _ => user, restStarts⟩, whole.symm⟩

/-! ## Acceptance -/

/-- The run stays in its buffers; it accepts the URLs of the form with a port that fits,
and then gives the parts of the form. -/
structure Parses (url : List UInt8) (run : Exec (Option HttpUrl)) : Prop where
  inside : ∃ result, run = .ok result
  accepts_iff : (∃ res, run = .ok (some res)) ↔
    ∃ form : UrlForm, form.text = url ∧ form.portValue ≤ 65535
  parts : ∀ (form : UrlForm) (res : HttpUrl), form.text = url → run = .ok (some res) →
    res.host = form.host ∧ res.port.toNat = form.portValue ∧ res.uri = form.uri

/-- The URL of a form is accepted, whatever its port. -/
theorem httpUrlParse_form (form : UrlForm) (noNul : 0 ∉ form.text) (junk : Nat → UInt8)
    (undefined : Nat → UInt16) :
    ∃ res, httpUrlParse (some junk) undefined form.text = .ok (some res) ∧
      res.host = form.host ∧ res.uri = form.uri ∧
      res.port =
        if form.portValue < 65536 then form.portValue.toUInt16
        else undefined form.portValue := by
  rcases httpUrlParse_accepted form.cut noNul junk undefined form.accepted_cut with
    ⟨res, run, result⟩
  exact ⟨res, run, result.host.trans form.host_cut.1, result.uri,
    result.port.trans (form.port_cut undefined)⟩

/-- A URL has the form with one port: what is stored for a port that fits cannot be what
is stored for one that does not. -/
theorem portValue_le_of_text {form form' : UrlForm} (text : form.text = form'.text)
    (noNul : 0 ∉ form.text) (small : form'.portValue ≤ 65535) : form.portValue ≤ 65535 := by
  by_contra large
  let undefined : Nat → UInt16 := fun _ => (form'.portValue + 1).toUInt16
  rcases httpUrlParse_form form noNul (fun _ => 0) undefined with ⟨res, run, -, -, port⟩
  rcases httpUrlParse_form form' (text ▸ noNul) (fun _ => 0) undefined with
    ⟨res', run', -, -, port'⟩
  rw [text, run'] at run
  cases run
  rw [if_neg (by omega)] at port
  rw [if_pos (by omega), port] at port'
  have same : (form'.portValue + 1) % 65536 = form'.portValue % 65536 :=
    congrArg UInt16.toNat port'
  omega

/-- What is accepted has the form. -/
theorem form_of_accepted {url : List UInt8} {heap : Option (Nat → UInt8)}
    {undefined : Nat → UInt16} {res : HttpUrl}
    (run : httpUrlParse heap undefined url = .ok (some res)) :
    ∃ form : UrlForm, form.text = url := by
  by_cases starts : url.take 7 = scheme
  · rcases exists_cut starts with ⟨cut, rfl⟩
    by_cases accepted : cut.Accepted
    · exact accepted.form
    · rw [httpUrlParse_refused cut heap undefined accepted] at run
      cases run
  · rw [httpUrlParse, if_pos starts] at run
    cases run

/-- The routine ends. -/
theorem httpUrlParse_inside {url : List UInt8} (noNul : 0 ∉ url) (junk : Nat → UInt8)
    (undefined : Nat → UInt16) :
    ∃ result, httpUrlParse (some junk) undefined url = .ok result := by
  by_cases starts : url.take 7 = scheme
  · rcases exists_cut starts with ⟨cut, rfl⟩
    by_cases accepted : cut.Accepted
    · rcases httpUrlParse_accepted cut noNul junk undefined accepted with ⟨res, run, -⟩
      exact ⟨_, run⟩
    · exact ⟨_, httpUrlParse_refused cut _ undefined accepted⟩
  · exact ⟨none, if_pos starts⟩

theorem forall_of_all {xs : List UInt8} {P : UInt8 → Prop} [DecidablePred P]
    (all : xs.all (fun c => decide (P c)) = true) : ∀ c ∈ xs, P c :=
  fun c mem => of_decide_eq_true (List.all_eq_true.mp all c mem)

/-- `http://a:65536`. -/
def largePort : UrlForm where
  user := none
  host := literal "a"
  port := some (literal "65536")
  rest := []
  user_plain := by simp
  host_some := by decide
  host_plain := forall_of_all (by decide)
  no_user := by decide
  port_digits := by
    intro digits same
    cases same
    exact ⟨by decide, forall_of_all (by decide)⟩
  rest_starts := Or.inl rfl

/-- A port that does not fit is accepted. -/
theorem httpUrlParse_largePort :
    ¬ ∀ (url : List UInt8) (junk : Nat → UInt8) (undefined : Nat → UInt16), 0 ∉ url →
      Parses url (httpUrlParse (some junk) undefined url) := by
  intro all
  have parses := all largePort.text (fun _ => 0) Nat.toUInt16 (by decide)
  rcases httpUrlParse_form largePort (by decide) (fun _ => 0) Nat.toUInt16 with ⟨res, run, -⟩
  have port := (parses.parts largePort res rfl run).2.1
  have large : largePort.portValue = 65536 := by decide
  have small := res.port.toNat_lt
  omega

/-- The routine accepts exactly the URLs of the form and gives their parts, unless the URL
has the form with a port that does not fit. -/
theorem httpUrlParse_parses_iff (url : List UInt8) (noNul : 0 ∉ url) (junk : Nat → UInt8)
    (undefined : Nat → UInt16) :
    Parses url (httpUrlParse (some junk) undefined url) ↔
      ¬ ∃ form : UrlForm, form.text = url ∧ 65535 < form.portValue := by
  constructor
  · rintro parses ⟨form, rfl, large⟩
    rcases httpUrlParse_form form noNul junk undefined with ⟨res, run, -⟩
    have port := (parses.parts form res rfl run).2.1
    have small := res.port.toNat_lt
    omega
  · intro fits
    have small : ∀ form : UrlForm, form.text = url → form.portValue ≤ 65535 :=
      fun form text => not_lt.mp fun large => fits ⟨form, text, large⟩
    constructor
    · exact httpUrlParse_inside noNul junk undefined
    · constructor
      · rintro ⟨res, run⟩
        rcases form_of_accepted run with ⟨form, text⟩
        exact ⟨form, text, small form text⟩
      · rintro ⟨form, rfl, -⟩
        rcases httpUrlParse_form form noNul junk undefined with ⟨res, run, -⟩
        exact ⟨res, run⟩
    · rintro form res rfl run
      rcases httpUrlParse_form form noNul junk undefined with ⟨res', run', host, uri, port⟩
      have fits : form.portValue < 65536 := Nat.lt_succ_of_le (small form rfl)
      rw [run] at run'
      cases run'
      rw [if_pos fits] at port
      refine ⟨host, ?_, uri⟩
      rw [port]
      exact UInt16.toNat_ofNat_of_lt fits

/-- A URL with a user, a port and a query. -/
def userPort : UrlForm where
  user := some (literal "u")
  host := literal "a@b"
  port := some (literal "8080")
  rest := literal "?q"
  user_plain := by
    intro u same
    cases same
    exact forall_of_all (by decide)
  host_some := by decide
  host_plain := forall_of_all (by decide)
  no_user := by decide
  port_digits := by
    intro digits same
    cases same
    exact ⟨by decide, forall_of_all (by decide)⟩
  rest_starts := Or.inr ⟨_, _, rfl, Or.inr rfl⟩

/-- The URL is parsed. -/
theorem httpUrlParse_parses_iff_userPort :
    userPort.text = literal "http://u@a@b:8080?q" ∧
      Parses userPort.text (httpUrlParse (some fun _ => 0) Nat.toUInt16 userPort.text) := by
  refine ⟨by decide, ?_⟩
  apply (httpUrlParse_parses_iff userPort.text (by decide) (fun _ => 0) Nat.toUInt16).mpr
  rintro ⟨form, text, large⟩
  have small := portValue_le_of_text text (by rw [text]; decide) (by decide)
  omega

end Btpd.Http.Url
