import Btpd.Library.Text
import Btpd.Metainfo.Paths

/-!
# The URL of a request

`http_url_parse` finds five places in the string by searches of their own, and
lays the host and the path out in one allocation whose size is a sum of
differences.  The model keeps the places as positions in the string and writes
into an allocation of exactly that size; what `malloc` leaves in it is arbitrary.
-/

namespace Btpd.Http.Url

open Benc (Fault Exec literal)
open Metainfo (cString)
open Text (ofDigits)

/-! ## The routine -/

/-- `"http://"`. -/
def scheme : List UInt8 := literal "http://"

/-- `*cur >= '0' && *cur <= '9'`. -/
def isdigit (c : UInt8) : Bool := '0'.toUInt8 ≤ c && c ≤ '9'.toUInt8

/-- `strchr(url + start, c)`. -/
def strchr (url : List UInt8) (start : Nat) (c : UInt8) : Option Nat :=
  ((url.drop start).findIdx? (· == c)).map (start + ·)

/-- `while (cur < uri && p(*cur)) cur++;` with `uri - cur` for the first argument.  The
zero byte lies at or behind `uri`. -/
def skip (url : List UInt8) (p : UInt8 → Bool) : Nat → Nat → Nat
  | 0, cur => cur
  | left + 1, cur =>
      match url[cur]? with
      | some c => if p c then skip url p left (cur + 1) else cur
      | none => cur

/-- The first of the two characters with which the path can begin, or the end. -/
def uriOf (url : List UInt8) : Nat :=
  match strchr url 7 '/'.toUInt8, strchr url 7 '?'.toUInt8 with
  | some uri, some cur => if cur < uri then cur else uri
  | none, some cur => cur
  | some uri, none => uri
  | none, none => url.length

/-- Behind the user, if there is one. -/
def hostOf (url : List UInt8) (uri : Nat) : Nat :=
  match strchr url 7 '@'.toUInt8 with
  | some at_ => if at_ < uri then at_ + 1 else 7
  | none => 7

/-- The place of the port; `some none` when there is none, and `none` when the URL is
refused for it. -/
def portOf (url : List UInt8) (host_e uri : Nat) : Option (Option Nat) :=
  if url[host_e]? = some ':'.toUInt8 then
    let cur := skip url isdigit (uri - (host_e + 1)) (host_e + 1)
    if cur = host_e + 1 ∨ cur ≠ uri then none else some (some (host_e + 1))
  else some none

/-- `sscanf(port, "%hu", ..)` at a digit.  What is stored for a number that the type does
not represent is not defined. -/
def sscanfHu (undefined : Nat → UInt16) (s : List UInt8) : UInt16 :=
  let n := ofDigits 10 (s.takeWhile isdigit)
  if n < 65536 then n.toUInt16 else undefined n

/-- `bcopy` into the allocation. -/
def bcopy (xs : List UInt8) (block : List UInt8) (off : Nat) : Exec (List UInt8) :=
  if off + xs.length ≤ block.length then
    .ok (block.take off ++ (xs ++ block.drop (off + xs.length)))
  else .error .outOfBounds

/-- The result: the port, and the bytes behind the structure with the offset of the path. -/
structure HttpUrl where
  port : UInt16
  block : List UInt8
  uriOff : Nat

/-- `res->host`. -/
def HttpUrl.host (res : HttpUrl) : List UInt8 := cString res.block

/-- `res->uri`. -/
def HttpUrl.uri (res : HttpUrl) : List UInt8 := cString (res.block.drop res.uriOff)

/-- `url[a]` up to `url[b]`. -/
def between (url : List UInt8) (a b : Nat) : List UInt8 := (url.drop a).take (b - a)

/-- The path is copied behind the host. -/
def layUri (url : List UInt8) (uri uri_e : Nat) (block : List UInt8) (off : Nat) :
    Exec (List UInt8) :=
  if url[uri]? ≠ some '/'.toUInt8 then do
    let block ← bcopy ['/'.toUInt8] block off
    let block ← bcopy (between url uri uri_e) block (off + 1)
    bcopy [0] block (off + 1 + (uri_e - uri))
  else do
    let block ← bcopy (between url uri uri_e) block off
    bcopy [0] block (off + (uri_e - uri))

/-- The host and the path are copied. -/
def layOut (url : List UInt8) (host host_e uri uri_e : Nat) (block : List UInt8) :
    Exec (List UInt8) := do
  let block ← bcopy (between url host host_e) block 0
  let block ← bcopy [0] block (host_e - host)
  layUri url uri uri_e block (host_e - host + 1)

/-- `malloc` with what it finds in the memory, or nothing when there is none. -/
def malloc (heap : Option (Nat → UInt8)) (size : Nat) : Option (List UInt8) :=
  heap.map fun junk => (List.range size).map junk

/-- The number of the port; 80 when the URL gives none. -/
def portNumber (undefined : Nat → UInt16) (url : List UInt8) : Option Nat → UInt16
  | some port => sscanfHu undefined (url.drop port)
  | none => 80

/-- From the allocation on. -/
def build (heap : Option (Nat → UInt8)) (undefined : Nat → UInt16) (url : List UInt8)
    (host host_e uri : Nat) (port : Option Nat) : Exec (Option HttpUrl) :=
  match malloc heap (host_e - host + 1 + (url.length - uri) + 2) with
  | none => .ok none
  | some block => do
      let block ← layOut url host host_e uri url.length block
      .ok (some ⟨portNumber undefined url port, block, host_e - host + 1⟩)

/-- `http_url_parse`. -/
def httpUrlParse (heap : Option (Nat → UInt8)) (undefined : Nat → UInt16) (url : List UInt8) :
    Exec (Option HttpUrl) :=
  if url.take 7 ≠ scheme then .ok none
  else
    let uri := uriOf url
    let host := hostOf url uri
    let host_e := skip url (· != ':'.toUInt8) (uri - host) host
    if host_e = host then .ok none
    else
      match portOf url host_e uri with
      | none => .ok none
      | some port => build heap undefined url host host_e uri port

/-! ## The form of a URL -/

/-- `http://[userinfo@]host[:port][rest]`: the rest starts at the first slash or question
mark, and the user ends at the first `@` before it. -/
structure UrlForm where
  user : Option (List UInt8)
  host : List UInt8
  port : Option (List UInt8)
  rest : List UInt8
  user_plain : ∀ u, user = some u → ∀ c ∈ u,
    c ≠ '@'.toUInt8 ∧ c ≠ '/'.toUInt8 ∧ c ≠ '?'.toUInt8
  host_some : host ≠ []
  host_plain : ∀ c ∈ host, c ≠ ':'.toUInt8 ∧ c ≠ '/'.toUInt8 ∧ c ≠ '?'.toUInt8
  no_user : user = none → '@'.toUInt8 ∉ host
  port_digits : ∀ digits, port = some digits → digits ≠ [] ∧ ∀ c ∈ digits, isdigit c
  rest_starts : rest = [] ∨ ∃ c tail, rest = c :: tail ∧ (c = '/'.toUInt8 ∨ c = '?'.toUInt8)

namespace UrlForm

/-- The user with the `@`. -/
def userText : Option (List UInt8) → List UInt8
  | some user => user ++ ['@'.toUInt8]
  | none => []

/-- The port with the colon. -/
def portText : Option (List UInt8) → List UInt8
  | some digits => ':'.toUInt8 :: digits
  | none => []

/-- The URL of the form. -/
def text (form : UrlForm) : List UInt8 :=
  scheme ++ (userText form.user ++ ((form.host ++ portText form.port) ++ form.rest))

/-- The number of the port. -/
def portValue (form : UrlForm) : Nat :=
  match form.port with
  | some digits => ofDigits 10 digits
  | none => 80

/-- The path that is asked for. -/
def uri (form : UrlForm) : List UInt8 :=
  if form.rest.head? = some '/'.toUInt8 then form.rest else '/'.toUInt8 :: form.rest

end UrlForm

/-! ## The places -/

section Places

variable {pre xs : List UInt8} {c : UInt8}

/-- The scan over a part of the string. -/
theorem skip_eq (pre xs post : List UInt8) (p : UInt8 → Bool) :
    skip (pre ++ (xs ++ post)) p xs.length pre.length =
      pre.length + (xs.takeWhile p).length := by
  induction xs generalizing pre with
  | nil => rfl
  | cons x xs ih =>
      have here : (pre ++ (x :: xs ++ post))[pre.length]? = some x := by
        rw [List.getElem?_append_right (Nat.le_refl _), Nat.sub_self]
        rfl
      rw [List.length_cons, skip, here]
      show (if p x then _ else _) = _
      rw [List.takeWhile_cons]
      by_cases kind : p x
      · have next := ih (pre ++ [x])
        rw [List.append_assoc, List.length_append, List.length_singleton] at next
        rw [if_pos kind, if_pos kind, List.length_cons]
        rw [show pre ++ (x :: xs ++ post) = pre ++ ([x] ++ (xs ++ post)) from rfl, next]
        omega
      · rw [if_neg kind, if_neg kind]
        rfl

/-- The part between two places. -/
theorem between_eq (pre xs post : List UInt8) :
    between (pre ++ (xs ++ post)) pre.length (pre.length + xs.length) = xs := by
  rw [between, List.drop_left, Nat.add_sub_cancel_left, List.take_left]

/-- A character is found where it first stands. -/
theorem strchr_found (post : List UInt8) (long : pre.length = 7) (before : c ∉ xs) :
    strchr (pre ++ (xs ++ c :: post)) 7 c = some (7 + xs.length) := by
  have front : xs.findIdx? (· == c) = none := by
    rw [List.findIdx?_eq_none_iff]
    exact fun x mem => beq_eq_false_iff_ne.mpr fun same => before (same ▸ mem)
  rw [strchr, ← long, List.drop_left, List.findIdx?_append, front]
  simp [List.findIdx?_cons]

/-- A character that does not stand in the first part is found behind it or not at all. -/
theorem strchr_behind (post : List UInt8) (long : pre.length = 7) (before : c ∉ xs) :
    strchr (pre ++ (xs ++ post)) 7 c = none ∨
      ∃ k, strchr (pre ++ (xs ++ post)) 7 c = some (7 + xs.length + k) ∧ post[k]? = some c := by
  have front : xs.findIdx? (· == c) = none := by
    rw [List.findIdx?_eq_none_iff]
    exact fun x mem => beq_eq_false_iff_ne.mpr fun same => before (same ▸ mem)
  rw [strchr, ← long, List.drop_left, List.findIdx?_append, front]
  cases found : post.findIdx? (· == c) with
  | none => exact Or.inl rfl
  | some k =>
      apply Or.inr
      refine ⟨k, ?_, ?_⟩
      · show some (pre.length + (k + xs.length)) = some (pre.length + xs.length + k)
        congr 1
        omega
      · rcases List.findIdx?_eq_some_iff_getElem.mp found with ⟨inside, same, -⟩
        rw [List.getElem?_eq_getElem inside, beq_iff_eq.mp same]

end Places

/-- The parts of a URL that has the scheme: what stands before the path is cut behind the
first `@`. -/
structure Cut where
  user : Option (List UInt8)
  hostport : List UInt8
  rest : List UInt8
  user_plain : ∀ u, user = some u → ∀ c ∈ u,
    c ≠ '@'.toUInt8 ∧ c ≠ '/'.toUInt8 ∧ c ≠ '?'.toUInt8
  plain : ∀ c ∈ hostport, c ≠ '/'.toUInt8 ∧ c ≠ '?'.toUInt8
  no_user : user = none → '@'.toUInt8 ∉ hostport
  rest_starts : rest = [] ∨ ∃ c tail, rest = c :: tail ∧ (c = '/'.toUInt8 ∨ c = '?'.toUInt8)

namespace Cut

/-- The user with the `@`. -/
abbrev before (cut : Cut) : List UInt8 := UrlForm.userText cut.user

/-- The URL. -/
def url (cut : Cut) : List UInt8 := scheme ++ (cut.before ++ (cut.hostport ++ cut.rest))

theorem length_scheme : scheme.length = 7 := by decide

theorem url_eq_front (cut : Cut) : cut.url = scheme ++ ((cut.before ++ cut.hostport) ++ cut.rest) := by
  rw [url, List.append_assoc]

/-- What stands before the path contains neither of the two characters. -/
theorem plain_front (cut : Cut) {c : UInt8} (path : c = '/'.toUInt8 ∨ c = '?'.toUInt8) :
    c ∉ cut.before ++ cut.hostport := by
  intro mem
  rcases List.mem_append.mp mem with inside | inside
  · cases user : cut.user with
    | none =>
        rw [before, user] at inside
        cases inside
    | some u =>
        rw [before, user, UrlForm.userText] at inside
        rcases List.mem_append.mp inside with inside | last
        · have plain := cut.user_plain u user c inside
          rcases path with slash | query
          · exact plain.2.1 slash
          · exact plain.2.2 query
        · rw [List.mem_singleton] at last
          rcases path with rfl | rfl
          · exact absurd last (by decide)
          · exact absurd last (by decide)
  · have plain := cut.plain c inside
    rcases path with slash | query
    · exact plain.1 slash
    · exact plain.2 query

/-- The path begins behind the host and the port. -/
theorem uriOf_eq (cut : Cut) : uriOf cut.url = 7 + (cut.before ++ cut.hostport).length := by
  have slashFree := cut.plain_front (Or.inl rfl)
  have queryFree := cut.plain_front (Or.inr rfl)
  have slashBehind := strchr_behind cut.rest length_scheme slashFree
  have queryBehind := strchr_behind cut.rest length_scheme queryFree
  rw [cut.url_eq_front]
  rcases cut.rest_starts with empty | ⟨c, tail, starts, rfl | rfl⟩
  · rw [empty] at slashBehind queryBehind ⊢
    rcases slashBehind with noSlash | ⟨k, -, found⟩
    · rcases queryBehind with noQuery | ⟨k, -, found⟩
      · rw [uriOf, noSlash, noQuery]
        show List.length _ = _
        rw [List.append_nil, List.length_append, length_scheme]
      · cases found
    · cases found
  · rw [starts] at queryBehind ⊢
    rw [uriOf, strchr_found tail length_scheme slashFree]
    rcases queryBehind with none | ⟨k, found, -⟩
    · rw [none]
    · rw [found]
      exact if_neg (by omega)
  · rw [starts] at slashBehind ⊢
    rw [uriOf, strchr_found tail length_scheme queryFree]
    rcases slashBehind with none | ⟨k, found, stands⟩
    · rw [none]
    · rw [found]
      have later : 0 < k := by
        cases k with
        | zero =>
            rw [List.getElem?_cons_zero, Option.some.injEq] at stands
            exact absurd stands (by decide)
        | succ k => exact Nat.succ_pos k
      exact if_pos (by omega)

/-- The host begins behind the user. -/
theorem hostOf_eq (cut : Cut) : hostOf cut.url (uriOf cut.url) = 7 + cut.before.length := by
  rw [cut.uriOf_eq, url, before]
  cases user : cut.user with
  | none =>
      have behind := strchr_behind cut.rest length_scheme (cut.no_user user)
      rw [UrlForm.userText, List.nil_append, hostOf]
      rcases behind with none | ⟨k, found, -⟩
      · rw [none]
        rfl
      · rw [found]
        exact if_neg (by rw [List.nil_append]; omega)
  | some u =>
      have free : '@'.toUInt8 ∉ u := fun mem => (cut.user_plain u user _ mem).1 rfl
      have found := strchr_found (cut.hostport ++ cut.rest) length_scheme free
      rw [UrlForm.userText, List.append_assoc u, hostOf]
      show (match strchr (scheme ++ (u ++ '@'.toUInt8 :: (cut.hostport ++ cut.rest))) 7 _ with
        | some at_ => if at_ < _ then at_ + 1 else 7
        | none => 7) = _
      rw [found]
      show (if _ then _ else _) = _
      rw [if_pos (by rw [List.length_append, List.length_append]; simp; omega),
        List.length_append]
      rfl

/-- The part of the host and port that is the host. -/
def host (cut : Cut) : List UInt8 := cut.hostport.takeWhile (· != ':'.toUInt8)

/-- The part of it that begins with the colon. -/
def tail (cut : Cut) : List UInt8 := cut.hostport.dropWhile (· != ':'.toUInt8)

theorem host_append_tail (cut : Cut) : cut.host ++ cut.tail = cut.hostport :=
  List.takeWhile_append_dropWhile

/-- The host ends before the colon. -/
theorem skip_host (cut : Cut) :
    skip cut.url (· != ':'.toUInt8) (uriOf cut.url - hostOf cut.url (uriOf cut.url))
        (hostOf cut.url (uriOf cut.url)) =
      7 + cut.before.length + cut.host.length := by
  have place : 7 + cut.before.length = (scheme ++ cut.before).length := by
    rw [List.length_append, length_scheme]
  have room : uriOf cut.url - (7 + cut.before.length) = cut.hostport.length := by
    rw [cut.uriOf_eq, List.length_append]
    omega
  rw [cut.hostOf_eq, room, place, url, ← List.append_assoc scheme]
  exact skip_eq (scheme ++ cut.before) cut.hostport cut.rest _

end Cut

/-! ## The port -/

namespace Cut

/-- What does not belong to the host begins with the colon. -/
theorem tail_starts (cut : Cut) : cut.tail = [] ∨ ∃ digits, cut.tail = ':'.toUInt8 :: digits := by
  cases split : cut.tail with
  | nil => exact Or.inl rfl
  | cons c digits =>
      have kind : (c != ':'.toUInt8) = false := by
        have head := List.head?_dropWhile_not (· != ':'.toUInt8) cut.hostport
        rw [show cut.hostport.dropWhile (· != ':'.toUInt8) = c :: digits from split] at head
        simpa using head
      have same : c = ':'.toUInt8 := by simpa using kind
      exact Or.inr ⟨digits, by rw [same]⟩

/-- The rest does not begin with a byte of another kind. -/
theorem rest_head (cut : Cut) {p : UInt8 → Bool} (slash : p '/'.toUInt8 = false)
    (query : p '?'.toUInt8 = false) : cut.rest.takeWhile p = [] := by
  rcases cut.rest_starts with empty | ⟨c, tail, starts, rfl | rfl⟩
  · rw [empty]
    rfl
  · rw [starts, List.takeWhile_cons, if_neg (by rw [slash]; decide)]
  · rw [starts, List.takeWhile_cons, if_neg (by rw [query]; decide)]

/-- The place behind the host. -/
abbrev hostEnd (cut : Cut) : Nat := 7 + cut.before.length + cut.host.length

theorem length_front (cut : Cut) :
    (scheme ++ cut.before ++ cut.host).length = cut.hostEnd := by
  rw [List.length_append, List.length_append, length_scheme]

theorem url_eq_host (cut : Cut) :
    cut.url = (scheme ++ cut.before ++ cut.host) ++ (cut.tail ++ cut.rest) := by
  rw [url, ← cut.host_append_tail]
  simp only [List.append_assoc]

/-- Without a colon there is no port. -/
theorem portOf_none (cut : Cut) (noTail : cut.tail = []) :
    portOf cut.url cut.hostEnd (uriOf cut.url) = some none := by
  rw [portOf, if_neg]
  rw [cut.url_eq_host, ← cut.length_front, List.getElem?_append_right (Nat.le_refl _),
    Nat.sub_self, noTail, List.nil_append]
  rcases cut.rest_starts with empty | ⟨c, tail, starts, rfl | rfl⟩
  · rw [empty]
    decide
  · rw [starts, List.getElem?_cons_zero]
    decide
  · rw [starts, List.getElem?_cons_zero]
    decide

/-- Behind the colon there must be digits up to the rest. -/
theorem portOf_some (cut : Cut) {digits : List UInt8} (tail : cut.tail = ':'.toUInt8 :: digits) :
    portOf cut.url cut.hostEnd (uriOf cut.url) =
      if digits ≠ [] ∧ ∀ c ∈ digits, isdigit c then some (some (cut.hostEnd + 1)) else none := by
  have colon : cut.url[cut.hostEnd]? = some ':'.toUInt8 := by
    rw [cut.url_eq_host, ← cut.length_front, List.getElem?_append_right (Nat.le_refl _),
      Nat.sub_self, tail]
    rfl
  have hostport : cut.hostport.length = cut.host.length + (digits.length + 1) := by
    rw [← cut.host_append_tail, List.length_append, tail, List.length_cons]
  have uri : uriOf cut.url = cut.hostEnd + 1 + digits.length := by
    rw [cut.uriOf_eq, List.length_append, hostport, hostEnd]
    omega
  have split : cut.url =
      (scheme ++ cut.before ++ cut.host ++ [':'.toUInt8]) ++ (digits ++ cut.rest) := by
    rw [cut.url_eq_host, tail]
    simp only [List.append_assoc, List.cons_append, List.nil_append]
  have place : (scheme ++ cut.before ++ cut.host ++ [':'.toUInt8]).length = cut.hostEnd + 1 := by
    rw [List.length_append, cut.length_front, List.length_singleton]
  have scanned : skip cut.url isdigit digits.length (cut.hostEnd + 1) =
      cut.hostEnd + 1 + (digits.takeWhile isdigit).length := by
    rw [split, ← place]
    exact skip_eq _ digits cut.rest isdigit
  rw [portOf, if_pos colon]
  dsimp only
  rw [show uriOf cut.url - (cut.hostEnd + 1) = digits.length by omega, scanned, uri]
  have whole := (digits.takeWhile_prefix isdigit).length_le
  by_cases fine : digits ≠ [] ∧ ∀ c ∈ digits, isdigit c
  · have all : digits.takeWhile isdigit = digits := List.takeWhile_eq_self_iff.mpr fine.2
    have positive : 0 < digits.length := List.length_pos_iff.mpr fine.1
    rw [if_pos fine, all, if_neg]
    rintro (none | short)
    · omega
    · exact short rfl
  · rw [if_neg fine, if_pos]
    by_contra both
    rw [not_or, Decidable.not_not] at both
    have all : digits.takeWhile isdigit = digits :=
      (digits.takeWhile_prefix isdigit).eq_of_length (by omega)
    apply fine
    constructor
    · intro empty
      rw [empty] at both
      exact both.1 rfl
    · exact List.takeWhile_eq_self_iff.mp all

end Cut

/-! ## The allocation -/

/-- What is copied behind the first bytes of the allocation. -/
theorem bcopy_ok (xs pre more : List UInt8) (room : xs.length ≤ more.length) :
    bcopy xs (pre ++ more) pre.length = .ok (pre ++ (xs ++ more.drop xs.length)) := by
  rw [bcopy, if_pos (by rw [List.length_append]; omega), List.take_left,
    List.drop_length_add_append]

/-- The path with a slash in front. -/
def withSlash (rest : List UInt8) : List UInt8 :=
  if rest.head? = some '/'.toUInt8 then rest else '/'.toUInt8 :: rest

/-- The path is laid out with its zero byte. -/
theorem layUri_ok (url rest pre more : List UInt8) (uri uri_e : Nat)
    (between_ : between url uri uri_e = rest) (length : uri_e - uri = rest.length)
    (head : url[uri]? = rest.head?) (room : rest.length + 2 ≤ more.length) :
    ∃ post, layUri url uri uri_e (pre ++ more) pre.length =
      .ok (pre ++ (withSlash rest ++ 0 :: post)) := by
  rw [layUri, head, between_, length, withSlash]
  by_cases slash : rest.head? = some '/'.toUInt8
  · rw [if_neg (by rw [Decidable.not_not]; exact slash), if_pos slash,
      bcopy_ok rest pre more (by omega)]
    have second := bcopy_ok [0] (pre ++ rest) (more.drop rest.length)
      (by rw [List.length_drop, List.length_singleton]; omega)
    rw [List.length_append, List.append_assoc, List.append_assoc] at second
    exact ⟨_, second⟩
  · rw [if_pos slash, if_neg slash, bcopy_ok ['/'.toUInt8] pre more
      (by rw [List.length_singleton]; omega)]
    have second := bcopy_ok rest (pre ++ ['/'.toUInt8]) (more.drop 1)
      (by rw [List.length_drop]; omega)
    have third := bcopy_ok [0] (pre ++ ['/'.toUInt8] ++ rest) ((more.drop 1).drop rest.length)
      (by rw [List.length_drop, List.length_drop, List.length_singleton]; omega)
    simp only [List.length_append, List.length_singleton, List.append_assoc] at second third
    rw [← Nat.add_assoc] at third
    refine ⟨((more.drop 1).drop rest.length).drop 1, ?_⟩
    show (bcopy rest (pre ++ (['/'.toUInt8] ++ more.drop 1)) (pre.length + 1) >>= fun block =>
      bcopy [0] block (pre.length + 1 + rest.length)) = _
    rw [second]
    exact third

/-- The host and the path are laid out in an allocation of the size that is asked for. -/
theorem layOut_ok (url h rest block : List UInt8) (host host_e uri uri_e : Nat)
    (hostIs : between url host host_e = h) (hostLong : host_e - host = h.length)
    (uriIs : between url uri uri_e = rest) (uriLong : uri_e - uri = rest.length)
    (head : url[uri]? = rest.head?) (room : h.length + 1 + rest.length + 2 ≤ block.length) :
    ∃ post, layOut url host host_e uri uri_e block =
      .ok (h ++ 0 :: (withSlash rest ++ 0 :: post)) := by
  have first := bcopy_ok h [] block (by omega)
  have second := bcopy_ok [0] h (block.drop h.length)
    (by rw [List.length_drop, List.length_singleton]; omega)
  rw [List.nil_append, List.nil_append, List.length_nil] at first
  rcases layUri_ok url rest (h ++ [0]) ((block.drop h.length).drop 1) uri uri_e uriIs uriLong
    head (by rw [List.length_drop, List.length_drop]; omega) with ⟨post, third⟩
  refine ⟨post, ?_⟩
  rw [List.length_append, List.length_singleton, List.append_assoc, List.append_assoc] at third
  rw [layOut, hostIs, hostLong, first]
  show (bcopy [0] (h ++ block.drop h.length) h.length >>= fun block =>
    layUri url uri uri_e block (h.length + 1)) = _
  rw [second]
  exact third

/-! ## The routine on the parts of a URL -/

/-- What is accepted of the part with the host and the port. -/
def Cut.Accepted (cut : Cut) : Prop :=
  cut.host ≠ [] ∧ ∀ c digits, cut.tail = c :: digits → digits ≠ [] ∧ ∀ c ∈ digits, isdigit c

/-- The port that is stored. -/
def Cut.port (cut : Cut) (undefined : Nat → UInt16) : UInt16 :=
  match cut.tail with
  | [] => 80
  | _ :: digits =>
      if ofDigits 10 digits < 65536 then (ofDigits 10 digits).toUInt16
      else undefined (ofDigits 10 digits)

/-- The result holds the parts of the URL. -/
structure Cut.Result (cut : Cut) (undefined : Nat → UInt16) (res : HttpUrl) : Prop where
  host : res.host = cut.host
  port : res.port = cut.port undefined
  uri : res.uri = withSlash cut.rest

theorem scheme_take (cut : Cut) : cut.url.take 7 = scheme := by
  rw [Cut.url, ← Cut.length_scheme, List.take_left]

theorem cString_append {text : List UInt8} (noNul : 0 ∉ text) (rest : List UInt8) :
    cString (text ++ 0 :: rest) = text := by
  rw [cString, Join.cutAt_append noNul, Join.cutAt_cons, if_pos rfl, List.append_nil]

/-- The result of what is laid out. -/
theorem result_of_layOut {cut : Cut} (noNul : 0 ∉ cut.url) (undefined : Nat → UInt16)
    (post : List UInt8) :
    cut.Result undefined ⟨cut.port undefined,
      cut.host ++ 0 :: (withSlash cut.rest ++ 0 :: post), cut.host.length + 1⟩ := by
  rw [cut.url_eq_host] at noNul
  simp only [List.mem_append, not_or] at noNul
  rcases noNul with ⟨⟨-, noHost⟩, -, noRest⟩
  have noSlash : 0 ∉ withSlash cut.rest := by
    rw [withSlash]
    split
    · exact noRest
    · rw [List.mem_cons, not_or]
      exact ⟨by decide, noRest⟩
  constructor
  · exact cString_append noHost _
  · rfl
  · have behind : (cut.host ++ 0 :: (withSlash cut.rest ++ 0 :: post)).drop
        (cut.host.length + 1) = withSlash cut.rest ++ 0 :: post := by
      rw [List.drop_length_add_append]
      rfl
    show cString (List.drop _ _) = _
    rw [behind]
    exact cString_append noSlash post

/-- The place where `sscanf` is given the digits. -/
def Cut.portPlace (cut : Cut) : Option Nat :=
  match cut.tail with
  | [] => none
  | _ :: _ => some (cut.hostEnd + 1)

/-- The port is taken from its digits. -/
theorem portNumber_eq (cut : Cut) (undefined : Nat → UInt16) (accepted : cut.Accepted) :
    portNumber undefined cut.url cut.portPlace = cut.port undefined := by
  cases tail : cut.tail with
  | nil => rw [Cut.portPlace, Cut.port, tail, portNumber]
  | cons c digits =>
      have behind : cut.url.drop (cut.hostEnd + 1) = digits ++ cut.rest := by
        rw [cut.url_eq_host, ← cut.length_front, List.drop_length_add_append, tail]
        rfl
      have scanned : (digits ++ cut.rest).takeWhile isdigit = digits := by
        rw [List.takeWhile_append_of_pos (accepted.2 c digits tail).2,
          cut.rest_head (by decide) (by decide), List.append_nil]
      rw [Cut.portPlace, Cut.port, tail, portNumber, sscanfHu, behind, scanned]

/-- A port is accepted when its digits fill what stands behind the host. -/
theorem portOf_accepted {cut : Cut} (accepted : cut.Accepted) :
    portOf cut.url cut.hostEnd (uriOf cut.url) = some cut.portPlace := by
  rcases cut.tail_starts with none | ⟨digits, tail⟩
  · rw [cut.portOf_none none, Cut.portPlace, none]
  · rw [cut.portOf_some tail, if_pos (accepted.2 _ digits tail), Cut.portPlace, tail]

theorem portOf_refused {cut : Cut} (host : cut.host ≠ []) (refused : ¬ cut.Accepted) :
    portOf cut.url cut.hostEnd (uriOf cut.url) = none := by
  rcases cut.tail_starts with none | ⟨digits, tail⟩
  · apply absurd _ refused
    refine ⟨host, ?_⟩
    intro c digits tail
    rw [none] at tail
    cases tail
  · rw [cut.portOf_some tail, if_neg]
    intro fine
    apply refused
    refine ⟨host, ?_⟩
    intro c digits' tail'
    rw [tail] at tail'
    cases tail'
    exact fine

/-- The result is built from the parts of the URL. -/
theorem build_ok (cut : Cut) (noNul : 0 ∉ cut.url) (junk : Nat → UInt8)
    (undefined : Nat → UInt16) (accepted : cut.Accepted) :
    ∃ res, build (some junk) undefined cut.url (7 + cut.before.length) cut.hostEnd
        (uriOf cut.url) cut.portPlace = .ok (some res) ∧ cut.Result undefined res := by
  have hostIs : between cut.url (7 + cut.before.length) cut.hostEnd = cut.host := by
    have cutHere := between_eq (scheme ++ cut.before) cut.host (cut.tail ++ cut.rest)
    rw [List.length_append, Cut.length_scheme, ← List.append_assoc,
      ← cut.url_eq_host] at cutHere
    exact cutHere
  have hostLong : cut.hostEnd - (7 + cut.before.length) = cut.host.length :=
    Nat.add_sub_cancel_left ..
  have front : (scheme ++ (cut.before ++ cut.hostport)).length = uriOf cut.url := by
    rw [List.length_append, Cut.length_scheme, cut.uriOf_eq]
  have split : cut.url = (scheme ++ (cut.before ++ cut.hostport)) ++ cut.rest :=
    cut.url_eq_front.trans (List.append_assoc _ _ _).symm
  have total : cut.url.length = uriOf cut.url + cut.rest.length := by
    rw [← front, ← List.length_append, ← split]
  have uriIs : between cut.url (uriOf cut.url) cut.url.length = cut.rest := by
    have cutHere := between_eq (scheme ++ (cut.before ++ cut.hostport)) cut.rest []
    rw [List.append_nil, ← split, front, ← total] at cutHere
    exact cutHere
  have uriLong : cut.url.length - uriOf cut.url = cut.rest.length := by omega
  have head : cut.url[uriOf cut.url]? = cut.rest.head? := by
    rw [← front, split, List.getElem?_append_right (Nat.le_refl _), Nat.sub_self,
      List.head?_eq_getElem?]
  rcases layOut_ok cut.url cut.host cut.rest
      ((List.range (cut.hostEnd - (7 + cut.before.length) + 1 +
        (cut.url.length - uriOf cut.url) + 2)).map junk) _ _ _ _ hostIs hostLong uriIs uriLong
      head (by rw [List.length_map, List.length_range]; omega) with ⟨post, laid⟩
  refine ⟨_, ?_, result_of_layOut noNul undefined post⟩
  rw [build, malloc]
  show (layOut cut.url _ _ _ _ _ >>= fun block => _) = _
  rw [laid, portNumber_eq cut undefined accepted, hostLong]
  rfl

/-- The routine on a URL that has the scheme. -/
theorem httpUrlParse_accepted (cut : Cut) (noNul : 0 ∉ cut.url) (junk : Nat → UInt8)
    (undefined : Nat → UInt16) (accepted : cut.Accepted) :
    ∃ res, httpUrlParse (some junk) undefined cut.url = .ok (some res) ∧
      cut.Result undefined res := by
  have positive : 0 < cut.host.length := List.length_pos_iff.mpr accepted.1
  rcases build_ok cut noNul junk undefined accepted with ⟨res, built, result⟩
  refine ⟨res, ?_, result⟩
  rw [httpUrlParse, if_neg (by rw [Decidable.not_not]; exact scheme_take cut)]
  dsimp only
  rw [cut.skip_host, cut.hostOf_eq, if_neg (by omega), portOf_accepted accepted]
  exact built

theorem httpUrlParse_refused (cut : Cut) (heap : Option (Nat → UInt8))
    (undefined : Nat → UInt16) (refused : ¬ cut.Accepted) :
    httpUrlParse heap undefined cut.url = .ok none := by
  rw [httpUrlParse, if_neg (by rw [Decidable.not_not]; exact scheme_take cut)]
  dsimp only
  rw [cut.skip_host, cut.hostOf_eq]
  by_cases host : cut.host = []
  · rw [if_pos (by rw [host]; rfl)]
  · have positive : 0 < cut.host.length := List.length_pos_iff.mpr host
    rw [if_neg (by omega), portOf_refused host refused]

end Btpd.Http.Url
