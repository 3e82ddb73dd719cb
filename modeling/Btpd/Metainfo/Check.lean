import Btpd.Benc.Validate
import Btpd.Metainfo.Extract

/-!
# `mi_test`

The check that a metainfo file passes before it is used.  Counters are C
`int`s; the final comparison takes place in `size_t`, where the file lengths,
which are `off_t`s, are converted.
-/

namespace Btpd.Metainfo

open Btpd.Benc

variable (buffer : Buffer)

/-- `memchr(p, c, n) != NULL` -/
def memchr (c : UInt8) : Nat → Nat → Exec Bool
  | 0, _ => pure false
  | n + 1, p => do
      let b ← buffer.read p
      if b = c then
        pure true
      else
        memchr c n (ptrAdd p 1)

/-- `path[0] == '.'` -/
def startsWithDot (path : Nat) : Exec Bool := do
  let c ← buffer.read path
  pure (c = '.'.toUInt8)

/-- `mi_test_path(path, len)` -/
def miTestPath (path len : Nat) : Exec Bool := do
  if len = 0 then
    pure false
  else if ← (if len = 1 then startsWithDot buffer path else pure false) then
    pure false
  else if ← (if len = 2 then do
      if ← startsWithDot buffer path then
        startsWithDot buffer (ptrAdd path 1)
      else
        pure false
    else
      pure false) then
    pure false
  else if ← memchr buffer '/'.toUInt8 len path then
    pure false
  else
    pure true

variable (fuel : Nat)

/-- The loop of `mi_test_files` over the components of a path; `none` when it
leaves the function. -/
def testComponents : Nat → Option Nat → Int → Exec (Option Int)
  | 0, _, _ => .error .diverge
  | _ + 1, none, pcount => pure (some pcount)
  | bound + 1, some path, pcount => do
      match ← bencMemNext buffer fuel path with
      | none => pure none
      | some (pstr, plen, next) =>
          if ← miTestPath buffer pstr plen then
            testComponents bound next (toInt (pcount + 1))
          else
            pure none

/-- One turn of the loop of `mi_test_files`, with its counter of files. -/
def testFile (fcount : Int) (fdct : Nat) : Exec (Option Int) := do
  if ← bencIsdct buffer fdct then
    let length ← bencDgetInt buffer fuel fdct (literal "length")
    if length < 0 then
      pure none
    else
      match ← bencDgetLst buffer fuel fdct (literal "path") with
      | none => pure none
      | some plst => do
          let first ← bencFirst buffer plst
          match ← testComponents buffer fuel fuel first 0 with
          | none => pure none
          | some pcount =>
              if pcount = 0 then
                pure none
              else
                pure (some (toInt (fcount + 1)))
  else
    pure none

/-- `mi_test_files(files)` -/
def miTestFiles (files : Nat) : Exec Bool := do
  let first ← bencFirst buffer files
  match ← bencForeach buffer fuel (testFile buffer fuel) fuel first 0 with
  | some fcount => pure (0 < fcount)
  | none => pure false

/-- The loop of `mi_test_announce_list` over the URLs of a tier, which stops at
the first element that is no string. -/
def countUrls : Nat → Option Nat → Int → Exec Int
  | 0, _, _ => .error .diverge
  | _ + 1, none, strcount => pure strcount
  | bound + 1, some s, strcount => do
      if ← bencIsstr buffer s then
        let next ← bencNext buffer fuel s
        countUrls bound next (toInt (strcount + 1))
      else
        pure strcount

/-- The loop of `mi_test_announce_list` over the tiers, which stops at the first
element that is no list; `none` when it leaves the function. -/
def countTiers : Nat → Option Nat → Int → Exec (Option Int)
  | 0, _, _ => .error .diverge
  | _ + 1, none, lstcount => pure (some lstcount)
  | bound + 1, some t, lstcount => do
      if ← bencIslst buffer t then
        let first ← bencFirst buffer t
        let strcount ← countUrls buffer fuel fuel first 0
        if strcount = 0 then
          pure none
        else
          let next ← bencNext buffer fuel t
          countTiers bound next (toInt (lstcount + 1))
      else
        pure (some lstcount)

/-- `mi_test_announce_list(alst)` -/
def miTestAnnounceList (alst : Nat) : Exec Bool := do
  let first ← bencFirst buffer alst
  match ← countTiers buffer fuel fuel first 0 with
  | some lstcount => pure (0 < lstcount)
  | none => pure false

/-- The part of `mi_test` about the trackers. -/
def testAnnounce (p : Nat) : Exec Bool := do
  match ← bencDgetAny buffer fuel p (literal "announce-list") with
  | some alst =>
      if ← bencIslst buffer alst then
        miTestAnnounceList buffer fuel alst
      else
        pure false
  | none => do
      let announce ← bencDgetMem buffer fuel p (literal "announce")
      pure announce.isSome

/-- The part of `mi_test` about the name, which may be missing. -/
def testName (info : Nat) : Exec Bool := do
  match ← bencDgetMem buffer fuel info (literal "name") with
  | some (name, slen) => miTestPath buffer name slen
  | none => pure true

/-- The part of `mi_test` that finds the total length; `none` when it rejects
the files. -/
def testLength (info : Nat) : Exec (Option Int) := do
  let length ← bencDgetInt buffer fuel info (literal "length")
  if length ≠ 0 then
    if length < 0 then
      pure none
    else
      match ← bencDgetAny buffer fuel info (literal "files") with
      | some _ => pure none
      | none => pure (some length)
  else
    match ← bencDgetLst buffer fuel info (literal "files") with
    | none => pure none
    | some files =>
        if ← miTestFiles buffer fuel files then
          let length ← filesLength buffer fuel files
          pure (some length)
        else
          pure none

/-- Conversion to `size_t`. -/
def toSize (n : Int) : Nat := (n % 2 ^ 64).toNat

/-- The last check of `mi_test`, in `size_t`. -/
def testTotal (length : Int) (npieces : Nat) (pieceLength : Int) : Bool :=
  ¬ (toSize length < toSize (npieces - 1) * toSize pieceLength % wordSize ∨
    npieces * toSize pieceLength % wordSize < toSize length)

/-- The part of `mi_test` about the info dictionary. -/
def testInfo (info : Nat) : Exec Bool := do
  if ← testName buffer fuel info then
    let pieceLength ← bencDgetInt buffer fuel info (literal "piece length")
    if pieceLength ≤ 0 then
      pure false
    else
      match ← bencDgetMem buffer fuel info (literal "pieces") with
      | none => pure false
      | some (_, slen) =>
          if slen % 20 ≠ 0 then
            pure false
          else
            match ← testLength buffer fuel info with
            | none => pure false
            | some length => pure (testTotal length (slen / 20) pieceLength)
  else
    pure false

/-- `mi_test(p, size)` for the bytes of `buffer`. -/
def miTest : Exec Bool := do
  if (← bencValidate buffer fuel) ≠ 0 then
    pure false
  else if ← bencIsdct buffer buffer.base then
    if ← testAnnounce buffer fuel buffer.base then
      match ← bencDgetDct buffer fuel buffer.base (literal "info") with
      | none => pure false
      | some info => testInfo buffer fuel info
    else
      pure false
  else
    pure false

end Btpd.Metainfo
