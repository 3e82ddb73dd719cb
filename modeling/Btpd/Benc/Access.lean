import Btpd.Benc.Memory

/-!
# The bencode accessors

The second decoder of `misc/benc.c`: routines that walk a value that has
already been validated and do no bounds checks of their own.  String lengths
go through `strtoul`, which saturates where the accumulator of the validator
wraps.

Every loop is given the same fuel, so that one call with enough fuel stands
for the C call.
-/

namespace Btpd.Benc

/-- `ULONG_MAX` -/
def ULONG_MAX : Nat := wordSize - 1

/-- `LLONG_MAX` and `LLONG_MIN` -/
def LLONG_MAX : Int := 2 ^ 63 - 1

@[inherit_doc LLONG_MAX]
def LLONG_MIN : Int := -2 ^ 63

/-- `isspace(c)` in the C locale. -/
def isspace (c : UInt8) : Bool := c = ' '.toUInt8 || (9 ≤ c && c ≤ 13)

/-- The digits at `p` as a number, and the first byte after them. -/
def readDigits (buffer : Buffer) : Nat → Nat → Nat → Exec (Nat × Nat)
  | 0, _, _ => .error .diverge
  | fuel + 1, p, acc => do
      let c ← buffer.read p
      if isdigit c then
        readDigits buffer fuel (ptrAdd p 1) (acc * 10 + digitVal c)
      else
        pure (acc, p)

/-- `strtoul(p, &endptr, 10)` for `p` at a digit: the value, cut off at
`ULONG_MAX`, and `endptr`. -/
def strtoul (buffer : Buffer) (fuel p : Nat) : Exec (Nat × Nat) := do
  let (n, endptr) ← readDigits buffer fuel p 0
  pure (min n ULONG_MAX, endptr)

/-- The leading blanks of `strtoll`. -/
def skipSpace (buffer : Buffer) : Nat → Nat → Exec Nat
  | 0, _ => .error .diverge
  | fuel + 1, p => do
      let c ← buffer.read p
      if isspace c then
        skipSpace buffer fuel (ptrAdd p 1)
      else
        pure p

/-- `strtoll(p, &endptr, 10)`: leading blanks and one sign are skipped, the
value is cut off at the bounds of `long long`, and without any digit the
result is zero with `endptr = p`. -/
def strtoll (buffer : Buffer) (fuel p : Nat) : Exec (Int × Nat) := do
  let q ← skipSpace buffer fuel p
  let c ← buffer.read q
  let negative := c = '-'.toUInt8
  let q := if c = '-'.toUInt8 ∨ c = '+'.toUInt8 then ptrAdd q 1 else q
  let c ← buffer.read q
  if isdigit c then
    let (n, endptr) ← readDigits buffer fuel q 0
    let value : Int := if negative then -(n : Int) else n
    pure (max LLONG_MIN (min value LLONG_MAX), endptr)
  else
    pure (0, p)

/-- `benc_islst(p)` -/
def bencIslst (buffer : Buffer) (p : Nat) : Exec Bool := do
  let c ← buffer.read p
  pure (c = 'l'.toUInt8 || c = 'd'.toUInt8)

/-- `benc_isdct(p)` -/
def bencIsdct (buffer : Buffer) (p : Nat) : Exec Bool := do
  let c ← buffer.read p
  pure (c = 'd'.toUInt8)

/-- `benc_isint(p)` -/
def bencIsint (buffer : Buffer) (p : Nat) : Exec Bool := do
  let c ← buffer.read p
  pure (c = 'i'.toUInt8)

/-- `benc_isstr(p)` -/
def bencIsstr (buffer : Buffer) (p : Nat) : Exec Bool := do
  let c ← buffer.read p
  pure (isdigit c)

/-- `strtoul` and the check of the colon, common to the calls of `benc_mem`:
the length and the address of the colon. -/
def bencMemHead (buffer : Buffer) (fuel p : Nat) : Exec (Nat × Nat) := do
  let (blen, endptr) ← strtoul buffer fuel p
  let c ← buffer.read endptr
  if c = ':'.toUInt8 then
    pure (blen, endptr)
  else
    .error .assertion

/-- `benc_mem(p, &len, NULL)`: the bytes of the string and their number. -/
def bencMem (buffer : Buffer) (fuel p : Nat) : Exec (Option (Nat × Nat)) := do
  if ← bencIsstr buffer p then
    let (blen, endptr) ← bencMemHead buffer fuel p
    pure (some (ptrAdd endptr 1, blen))
  else
    pure none

/-- `benc_mem(p, &len, &next)`: also the element after the string, null at the
end of the container. -/
def bencMemNext (buffer : Buffer) (fuel p : Nat) :
    Exec (Option (Nat × Nat × Option Nat)) := do
  if ← bencIsstr buffer p then
    let (blen, endptr) ← bencMemHead buffer fuel p
    let next := ptrAdd endptr (blen + 1)
    let c ← buffer.read next
    pure (some (ptrAdd endptr 1, blen, if c = 'e'.toUInt8 then none else some next))
  else
    pure none

/-- The loop of `benc_length` over the bytes of an integer. -/
def bencIntEnd (buffer : Buffer) : Nat → Nat → Exec Nat
  | 0, _ => .error .diverge
  | fuel + 1, next => do
      let c ← buffer.read next
      if c = 'e'.toUInt8 then
        pure next
      else
        bencIntEnd buffer fuel (ptrAdd next 1)

mutual

/-- `benc_length(p)` -/
def bencLength (buffer : Buffer) : Nat → Nat → Exec Nat
  | 0, _ => .error .diverge
  | fuel + 1, p => do
      let c ← buffer.read p
      if c = 'd'.toUInt8 ∨ c = 'l'.toUInt8 then
        bencLengthElems buffer fuel (ptrAdd p 1) 2
      else if c = 'i'.toUInt8 then
        let next ← bencIntEnd buffer fuel (ptrAdd p 1)
        pure ((next + wordSize - p + 1) % wordSize)
      else
        match ← bencMem buffer fuel p with
        | some (next, blen) => pure ((next + wordSize - p + blen) % wordSize)
        | none => .error .assertion

/-- The loop of `benc_length` over the elements of a container. -/
def bencLengthElems (buffer : Buffer) : Nat → Nat → Nat → Exec Nat
  | 0, _, _ => .error .diverge
  | fuel + 1, next, blen => do
      let c ← buffer.read next
      if c = 'e'.toUInt8 then
        pure blen
      else
        let len ← bencLength buffer fuel next
        bencLengthElems buffer fuel (ptrAdd next len) ((blen + len) % wordSize)

end

/-- `benc_first(p)` -/
def bencFirst (buffer : Buffer) (p : Nat) : Exec (Option Nat) := do
  if ← bencIslst buffer p then
    let c ← buffer.read (ptrAdd p 1)
    pure (if c = 'e'.toUInt8 then none else some (ptrAdd p 1))
  else
    .error .assertion

/-- `benc_next(p)` -/
def bencNext (buffer : Buffer) (fuel p : Nat) : Exec (Option Nat) := do
  let blen ← bencLength buffer fuel p
  let c ← buffer.read (ptrAdd p blen)
  pure (if c = 'e'.toUInt8 then none else some (ptrAdd p blen))

/-- `for (p = benc_first(c); p != NULL; p = benc_next(p))`, from `p` on: every
loop of the source over the elements of a container has this shape.  The body
may leave the enclosing function early, which ends the loop with `none`. -/
def bencForeach {σ : Type} (buffer : Buffer) (fuel : Nat)
    (body : σ → Nat → Exec (Option σ)) : Nat → Option Nat → σ → Exec (Option σ)
  | 0, _, _ => .error .diverge
  | _ + 1, none, s => pure (some s)
  | bound + 1, some p, s => do
      match ← body s p with
      | none => pure none
      | some s' =>
          let next ← bencNext buffer fuel p
          bencForeach buffer fuel body bound next s'

/-- The addresses that a loop over `benc_first` and `benc_next` visits. -/
def bencElems (buffer : Buffer) (fuel p : Nat) : Exec (List Nat) := do
  let first ← bencFirst buffer p
  match ← bencForeach buffer fuel (fun seen q => pure (some (seen ++ [q]))) fuel first [] with
  | some elems => pure elems
  | none => pure []

/-- `benc_nelems(p)` -/
def bencNelems (buffer : Buffer) (fuel p : Nat) : Exec Nat := do
  let first ← bencFirst buffer p
  match ← bencForeach buffer fuel (fun n _ => pure (some (n + 1))) fuel first 0 with
  | some n => pure n
  | none => pure 0

/-- `benc_int(p, NULL)` -/
def bencInt (buffer : Buffer) (fuel p : Nat) : Exec Int := do
  if ← bencIsint buffer p then
    let (res, endptr) ← strtoll buffer fuel (ptrAdd p 1)
    let c ← buffer.read endptr
    if c = 'e'.toUInt8 then
      pure res
    else
      .error .assertion
  else
    pure 0

/-- `strncmp(bstr, key, blen) == 0`, where `key` is a C string without its
terminating zero. -/
def strncmpEq (buffer : Buffer) (bstr : Nat) : List UInt8 → Nat → Exec Bool
  | _, 0 => pure true
  | [], _ + 1 => do
      let c ← buffer.read bstr
      pure (c = 0)
  | k :: key, blen + 1 => do
      let c ← buffer.read bstr
      if c = k then
        strncmpEq buffer (ptrAdd bstr 1) key blen
      else
        pure false

/-- The loop of `benc_dget_any`. -/
def bencDgetLoop (buffer : Buffer) (fuel : Nat) (key : List UInt8) :
    Nat → Option Nat → Exec (Option Nat)
  | 0, _ => .error .diverge
  | _ + 1, none => pure none
  | bound + 1, some p => do
      match ← bencMemNext buffer fuel p with
      | none => pure none
      | some (bstr, blen, next) =>
          if (← strncmpEq buffer bstr key blen) && key.length = blen then
            pure next
          else
            match next with
            | none => .error .nullDeref
            | some q => do
                let p ← bencNext buffer fuel q
                bencDgetLoop buffer fuel key bound p

/-- `benc_dget_any(p, key)` -/
def bencDgetAny (buffer : Buffer) (fuel p : Nat) (key : List UInt8) :
    Exec (Option Nat) := do
  if ← bencIsdct buffer p then
    let first ← bencFirst buffer p
    bencDgetLoop buffer fuel key fuel first
  else
    pure none

/-! ## Strings and members of dictionaries -/

/-- The bytes of a C string literal. -/
def literal (s : String) : List UInt8 := s.toList.map Char.toUInt8

/-- Follow a pointer that may be null. -/
def deref : Option Nat → Exec Nat
  | some p => pure p
  | none => .error .nullDeref

/-- The `n` bytes at `p`, as `bcopy` reads them. -/
def readBytes (buffer : Buffer) : Nat → Nat → Exec (List UInt8)
  | 0, _ => pure []
  | n + 1, p => do
      let c ← buffer.read p
      let rest ← readBytes buffer n (ptrAdd p 1)
      pure (c :: rest)

/-- `benc_str(p, NULL, NULL)`, where the allocation succeeds: the bytes before
the terminating zero. -/
def bencStr (buffer : Buffer) (fuel p : Nat) : Exec (Option (List UInt8)) := do
  match ← bencMem buffer fuel p with
  | none => pure none
  | some (bstr, blen) => do
      let bytes ← readBytes buffer blen bstr
      pure (some bytes)

/-- The member of a dictionary under `key`, null when it fails a test of its
type. -/
def bencDgetIf (isType : Buffer → Nat → Exec Bool) (buffer : Buffer) (fuel p : Nat)
    (key : List UInt8) : Exec (Option Nat) := do
  match ← bencDgetAny buffer fuel p key with
  | none => pure none
  | some ret =>
      if ← isType buffer ret then
        pure (some ret)
      else
        pure none

/-- `benc_dget_lst(p, key)` -/
def bencDgetLst (buffer : Buffer) (fuel p : Nat) (key : List UInt8) : Exec (Option Nat) :=
  bencDgetIf bencIslst buffer fuel p key

/-- `benc_dget_dct(p, key)` -/
def bencDgetDct (buffer : Buffer) (fuel p : Nat) (key : List UInt8) : Exec (Option Nat) :=
  bencDgetIf bencIsdct buffer fuel p key

/-- `benc_dget_mem(p, key, &len)` -/
def bencDgetMem (buffer : Buffer) (fuel p : Nat) (key : List UInt8) :
    Exec (Option (Nat × Nat)) := do
  match ← bencDgetIf bencIsstr buffer fuel p key with
  | none => pure none
  | some str => bencMem buffer fuel str

/-- `benc_dget_str(p, key, NULL)` -/
def bencDgetStr (buffer : Buffer) (fuel p : Nat) (key : List UInt8) :
    Exec (Option (List UInt8)) := do
  match ← bencDgetIf bencIsstr buffer fuel p key with
  | none => pure none
  | some str => bencStr buffer fuel str

/-- `benc_dget_int(p, key)` -/
def bencDgetInt (buffer : Buffer) (fuel p : Nat) (key : List UInt8) : Exec Int := do
  match ← bencDgetIf bencIsint buffer fuel p key with
  | none => pure 0
  | some intp => bencInt buffer fuel intp

end Btpd.Benc
