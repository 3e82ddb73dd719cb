import Btpd.Benc.Memory

/-!
# `benc_validate`

The validator of `misc/benc.c`, with its pointers as addresses and its
`size_t` length accumulator modulo a word.  `last` is the C variable `end`,
the address of the last byte of the buffer.

Loops and recursion carry a fuel argument: a call that runs out of it ends in
`Fault.diverge`, and a call that returns does the same for every larger fuel.
-/

namespace Btpd.Benc

/-- `EINVAL` -/
def EINVAL : Nat := 22

/-- `while (p <= end && isdigit(*p)) p++;` -/
def skipDigits (buffer : Buffer) (last : Nat) : Nat → Nat → Exec Nat
  | 0, _ => .error .diverge
  | fuel + 1, p =>
      if p ≤ last then do
        let c ← buffer.read p
        if isdigit c then
          skipDigits buffer last fuel (ptrAdd p 1)
        else
          pure p
      else
        pure p

/-- The digit loop of a string: advances over the digits and accumulates the
length in a `size_t`. -/
def readLength (buffer : Buffer) (last : Nat) : Nat → Nat → Nat → Exec (Nat × Nat)
  | 0, _, _ => .error .diverge
  | fuel + 1, p, len =>
      if p ≤ last then do
        let c ← buffer.read p
        if isdigit c then
          readLength buffer last fuel (ptrAdd p 1) ((len * 10 + digitVal c) % wordSize)
        else
          pure (p, len)
      else
        pure (p, len)

/-- The case of a string, entered at its first digit. -/
def bencValidateStr (buffer : Buffer) (last fuel p : Nat) : Exec (Option Nat) := do
  let (p, len) ← readLength buffer last fuel p 0
  if p ≤ last then
    let c ← buffer.read p
    if c = ':'.toUInt8 ∧ ptrAdd p len ≤ last then
      pure (some (ptrAdd p len))
    else
      pure none
  else
    pure none

/-- The case of an integer from its first digit on. -/
def bencValidateDigits (buffer : Buffer) (last fuel p : Nat) : Exec (Option Nat) :=
  if p ≤ last then do
    let c ← buffer.read p
    if isdigit c then
      let p ← skipDigits buffer last fuel (ptrAdd p 1)
      if p ≤ last then
        let c ← buffer.read p
        if c = 'e'.toUInt8 then
          pure (some p)
        else
          pure none
      else
        pure none
    else
      pure none
  else
    pure none

/-- The case of an integer, entered just past its `i`. -/
def bencValidateInt (buffer : Buffer) (last fuel p : Nat) : Exec (Option Nat) :=
  if p ≤ last then do
    let c ← buffer.read p
    if c = '-'.toUInt8 then
      bencValidateDigits buffer last fuel (ptrAdd p 1)
    else
      bencValidateDigits buffer last fuel p
  else
    pure none

mutual

/-- Validate the value at `p`; the result is the address of its last byte, or
null. -/
def bencValidateAux (buffer : Buffer) (last : Nat) : Nat → Nat → Exec (Option Nat)
  | 0, _ => .error .diverge
  | fuel + 1, p => do
      let c ← buffer.read p
      if c = 'd'.toUInt8 then
        bencValidateElems buffer last fuel 1 (ptrAdd p 1)
      else if c = 'l'.toUInt8 then
        bencValidateElems buffer last fuel 0 (ptrAdd p 1)
      else if c = 'i'.toUInt8 then
        bencValidateInt buffer last fuel (ptrAdd p 1)
      else if isdigit c then
        bencValidateStr buffer last fuel p
      else
        pure none

/-- The element loop of a list (`d = 0`) or of a dictionary (`d` counts its
elements from one). -/
def bencValidateElems (buffer : Buffer) (last : Nat) :
    Nat → Nat → Nat → Exec (Option Nat)
  | 0, _, _ => .error .diverge
  | fuel + 1, d, p =>
      if p ≤ last then do
        let c ← buffer.read p
        if c = 'e'.toUInt8 then
          if d ≠ 0 ∧ d % 2 ≠ 1 then
            pure none
          else
            pure (some p)
        else if d ≠ 0 ∧ d % 2 = 1 ∧ isdigit c = false then
          pure none
        else
          match ← bencValidateAux buffer last fuel p with
          | none => pure none
          | some q =>
              bencValidateElems buffer last fuel
                (if d ≠ 0 then (d + 1) % wordSize else d) (ptrAdd q 1)
      else
        pure none

end

/-- `benc_validate(p, len)` for a buffer of `len` bytes at `p`. -/
def bencValidate (buffer : Buffer) (fuel : Nat) : Exec Nat :=
  if buffer.bytes.length = 0 then
    pure EINVAL
  else do
    let last := buffer.base + buffer.bytes.length - 1
    let result ← bencValidateAux buffer last fuel buffer.base
    pure (if result = some last then 0 else EINVAL)

end Btpd.Benc
