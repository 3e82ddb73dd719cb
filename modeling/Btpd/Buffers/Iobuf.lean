import Btpd.Benc.Memory
import Btpd.Library.Program
import Btpd.Library.Window

/-!
# The growing buffers

An `iobuf` is an allocation of `size` bytes of which the first `skip` have been consumed and
the next `off` are buffered; `buf` points behind the consumed ones, so the start of the
allocation is hidden and is found again as `buf - skip`.  The model keeps the allocation and
lets `buf` be an offset into it.  What `malloc`, `realloc` and `vsnprintf` answer comes with
each call.
-/

namespace Btpd.Buffers

open Benc (wordSize)

/-- How a routine of the buffers can go wrong. -/
inductive Fault
  /-- An `assert` fails. -/
  | assertion
  /-- A byte outside the allocation is touched. -/
  | outOfBounds
  /-- A pointer before the allocation is formed, or one that is not its start is given
  back to the allocator. -/
  | badPointer
  /-- A signed addition overflows. -/
  | overflow
  deriving DecidableEq, Repr

/-- A value of the type `size_t`. -/
abbrev Size := Fin wordSize

/-- Bytes in memory, so many that a `size_t` can count them. -/
abbrev Data := { bytes : List UInt8 // bytes.length < wordSize }

/-- `m + n` in `size_t`. -/
def plus (m n : Nat) : Nat := (m + n) % wordSize

/-- `m - n` in `size_t`. -/
def minus (m n : Nat) : Nat := (m + (wordSize - n)) % wordSize

/-- What the pointers of a buffer point into. -/
inductive Block
  | null
  | freed
  | live (bytes : List UInt8)
  deriving DecidableEq, Repr

/-- The bytes that can be read. -/
def Block.bytes : Block → List UInt8
  | .null => []
  | .freed => []
  | .live bytes => bytes

/-- `struct iobuf` -/
structure Iobuf where
  block : Block
  buf : Nat
  size : Nat
  off : Nat
  skip : Nat
  error : Bool
  deriving DecidableEq, Repr

/-! ## The C library -/

/-- The answer of the allocator: no memory, or memory with the bytes that happen to be there. -/
abbrev Grant := Option (Nat → UInt8)

/-- `malloc(size)` -/
def malloc (size : Nat) : Grant → Block
  | none => .null
  | some fresh => .live ((List.range size).map fresh)

/-- `realloc(p, size)` for the pointer `p` into the block: the block afterwards, and whether
a pointer to it was returned.  Without memory the block stays as it is, except that a
`realloc` to nothing frees it. -/
def realloc (block : Block) (p size : Nat) (grant : Grant) : Except Fault (Block × Bool) :=
  match block with
  | .live bytes =>
      if p = 0 then
        match grant with
        | some fresh => .ok (.live ((bytes ++ (List.range size).map fresh).take size), true)
        | none => .ok (if size = 0 then .freed else block, false)
      else .error .badPointer
  | _ => .error .badPointer

/-- `n` bytes from `p` on. -/
def Block.load (block : Block) (p n : Nat) : Except Fault (List UInt8) :=
  match block with
  | .live bytes => if p + n ≤ bytes.length then .ok (window bytes p n) else .error .outOfBounds
  | _ => .error .outOfBounds

/-- Bytes that are written from `p` on. -/
def Block.store (block : Block) (p : Nat) (data : List UInt8) : Except Fault Block :=
  match block with
  | .live bytes =>
      if p + data.length ≤ bytes.length then .ok (.live (overwrite bytes p data))
      else .error .outOfBounds
  | _ => .error .outOfBounds

/-- `INT_MAX` -/
def INT_MAX : Nat := 2 ^ 31 - 1

/-- The text that `vsnprintf` makes of a format and its arguments.  It makes none of a text
that is longer than an `int` can tell. -/
def formatted (text : Option (List UInt8)) : Option (List UInt8) :=
  text.filter fun text => text.length ≤ INT_MAX

/-- What `vsnprintf` returns. -/
def vsnprintf (text : Option (List UInt8)) : Int :=
  match formatted text with
  | some text => text.length
  | none => -1

/-- What `vsnprintf` writes into `n` bytes. -/
def printedBytes (text : Option (List UInt8)) (n : Nat) : List UInt8 :=
  if n = 0 then [] else ((formatted text).getD []).take (n - 1) ++ [0]

/-- `np + 1` as an `int`. -/
def intSucc (np : Int) : Except Fault Int :=
  if np < INT_MAX then .ok (np + 1) else .error .overflow

/-- An `int` as a `size_t`. -/
def toSize (i : Int) : Nat := (i % wordSize).toNat

/-! ## The routines -/

/-- `iobuf_init` -/
def iobufInit (size : Size) (grant : Grant) : Iobuf :=
  { block := malloc size grant
    buf := 0
    size := size
    off := 0
    skip := 0
    error := grant.isNone }

/-- `iob->buf - iob->skip` -/
def Iobuf.start (iob : Iobuf) : Except Fault Nat :=
  if iob.skip ≤ iob.buf then .ok (iob.buf - iob.skip) else .error .badPointer

/-- `iobuf_consumed` -/
def iobufConsumed (iob : Iobuf) (count : Nat) : Except Fault Iobuf :=
  if iob.error then .ok iob
  else if count ≤ iob.off then
    .ok { iob with
      skip := plus iob.skip count
      buf := iob.buf + count
      off := minus iob.off count }
  else .error .assertion

/-- `iobuf_accommodate` -/
def iobufAccommodate (iob : Iobuf) (count : Nat) (grant : Grant) :
    Except Fault (Iobuf × Bool) :=
  if iob.error then .ok (iob, false)
  else
    let esize := minus iob.size (plus iob.skip iob.off)
    if count ≤ esize then .ok (iob, true)
    else if count ≤ plus esize iob.skip then do
      let start ← iob.start
      let bytes ← iob.block.load iob.buf iob.off
      let block ← iob.block.store start bytes
      .ok ({ iob with block := block, buf := start, skip := 0 }, true)
    else do
      let start ← iob.start
      let (block, got) ← realloc iob.block start (plus iob.size count) grant
      if got then
        .ok ({ iob with block := block, buf := iob.skip, size := plus iob.size count }, true)
      else .ok ({ iob with block := block, error := true }, false)

/-- `iobuf_print` -/
def iobufPrint (iob : Iobuf) (text : Option (List UInt8)) (grant : Grant) :
    Except Fault (Iobuf × Bool) :=
  if iob.error then .ok (iob, false)
  else do
    let count ← intSucc (vsnprintf text)
    let (iob, room) ← iobufAccommodate iob (toSize count) grant
    if room then
      let block ← iob.block.store (iob.buf + iob.off) (printedBytes text (toSize count))
      .ok ({ iob with block := block, off := plus iob.off (toSize (vsnprintf text)) }, true)
    else .ok (iob, false)

/-- `iobuf_write` -/
def iobufWrite (iob : Iobuf) (data : List UInt8) (grant : Grant) :
    Except Fault (Iobuf × Bool) :=
  if iob.error then .ok (iob, false)
  else do
    let (iob, room) ← iobufAccommodate iob data.length grant
    if room then
      let block ← iob.block.store (iob.buf + iob.off) data
      .ok ({ iob with block := block, off := plus iob.off data.length }, true)
    else .ok (iob, false)

/-! ## Runs -/

/-- A call, with the answers of the C library. -/
inductive Call
  | write (data : Data) (grant : Grant)
  | print (text : Option (List UInt8)) (grant : Grant)
  | accommodate (count : Size) (grant : Grant)
  | consumed (count : Size)

/-- The call, and what it returns.  `iobuf_consumed` returns nothing; it counts as failed
when it leaves at the test of `error`. -/
def call (iob : Iobuf) : Call → Except Fault (Iobuf × Bool)
  | .write data grant => iobufWrite iob data grant
  | .print text grant => iobufPrint iob text grant
  | .accommodate count grant => iobufAccommodate iob count grant
  | .consumed count => do
      let iob' ← iobufConsumed iob count
      .ok (iob', !iob.error)

/-- A call that has returned. -/
structure Done where
  call : Call
  answer : Bool

/-- A sequence of calls, with what each of them returns. -/
def run (iob : Iobuf) : List Call → Except Fault (Iobuf × List Done)
  | [] => .ok (iob, [])
  | c :: calls => do
      let (iob, answer) ← call iob c
      let (iob, done) ← run iob calls
      .ok (iob, ⟨c, answer⟩ :: done)

end Btpd.Buffers
