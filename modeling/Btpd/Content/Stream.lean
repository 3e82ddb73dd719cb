import Btpd.Library.Program
import Btpd.Library.Segments
import Mathlib

/-!
# Streams over the files of a torrent

`bts_seek`, `bts_get` and `bts_put` on two streams, one to read and one to write, over
the same files.  A file is an array of bytes that grows when something is written
beyond its end; entries of `files` with the same path are one file.  Each system call may
fail, and may transfer less than it is asked to; what it comes to is chosen beforehand.
-/

namespace Btpd.Content

open Prog Segments

/-! ## Files -/

/-- A file: its size and its bytes. -/
structure File where
  size : Nat
  byte : Nat → UInt8

/-- The byte at a place; beyond the end there are zeros. -/
def File.get (f : File) (i : Nat) : UInt8 := if i < f.size then f.byte i else 0

/-- The bytes from a place on. -/
def File.read (f : File) (pos n : Nat) : List UInt8 := (List.range n).map fun i => f.get (pos + i)

/-- The file after the bytes have been written at a place. -/
def File.write (f : File) (pos : Nat) (buf : List UInt8) : File where
  size := if buf = [] then f.size else max f.size (pos + buf.length)
  byte i := if pos ≤ i ∧ i < pos + buf.length then buf.getD (i - pos) 0 else f.get i

/-- The file after `truncate`. -/
def File.truncate (f : File) (length : Nat) : File := { f with size := min f.size length }

/-- A descriptor: -1, one that is open on the file of an entry with its offset, or one
that `close` has been called for. -/
inductive Fd
  | none
  | opened (entry pos : Nat)
  | stale
  deriving DecidableEq, Repr

/-- What a system call comes to. -/
structure Choice where
  fails : Bool
  errno : Nat
  count : Nat

/-- `struct bt_stream`; the files are the same for all streams. -/
structure BtStream where
  index : Nat
  tOff : Nat
  fOff : Nat
  fd : Fd

/-- The stream to read and the stream to write. -/
inductive Name
  | rds | wrs
  deriving DecidableEq, Repr

/-- The file that the path of each entry of `files` names, the files, the streams, and
what the system calls come to. -/
structure Streams where
  inode : Nat → Nat
  stored : Nat → File
  choice : Nat → Choice
  calls : Nat
  bts : Name → BtStream

/-- The file of an entry. -/
def Streams.file (s : Streams) (i : Nat) : File := s.stored (s.inode i)

/-- The file of an entry is replaced, and with it that of every entry with the same path. -/
def Streams.setFile (s : Streams) (i : Nat) (f : File) : Streams :=
  { s with stored := Function.update s.stored (s.inode i) f }

/-- The ways in which the code stops. -/
inductive Fault
  /-- `off + len <= totlen` in `bts_get` and `bts_put` -/
  | range
  /-- An entry outside `files` is read. -/
  | outOfBounds
  /-- A loop goes on after all its bytes should have been transferred. -/
  | stuck
  deriving DecidableEq, Repr

/-- An error number of the system. -/
abbrev Errno := Nat

/-- A routine; no calls are recorded. -/
abbrev Routine := Prog Streams Empty Fault

/-- `EBADF` -/
def ebadf : Errno := 9

/-- `EIO` -/
def eio : Errno := 5

/-- `ENOENT` -/
def enoent : Errno := 2

/-! ## System calls -/

/-- Read a stream. -/
def stream (b : Name) : Routine BtStream := do
  let s ← get
  pure (s.bts b)

/-- Change a stream. -/
def setStream (b : Name) (f : BtStream → BtStream) : Routine Unit :=
  modify fun s => { s with bts := Function.update s.bts b (f (s.bts b)) }

/-- What the next system call comes to. -/
def choose : Routine Choice := do
  let s ← get
  modify fun s => { s with calls := s.calls + 1 }
  pure (s.choice s.calls)

/-- `fd_cb`, which opens the file that the path of the entry names. -/
def sysOpen (b : Name) (i : Nat) : Routine (Option Errno) := do
  let c ← choose
  if c.fails then pure (some c.errno)
  else do
    setStream b fun t => { t with fd := .opened i 0 }
    pure none

/-- `close` on the descriptor of the stream. -/
def sysClose (b : Name) : Routine (Option Errno) := do
  let t ← stream b
  let c ← choose
  setStream b fun t => { t with fd := .stale }
  match t.fd with
  | .opened _ _ => pure (if c.fails then some c.errno else none)
  | _ => pure (some ebadf)

/-- `lseek` on the descriptor of the stream. -/
def sysSeek (b : Name) (pos : Nat) : Routine Unit := do
  let t ← stream b
  match t.fd with
  | .opened i _ => setStream b fun t => { t with fd := .opened i pos }
  | _ => pure ()

/-- `read` on the descriptor of the stream. -/
def sysRead (b : Name) (want : Nat) : Routine (Except Errno (List UInt8)) := do
  let t ← stream b
  let c ← choose
  let s ← get
  match t.fd with
  | .opened i pos =>
      if c.fails then pure (.error c.errno)
      else do
        let n := min (min c.count want) ((s.file i).size - pos)
        setStream b fun t => { t with fd := .opened i (pos + n) }
        pure (.ok ((s.file i).read pos n))
  | _ => pure (.error ebadf)

/-- `write` on the descriptor of the stream, which writes at least one byte. -/
def sysWrite (b : Name) (buf : List UInt8) : Routine (Except Errno Nat) := do
  let t ← stream b
  let c ← choose
  match t.fd with
  | .opened i pos =>
      if c.fails then pure (.error c.errno)
      else do
        let n := min (c.count + 1) buf.length
        modify fun s => s.setFile i ((s.file i).write pos (buf.take n))
        setStream b fun t => { t with fd := .opened i (pos + n) }
        pure (.ok n)
  | _ => pure (.error ebadf)

/-! ## `bts_seek` -/

variable (lengths : List Nat)

/-- `files[i].length` -/
def fileLength (i : Nat) : Routine Nat := do
  assert (i < lengths.length) .outOfBounds
  pure (lengths.getD i 0)

/-- The loop of `bts_seek`. -/
def seekLoop : List Nat → Nat → Nat → Option (Nat × Nat)
  | [], _, _ => none
  | l :: ls, i, off => if l ≤ off then seekLoop ls (i + 1) (off - l) else some (i, off)

/-- The end of `bts_seek`. -/
def place (b : Name) (i off : Nat) : Routine (Option Errno) := do
  setStream b fun t => { t with index := i, fOff := off }
  pure none

/-- What `bts_seek` does with the descriptor when the file is another one. -/
def leaveFile (b : Name) (i off : Nat) : Routine (Option Errno) := do
  let t ← stream b
  if t.fd = .none then place b i off
  else do
    let err ← sysClose b
    match err with
    | some e => pure (some e)
    | none => do
        setStream b fun t => { t with fd := .none }
        place b i off

/-- `bts_seek` after its loop. -/
def seekFile (b : Name) (i off : Nat) : Routine (Option Errno) := do
  let t ← stream b
  if i ≠ t.index then leaveFile b i off
  else do
    sysSeek b off
    place b i off

/-- `bts_seek` -/
def btsSeek (b : Name) (off : Nat) : Routine (Option Errno) := do
  let t ← stream b
  if t.tOff = off then pure none
  else do
    setStream b fun t => { t with tOff := off }
    match seekLoop lengths 0 off with
    | none => fault .outOfBounds
    | some (i, off') => seekFile b i off'

/-! ## `bts_get` and `bts_put` -/

/-- The loop over files without bytes. -/
def skipLoop : List Nat → Nat → Option Nat
  | [], _ => none
  | l :: ls, i => if l = 0 then skipLoop ls (i + 1) else some i

/-- The opening of the next file. -/
def openNext (b : Name) : Routine (Option Errno) := do
  let t ← stream b
  match skipLoop (lengths.drop t.index) t.index with
  | none => fault .outOfBounds
  | some i => do
      setStream b fun t => { t with index := i }
      let err ← sysOpen b i
      match err with
      | some e => pure (some e)
      | none => do
          when (t.fOff ≠ 0) (sysSeek b t.fOff)
          pure none

/-- The start of each turn of the loops. -/
def openFile (b : Name) : Routine (Option Errno) := do
  let t ← stream b
  if t.fd = .none then openNext lengths b else pure none

/-- Move on by the bytes that have been transferred. -/
def advance (b : Name) (n : Nat) : Routine Unit :=
  setStream b fun t => { t with fOff := t.fOff + n, tOff := t.tOff + n }

/-- Go on to the next file. -/
def nextFile (b : Name) : Routine Unit :=
  setStream b fun t => { t with fd := .none, fOff := 0, index := t.index + 1 }

/-- What `bts_get` does at the end of a file. -/
def endOfRead (b : Name) (length : Nat) : Routine Unit := do
  let t ← stream b
  when (t.fOff = length) do
    let _ ← sysClose b
    nextFile b

/-- What `bts_put` does at the end of a file. -/
def endOfWrite (b : Name) (length : Nat) : Routine (Option Errno) := do
  let t ← stream b
  if t.fOff = length then do
    let err ← sysClose b
    match err with
    | some e => pure (some e)
    | none => do
        nextFile b
        pure none
  else pure none

/-- The loop of `bts_get`, for the number of bytes that are left. -/
def getLoop (b : Name) : Nat → Nat → List UInt8 → Routine (Except Errno (List UInt8))
  | 0, left, buf => if left = 0 then pure (.ok buf) else fault .stuck
  | turns + 1, left, buf =>
      if left = 0 then pure (.ok buf)
      else do
        let err ← openFile lengths b
        match err with
        | some e => pure (.error e)
        | none => do
            let t ← stream b
            let length ← fileLength lengths t.index
            let wantread := min left (length - t.fOff)
            let r ← sysRead b wantread
            match r with
            | .error e => pure (.error e)
            | .ok read => do
                advance b read.length
                endOfRead b length
                if read.length ≠ wantread then pure (.error enoent)
                else getLoop b turns (left - read.length) (buf ++ read)

/-- `bts_get` -/
def btsGet (b : Name) (off len : Nat) : Routine (Except Errno (List UInt8)) := do
  assert (off + len ≤ lengths.sum) .range
  let err ← btsSeek lengths b off
  match err with
  | some e => pure (.error e)
  | none => getLoop lengths b len len []

/-- The loop of `bts_put`, for the bytes that are left. -/
def putLoop (b : Name) : Nat → List UInt8 → Routine (Option Errno)
  | 0, buf => if buf = [] then pure none else fault .stuck
  | turns + 1, buf =>
      if buf = [] then pure none
      else do
        let err ← openFile lengths b
        match err with
        | some e => pure (some e)
        | none => do
            let t ← stream b
            let length ← fileLength lengths t.index
            let wantwrite := min buf.length (length - t.fOff)
            let r ← sysWrite b (buf.take wantwrite)
            match r with
            | .error e => pure (some e)
            | .ok didwrite => do
                advance b didwrite
                let err ← endOfWrite b length
                match err with
                | some e => pure (some e)
                | none => putLoop b turns (buf.drop didwrite)

/-- `bts_put` -/
def btsPut (b : Name) (off : Nat) (buf : List UInt8) : Routine (Option Errno) := do
  assert (off + buf.length ≤ lengths.sum) .range
  let err ← btsSeek lengths b off
  match err with
  | some e => pure (some e)
  | none => putLoop lengths b buf.length buf

/-- `SHAFILEBUF` -/
def shaFileBuf : Nat := 2 ^ 15

/-- The loop of `bts_sha`, with the bytes that have been hashed. -/
def shaLoop (b : Name) : Nat → Nat → Nat → List UInt8 → Routine (Except Errno (List UInt8))
  | 0, _, length, data => if length = 0 then pure (.ok data) else fault .stuck
  | turns + 1, start, length, data =>
      if length = 0 then pure (.ok data)
      else do
        let wantread := min length shaFileBuf
        let r ← btsGet lengths b start wantread
        match r with
        | .error e => pure (.error e)
        | .ok buf => shaLoop b turns (start + wantread) (length - wantread) (data ++ buf)

/-- `bts_sha`; when it fails the hash is not used. -/
def btsSha (sha1 : List UInt8 → List UInt8) (b : Name) (start length : Nat) :
    Routine (Except Errno (List UInt8)) := do
  let r ← shaLoop lengths b length start length []
  pure (r.map sha1)

/-! ## Calls -/

/-- A call of `bts_get` on the stream to read or of `bts_put` on the stream to write. -/
inductive Event
  | get (off len : Nat)
  | put (off : Nat) (buf : List UInt8)

/-- What a call gives back. -/
inductive Reply
  | got (buf : List UInt8)
  | done
  | failed (e : Errno)

/-- One call. -/
def handle : Event → Routine Reply
  | .get off len => do
      let r ← btsGet lengths .rds off len
      pure (match r with | .ok buf => .got buf | .error e => .failed e)
  | .put off buf => do
      let r ← btsPut lengths .wrs off buf
      pure (match r with | none => .done | some e => .failed e)

/-- One call after the other. -/
def run : List Event → Routine (List Reply)
  | [] => pure []
  | e :: events => do
      let reply ← handle lengths e
      let replies ← run events
      pure (reply :: replies)

/-- A stream that has just been opened. -/
def BtStream.opened : BtStream := ⟨0, 0, 0, .none⟩

/-- `bts_open`, which fails when there is no memory. -/
def btsOpen (b : Name) : Routine (Option Errno) := do
  let c ← choose
  if c.fails then pure (some c.errno)
  else do
    setStream b fun _ => .opened
    pure none

/-- `bts_close` -/
def btsClose (b : Name) : Routine (Option Errno) := do
  let t ← stream b
  if t.fd = .none then pure none else sysClose b

/-- Both streams have been opened; each entry has a file of its own. -/
def Streams.init (file : Nat → File) (choice : Nat → Choice) : Streams :=
  ⟨id, file, choice, 0, fun _ => .opened⟩

end Btpd.Content
