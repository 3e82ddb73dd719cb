import Btpd.Benc.Print
import Btpd.Metainfo.Extract
import Mathlib

/-!
# The info files of the library

`tlib.c` keeps the name, the directory, the label and the totals of every
torrent in a file of its own, which is read again at the next start.  The writer
prints the fields into a growing buffer and copies that dictionary, pair by
pair, to the file; the reader checks the whole file before it takes the fields
out of it.

Files and allocations work: the functions here return the bytes that the file
gets, and the entry that is made of them.
-/

namespace Btpd.Info

open Btpd.Benc Btpd.Metainfo

/-! ## Strings and places -/

/-- A C string: the bytes before its terminating zero. -/
structure CString where
  bytes : List UInt8
  noZero : 0 ∉ bytes
  deriving DecidableEq

/-- What an array of bytes with a zero behind it is as a C string. -/
def CString.ofBytes (bytes : List UInt8) : CString where
  bytes := bytes.takeWhile (· ≠ 0)
  noZero mem := by simpa using List.mem_takeWhile_imp mem

theorem CString.ofBytes_bytes (s : CString) : CString.ofBytes s.bytes = s := by
  have whole : s.bytes.takeWhile (· ≠ 0) = s.bytes := by
    rw [List.takeWhile_eq_self_iff]
    intro c mem
    exact decide_eq_true fun zero => s.noZero (zero ▸ mem)
  cases s
  simpa [ofBytes] using whole

/-- The address of an array of `size` bytes. -/
structure Place (size : Nat) where
  address : Nat
  pos : 0 < address
  fits : address + size < wordSize

/-- The array with its first bytes set. -/
def Place.holding {size : Nat} (place : Place size) (bytes : List UInt8)
    (room : bytes.length ≤ size) : Buffer where
  base := place.address
  bytes := bytes
  base_pos := place.pos
  fits := Nat.lt_of_le_of_lt (Nat.add_le_add_left room _) place.fits

/-! ## Entries -/

/-- The fields of `struct tlib` that its info file is about. -/
structure Tlib where
  name : Option CString
  dir : Option CString
  label : Option CString
  totUp : UInt64
  totDown : UInt64
  contentSize : Int64
  contentHave : Int64
  deriving DecidableEq

/-- `tlib_create(hash)` -/
def tlibCreate : Tlib where
  name := none
  dir := none
  label := none
  totUp := 0
  totDown := 0
  contentSize := 0
  contentHave := 0

/-- The entry that `tlib_add`, and through it `tlib_readd`, hands to
`save_info`; there is none when the torrent has no name to fall back on. -/
def tlibAdd (mi : Buffer) (fuel : Nat) (content : CString) (name label : Option CString) :
    Exec (Option Tlib) := do
  let name ← match name with
    | some name => pure (some name)
    | none => do
        let given ← miName mi fuel mi.base
        pure (given.map CString.ofBytes)
  let contentSize ← miTotalLength mi fuel mi.base
  match name with
  | none => pure none
  | some name =>
      pure (some { tlibCreate with
        name := some name, dir := some content, label := label,
        contentSize := Int64.ofInt contentSize })

/-! ## Writing -/

/-- `INT_MAX` -/
def INT_MAX : Nat := 2 ^ 31 - 1

/-- `PATH_MAX` -/
def PATH_MAX : Nat := 4096

/-- Follow a `char *` that may be null. -/
def derefStr : Option CString → Exec (List UInt8)
  | some s => pure s.bytes
  | none => .error .nullDeref

/-- `"%d:%s"` with `(int)strlen(s), s`. -/
def printStr (s : List UInt8) : List UInt8 :=
  printInt (toInt s.length) ++ literal ":" ++ s

/-- What the format of `save_info` expands to. -/
def infoText (tl : Tlib) : Exec (List UInt8) := do
  let dir ← derefStr tl.dir
  let name ← derefStr tl.name
  let label ← derefStr tl.label
  pure (literal "d4:infod"
    ++ literal "12:content havei" ++ printInt tl.contentHave.toInt
    ++ literal "e12:content sizei" ++ printInt tl.contentSize.toInt
    ++ literal "e3:dir" ++ printStr dir ++ literal "4:name" ++ printStr name
    ++ literal "5:label" ++ printStr label
    ++ literal "14:total downloadi" ++ printInt tl.totDown.toInt64.toInt
    ++ literal "e12:total uploadi" ++ printInt tl.totUp.toInt64.toInt
    ++ literal "e" ++ literal "ee")

/-- `iobuf_print` into an empty buffer.  For a text that is longer than an
`int` can say, `vsnprintf` fails and the buffer keeps what `malloc` left in
it. -/
def iobufPrint (iob : Place (2 ^ 31)) (text : List UInt8) : Exec Buffer :=
  if room : (text ++ [0]).length ≤ 2 ^ 31 then
    .ok (iob.holding (text ++ [0]) room)
  else
    .error .uninitialized

/-- `strncmp`, on the bytes of two buffers. -/
def strncmp (first second : Buffer) : Nat → Nat → Nat → Exec Int
  | 0, _, _ => pure 0
  | n + 1, p, q => do
      let c ← first.read p
      let d ← second.read q
      if c ≠ d then
        pure ((c.toNat : Int) - d.toNat)
      else if c = 0 then
        pure 0
      else
        strncmp first second n (ptrAdd p 1) (ptrAdd q 1)

/-- `benc_strcmp(str1, str2)` -/
def bencStrcmp (first second : Buffer) (fuel str1 str2 : Nat) : Exec Int := do
  match ← bencMem first fuel str1, ← bencMem second fuel str2 with
  | some (cs1, len1), some (cs2, len2) => do
      let test ← strncmp first second (min len1 len2) cs1 cs2
      if test = 0 then
        pure (if len1 = len2 then 0 else if len1 < len2 then -1 else 1)
      else
        pure test
  | _, _ => .error .uninitialized

/-- The bytes that `"%.*s"` writes: at most `n`, and none from a zero on. -/
def readStr (buffer : Buffer) : Nat → Nat → Exec (List UInt8)
  | 0, _ => pure []
  | n + 1, p => do
      let c ← buffer.read p
      if c = 0 then
        pure []
      else
        let rest ← readStr buffer n (ptrAdd p 1)
        pure (c :: rest)

/-- Copy the pair with the key at `k`: what is written, and the next key. -/
def savePair (buffer : Buffer) (fuel k : Nat) : Exec (List UInt8 × Option Nat) := do
  match ← bencMemNext buffer fuel k with
  | none => .error .uninitialized
  | some (str, len, val) => do
      let key ← readStr buffer len str
      let val ← deref val
      let blen ← bencLength buffer fuel val
      let bytes ← readBytes buffer blen val
      let next ← bencNext buffer fuel val
      pure (printInt (toInt len) ++ literal ":" ++ key ++ bytes, next)

/-- `benc_next(benc_next(k))` -/
def skipPair (buffer : Buffer) (fuel k : Nat) : Exec (Option Nat) := do
  let val ← bencNext buffer fuel k
  let val ← deref val
  bencNext buffer fuel val

/-- The last loop of `dct_subst_save`, over one dictionary. -/
def saveRest (buffer : Buffer) (fuel : Nat) : Nat → Option Nat → Exec (List UInt8)
  | 0, _ => .error .diverge
  | _ + 1, none => pure []
  | bound + 1, some k => do
      let (pair, next) ← savePair buffer fuel k
      let later ← saveRest buffer fuel bound next
      pure (pair ++ later)

/-- The loops of `dct_subst_save`, from the keys `k1` and `k2` on. -/
def mergePairs (first second : Buffer) (fuel : Nat) :
    Nat → Option Nat → Option Nat → Exec (List UInt8)
  | 0, _, _ => .error .diverge
  | bound + 1, some k1, some k2 => do
      let test ← bencStrcmp first second fuel k1 k2
      if test < 0 then
        let (pair, next) ← savePair first fuel k1
        let later ← mergePairs first second fuel bound next (some k2)
        pure (pair ++ later)
      else
        let (pair, next) ← savePair second fuel k2
        let k1 ← if test = 0 then skipPair first fuel k1 else pure (some k1)
        let later ← mergePairs first second fuel bound k1 next
        pure (pair ++ later)
  | bound + 1, some k1, none => saveRest first fuel bound (some k1)
  | bound + 1, none, k2 => saveRest second fuel bound k2

/-- Turns that suffice for every loop over a buffer. -/
def turns (buffer : Buffer) : Nat := 2 * buffer.bytes.length + 2

/-- `dct_subst_save(fp, dct1, dct2)`: the pairs of both dictionaries, in order
of their keys, those of the second in place of the first's. -/
def dctSubstSave (dct1 dct2 : Buffer) : Exec (List UInt8) := do
  let k1 ← bencFirst dct1 dct1.base
  let k2 ← bencFirst dct2 dct2.base
  let fuel := turns dct1 + turns dct2
  let pairs ← mergePairs dct1 dct2 fuel fuel k1 k2
  pure (literal "d" ++ pairs ++ literal "e")

/-- `save_info(tl)`: the bytes of the info file. -/
def saveInfo (de : Place 3) (iob : Place (2 ^ 31)) (tl : Tlib) : Exec (List UInt8) := do
  let text ← infoText tl
  let buf ← iobufPrint iob text
  dctSubstSave (de.holding ['d'.toUInt8, 'e'.toUInt8, 0] (Nat.le_refl 3)) buf

/-! ## Reading -/

/-- The tests of `valid_info` on one string: present, not empty, and shorter
than `bound`. -/
def validStr (buffer : Buffer) (info : Nat) (key : List UInt8) (bound : Option Nat) :
    Exec Bool := do
  match ← bencDgetMem buffer (turns buffer) info key with
  | none => pure false
  | some (_, slen) => pure (slen ≠ 0 && bound.all (slen < ·))

/-- `valid_info(buf, len)` -/
def validInfo (buf : Buffer) : Exec Bool := do
  let invalid ← bencValidate buf (turns buf)
  if invalid ≠ 0 then
    pure false
  else
    match ← bencDgetDct buf (turns buf) buf.base (literal "info") with
    | none => pure false
    | some info => do
        if ← validStr buf info (literal "name") none then
          validStr buf info (literal "dir") (some PATH_MAX)
        else
          pure false

/-- The part of `load_info` behind its checks. -/
def takeInfo (buf : Buffer) : Exec Tlib := do
  let fuel := turns buf
  let info ← bencDgetDct buf fuel buf.base (literal "info")
  let info ← deref info
  let name ← bencDgetStr buf fuel info (literal "name")
  let label ← bencDgetStr buf fuel info (literal "label")
  let dir ← bencDgetStr buf fuel info (literal "dir")
  let totUp ← bencDgetInt buf fuel info (literal "total upload")
  let totDown ← bencDgetInt buf fuel info (literal "total download")
  let contentSize ← bencDgetInt buf fuel info (literal "content size")
  let contentHave ← bencDgetInt buf fuel info (literal "content have")
  pure {
    name := name.map CString.ofBytes
    dir := dir.map CString.ofBytes
    label := label.map CString.ofBytes
    totUp := (Int64.ofInt totUp).toUInt64
    totDown := (Int64.ofInt totDown).toUInt64
    contentSize := Int64.ofInt contentSize
    contentHave := Int64.ofInt contentHave
  }

/-- `load_info(tl, path)` on a new entry, for a file of the given bytes: a file
that is too large for the array, or not valid, leaves the entry as it is. -/
def loadInfo (buf : Place (2 ^ 14)) (file : List UInt8) : Exec Tlib :=
  if room : file.length ≤ 2 ^ 14 then do
    let buf := buf.holding file room
    if ← validInfo buf then
      takeInfo buf
    else
      pure tlibCreate
  else
    pure tlibCreate

/-- The entries that the claim of the round trip is about. -/
inductive Produced : Tlib → Prop
  | added {mi : Buffer} {fuel : Nat} {content : CString} {name label : Option CString} {tl : Tlib}
      (short : content.bytes.length < PATH_MAX)
      (add : tlibAdd mi fuel content name label = .ok (some tl)) : Produced tl
  | loaded {buf : Place (2 ^ 14)} {file : List UInt8} {tl : Tlib}
      (load : loadInfo buf file = .ok tl) : Produced tl

/-- The info file of the entry can be written, and reading it gives the entry
again. -/
def Survives (de : Place 3) (iob : Place (2 ^ 31)) (buf : Place (2 ^ 14)) (tl : Tlib) : Prop :=
  ∃ file, saveInfo de iob tl = .ok file ∧ loadInfo buf file = .ok tl

end Btpd.Info
