import Btpd.Benc.Walk

/-!
# The extraction functions of `misc/metainfo.c`

The routines that read a torrent's metainfo after it was accepted.  They follow
null pointers where the accessors return them and trust every count that they
store in an `int`, so that both are visible in the model: a null pointer and an
index outside an allocated array are faults.

Allocations succeed, with one exception that no allocator can avoid: a count
that became negative in an `int` asks for more cells than there are addresses.
-/

namespace Btpd.Metainfo

open Btpd.Benc

/-- Conversion to `int`. -/
def toInt (n : Int) : Int := (n + 2 ^ 31) % 2 ^ 32 - 2 ^ 31

/-- Conversion to `off_t`; a sum of two `off_t` that overflows wraps. -/
def toOff (n : Int) : Int := (n + 2 ^ 63) % 2 ^ 64 - 2 ^ 63

/-- `struct mi_file` -/
structure MiFile where
  path : List UInt8
  length : Int
  deriving DecidableEq, Repr

/-- `struct mi_tier` -/
structure MiTier where
  nurls : Int
  urls : Array (List UInt8)
  deriving DecidableEq, Repr

/-- `struct mi_announce` -/
structure MiAnnounce where
  ntiers : Int
  tiers : Array MiTier
  deriving DecidableEq, Repr

section

variable (buffer : Buffer) (fuel p : Nat)

/-- `benc_dget_dct(p, "info")`, handed on to an accessor that follows it. -/
def miInfo : Exec Nat := do
  let info ← bencDgetDct buffer fuel p (literal "info")
  deref info

/-- `mi_npieces(p)` -/
def miNpieces : Exec Nat := do
  let info ← miInfo buffer fuel p
  match ← bencDgetMem buffer fuel info (literal "pieces") with
  | some (_, plen) => pure (plen / 20)
  | none => .error .uninitialized

/-- `mi_piece_length(p)` -/
def miPieceLength : Exec Int := do
  let info ← miInfo buffer fuel p
  bencDgetInt buffer fuel info (literal "piece length")

/-- `mi_name(p)` -/
def miName : Exec (Option (List UInt8)) := do
  let info ← miInfo buffer fuel p
  bencDgetStr buffer fuel info (literal "name")

/-- One turn of the loop that adds up the lengths of the files. -/
def addLength (length : Int) (fdct : Nat) : Exec (Option Int) := do
  let n ← bencDgetInt buffer fuel fdct (literal "length")
  pure (some (toOff (length + n)))

/-- The sum of the file lengths, as `mi_total_length` and `mi_test` compute
it. -/
def filesLength (files : Nat) : Exec Int := do
  let first ← bencFirst buffer files
  match ← bencForeach buffer fuel (addLength buffer fuel) fuel first 0 with
  | some length => pure length
  | none => pure 0

/-- `mi_total_length(p)` -/
def miTotalLength : Exec Int := do
  let info ← miInfo buffer fuel p
  match ← bencDgetLst buffer fuel info (literal "files") with
  | some files => filesLength buffer fuel files
  | none => bencDgetInt buffer fuel info (literal "length")

/-- `mi_nfiles(p)` -/
def miNfiles : Exec Nat := do
  let info ← miInfo buffer fuel p
  match ← bencDgetLst buffer fuel info (literal "files") with
  | some files => bencNelems buffer fuel files
  | none => pure 1

/-- The first loop of `mi_filepath`: the number of components and their total
length.  On an element that is no string `benc_mem` leaves the iterator where
it was. -/
def filepathLength : Nat → Option Nat → Nat → Nat → Exec (Nat × Nat)
  | 0, _, _, _ => .error .diverge
  | _ + 1, none, npaths, plen => pure (npaths, plen)
  | bound + 1, some iter, npaths, plen => do
      match ← bencMemNext buffer fuel iter with
      | some (_, blen, next) =>
          filepathLength bound next ((npaths + 1) % wordSize) ((plen + blen) % wordSize)
      | none => .error .diverge

/-- The next component of a path, from an iterator that may be null. -/
def filepathComponent (iter : Option Nat) : Exec (List UInt8 × Option Nat) := do
  let p ← deref iter
  match ← bencMemNext buffer fuel p with
  | some (bstr, blen, next) => do
      let bytes ← readBytes buffer blen bstr
      pure (bytes, next)
  | none => .error .nullDeref

/-- The second loop of `mi_filepath`, which appends to a block of `cap` bytes
with room for the terminating zero. -/
def filepathCopy (cap : Nat) : Nat → Option Nat → List UInt8 → Exec (List UInt8)
  | 0, _, res =>
      if res.length < cap then
        pure res
      else
        .error .outOfBounds
  | npaths + 1, iter, res => do
      let (bytes, next) ← filepathComponent buffer fuel iter
      if res.length + 1 + bytes.length ≤ cap then
        filepathCopy cap npaths next (res ++ '/'.toUInt8 :: bytes)
      else
        .error .outOfBounds

/-- `mi_filepath(plst)`: the bytes before the terminating zero. -/
def miFilepath (plst : Nat) : Exec (List UInt8) := do
  let first ← bencFirst buffer plst
  let (npaths, plen) ← filepathLength buffer fuel fuel first 0 0
  let cap := (plen + (npaths + wordSize - 1) + 1) % wordSize
  let (bytes, next) ← filepathComponent buffer fuel first
  if bytes.length ≤ cap then
    filepathCopy buffer fuel cap (npaths - 1) next bytes
  else
    .error .outOfBounds

/-- One turn of the loop of `mi_files`, with its `int` index and the array of
`nfiles` cells filled so far. -/
def miFilesBody (nfiles : Nat) (state : Int × List MiFile) (fdct : Nat) :
    Exec (Option (Int × List MiFile)) := do
  let (i, fi) := state
  let length ← bencDgetInt buffer fuel fdct (literal "length")
  let plst ← bencDgetLst buffer fuel fdct (literal "path")
  let plst ← deref plst
  let path ← miFilepath buffer fuel plst
  if 0 ≤ i ∧ i < nfiles then
    pure (some (toInt (i + 1), fi ++ [⟨path, length⟩]))
  else
    .error .outOfBounds

/-- `mi_files(p)` -/
def miFiles : Exec (Option (List MiFile)) := do
  let info ← miInfo buffer fuel p
  match ← bencDgetLst buffer fuel info (literal "files") with
  | some files => do
      let nelems ← bencNelems buffer fuel files
      let first ← bencFirst buffer files
      match ← bencForeach buffer fuel (miFilesBody buffer fuel (nelems % 2 ^ 32)) fuel first
          (0, []) with
      | some (_, fi) => pure (some fi)
      | none => pure none
  | none => do
      let length ← bencDgetInt buffer fuel info (literal "length")
      match ← bencDgetStr buffer fuel info (literal "name") with
      | some path => pure (some [⟨path, length⟩])
      | none => pure none

/-! ## `mi_announce` -/

/-- The URL at `url`, stored in a tier of `nurls` cells. -/
def announceUrl (nurls : Int) (urls : Array (List UInt8)) (url : Nat) :
    Exec (Option (Array (List UInt8))) := do
  match ← bencStr buffer fuel url with
  | none => pure none
  | some bytes =>
      if urls.size < nurls then
        pure (some (urls.push bytes))
      else
        .error .outOfBounds

/-- The tier at `ulst`, stored in an array of `ntiers` cells. -/
def announceTier (ntiers : Int) (tiers : Array MiTier) (ulst : Nat) :
    Exec (Option (Array MiTier)) :=
  if tiers.size < ntiers then do
    let nelems ← bencNelems buffer fuel ulst
    if toInt nelems < 0 then
      pure none
    else
      let first ← bencFirst buffer ulst
      match ← bencForeach buffer fuel (announceUrl buffer fuel (toInt nelems)) fuel first #[] with
      | none => pure none
      | some urls => pure (some (tiers.push ⟨toInt nelems, urls⟩))
  else
    .error .outOfBounds

/-- `mi_announce(p)` up to the shuffle. -/
def miAnnounceTiers : Exec (Option MiAnnounce) := do
  match ← bencDgetLst buffer fuel p (literal "announce-list") with
  | some alst => do
      let nelems ← bencNelems buffer fuel alst
      if toInt nelems < 0 then
        pure none
      else
        let first ← bencFirst buffer alst
        match ← bencForeach buffer fuel (announceTier buffer fuel (toInt nelems)) fuel first
            #[] with
        | none => pure none
        | some tiers => pure (some ⟨toInt nelems, tiers⟩)
  | none => do
      match ← bencDgetStr buffer fuel p (literal "announce") with
      | none => pure none
      | some url => pure (some ⟨1, #[⟨1, #[url]⟩]⟩)

end

/-! ## The shuffle -/

/-- `rand_between(lo, hi)` for the outcome `random` of the generator.  The code
scales through a `double`; only the range of the result is used here. -/
def randBetween (lo hi random : Nat) : Nat := lo + random % (hi - lo + 1)

/-- The loop of `mi_shuffle_announce` over one tier, from the index `j` on for
`n` turns. -/
def shuffleUrls (nurls : Nat) (random : Nat → Nat) :
    Nat → Nat → Array (List UInt8) → Exec (Array (List UInt8))
  | 0, _, urls => pure urls
  | n + 1, j, urls =>
      let ri := randBetween j (nurls - 1) (random j)
      if h : j < urls.size ∧ ri < urls.size then
        shuffleUrls nurls random n (j + 1) (urls.swap j ri h.1 h.2)
      else
        .error .outOfBounds

/-- `mi_shuffle_announce` on one tier. -/
def shuffleTier (random : Nat → Nat) (tier : MiTier) : Exec MiTier := do
  let urls ← shuffleUrls tier.nurls.toNat random (tier.nurls - 1).toNat 0 tier.urls
  pure { tier with urls := urls }

/-- The tiers from the index `i` on, shuffled. -/
def shuffleTiers (random : Nat → Nat → Nat) : Nat → List MiTier → Exec (List MiTier)
  | _, [] => pure []
  | i, tier :: tiers => do
      let tier' ← shuffleTier (random i) tier
      let tiers' ← shuffleTiers random (i + 1) tiers
      pure (tier' :: tiers')

/-- `mi_shuffle_announce(ann)` -/
def miShuffleAnnounce (random : Nat → Nat → Nat) (ann : MiAnnounce) : Exec MiAnnounce := do
  let tiers ← shuffleTiers random 0 ann.tiers.toList
  pure { ann with tiers := tiers.toArray }

/-- `mi_announce(p)`, where `random i j` is the outcome of the generator for
the URL `j` of the tier `i`. -/
def miAnnounce (random : Nat → Nat → Nat) (buffer : Buffer) (fuel p : Nat) :
    Exec (Option MiAnnounce) := do
  match ← miAnnounceTiers buffer fuel p with
  | none => pure none
  | some ann => do
      let shuffled ← miShuffleAnnounce random ann
      pure (some shuffled)

end Btpd.Metainfo
