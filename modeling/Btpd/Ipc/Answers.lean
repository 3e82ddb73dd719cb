import Btpd.Info.Entry
import Btpd.Torrents.State
import Btpd.Benc.Validate

/-!
# What the daemon answers about its torrents

`cmd_tget` of `cli_if.c`: a client asks for some values of some torrents, and gets for each
torrent a list with the type and the value of each key, or an error code.
-/

namespace Btpd.Ipc

open Benc Metainfo
open Info (CString INT_MAX)
open Torrents (TorrentState)

/-! ## The numbers of the protocol -/

/-- `enum ipc_err`, from `ipcdefs.h`. -/
inductive IpcErr
  | ok | commerr | ebadcdir | ebadt | ebadtent | ebadtracker | ecreatecdir | enokey | enotent
  | eshutdown | etactive | etentexist | etinactive
  deriving DecidableEq, Repr

/-- `enum ipc_type` -/
inductive IpcType
  | err | bin | num | str
  deriving DecidableEq, Repr

/-- `enum ipc_tval`, from `ipcdefs.h`. -/
inductive IpcTval
  | cgot | csize | dir | name | num | ihash | pcgot | pcount | pccount | pcseen | ratedwn | rateup
  | sessdwn | sessup | state | totdwn | totup | trerr | trgood | label
  deriving DecidableEq, Repr

/-- `enum ipc_twc` -/
inductive IpcTwc
  | all | active | inactive
  deriving DecidableEq, Repr

/-- `enum ipc_tstate` -/
inductive IpcTstate
  | inactive | start | stop | leech | seed
  deriving DecidableEq, Repr

/-- An enumeration constant as a number. -/
def IpcErr.toInt (e : IpcErr) : Int := e.ctorIdx

def IpcType.toInt (t : IpcType) : Int := t.ctorIdx

def IpcTval.toInt (k : IpcTval) : Int := k.ctorIdx

def IpcTwc.toInt (w : IpcTwc) : Int := w.ctorIdx

def IpcTstate.toInt (s : IpcTstate) : Int := s.ctorIdx

/-- The keys in the order of their numbers. -/
def IpcTval.list : List IpcTval :=
  [.cgot, .csize, .dir, .name, .num, .ihash, .pcgot, .pcount, .pccount, .pcseen, .ratedwn, .rateup,
    .sessdwn, .sessup, .state, .totdwn, .totup, .trerr, .trgood, .label]

/-- A number in a variable of the type `unsigned`, or of the type of an enumeration. -/
def toUnsigned (n : Int) : UInt32 := UInt32.ofNat (n % 2 ^ 32).toNat

/-- A `long long` in a variable of the type `enum ipc_tval`: a key, or a number without one. -/
def IpcTval.ofInt (n : Int) : Option IpcTval := IpcTval.list[(toUnsigned n).toNat]?

/-! ## The library -/

/-- `RATEHISTORY` -/
def RATEHISTORY : UInt64 := 20

/-- What `write_ans` reads of a torrent, its content, its connections and its trackers. -/
structure Torrent where
  state : TorrentState
  delete : Bool
  npieces : UInt32
  cmContent : Int64
  cmPieces : UInt32
  /-- `net->piece_count`, which has an element for each piece. -/
  pieceCount : List UInt32
  rateDwn : UInt64
  rateUp : UInt64
  downloaded : UInt64
  uploaded : UInt64
  npeers : UInt32
  trGoodCount : Int32
  length_pieceCount : pieceCount.length = npieces.toNat

/-- An entry of the library.  Its strings have been printed by `save_info`, which writes them
with more than a hundred other bytes at once, or come from a file of `1 << 14` bytes. -/
structure Tlib extends Info.Tlib where
  num : UInt32
  hash : List UInt8
  tp : Option Torrent
  length_hash : hash.length = 20
  printed : ∀ s ∈ dir.toList ++ name.toList ++ label.toList, s.bytes.length + 100 ≤ INT_MAX

/-- `torrent_haunting` -/
def torrentHaunting (tl : Tlib) : Bool :=
  tl.tp.any fun tp => tp.delete && decide (tp.state = .ghost)

/-- `torrent_active` -/
def torrentActive (tl : Tlib) : Bool := tl.tp.any fun tp => decide (tp.state ≠ .ghost)

/-- The library: its entries in the order of the table, and the two lookups. -/
structure Library where
  entries : List Tlib
  tlibByNum : UInt32 → Option Tlib
  tlibByHash : List UInt8 → Option Tlib

/-! ## The values -/

/-- The type and the value that are written for a key. -/
inductive Answer
  | err (code : IpcErr)
  | num (n : Int)
  | str (bytes : List UInt8)
  | bin (bytes : List UInt8)

/-- A string of an entry that may be missing. -/
def stringAns : Option CString → Answer
  | some s => .str s.bytes
  | none => .err .ebadtent

/-- `IPC_TVAL_STATE` -/
def tstate : Option Torrent → IpcTstate
  | none => .inactive
  | some tp =>
      match tp.state with
      | .starting => .start
      | .stopping => .stop
      | .seed => .seed
      | .leech => .leech
      | .ghost => .inactive

/-- The loop of `IPC_TVAL_PCSEEN`. -/
def pcseen (tp : Torrent) : Nat := (tp.pieceCount.take tp.npieces.toNat).countP (0 < ·)

/-- `"%lld"` for an `unsigned long long`. -/
def signed (n : UInt64) : Int := n.toInt64.toInt

/-- The switch of `write_ans`. -/
def tlibAns (tl : Tlib) : Option IpcTval → Answer
  | some .cgot => .num (match tl.tp with
      | none => tl.contentHave.toInt
      | some tp => tp.cmContent.toInt)
  | some .csize => .num tl.contentSize.toInt
  | some .pccount => match tl.tp with
      | none => .err .etinactive
      | some tp => .num tp.npieces.toNat
  | some .pcgot => match tl.tp with
      | none => .err .etinactive
      | some tp => .num tp.cmPieces.toNat
  | some .pcseen => .num (match tl.tp with
      | none => 0
      | some tp => pcseen tp)
  | some .ratedwn => .num (match tl.tp with
      | none => 0
      | some tp => (tp.rateDwn / RATEHISTORY).toNat)
  | some .rateup => .num (match tl.tp with
      | none => 0
      | some tp => (tp.rateUp / RATEHISTORY).toNat)
  | some .sessdwn => .num (match tl.tp with
      | none => 0
      | some tp => signed tp.downloaded)
  | some .sessup => .num (match tl.tp with
      | none => 0
      | some tp => signed tp.uploaded)
  | some .dir => stringAns tl.dir
  | some .name => stringAns tl.name
  | some .ihash => .bin tl.hash
  | some .num => .num tl.num.toNat
  | some .pcount => .num (match tl.tp with
      | none => 0
      | some tp => tp.npeers.toNat)
  | some .state => .num (tstate tl.tp).toInt
  | some .totdwn => .num (signed (tl.totDown + match tl.tp with
      | none => 0
      | some tp => tp.downloaded))
  | some .totup => .num (signed (tl.totUp + match tl.tp with
      | none => 0
      | some tp => tp.uploaded))
  | some .trerr => .num 0
  | some .trgood => .num (match tl.tp with
      | none => 0
      | some tp => tp.trGoodCount.toInt)
  | some .label => stringAns tl.label
  | none => .err .enokey

/-- The type that stands before a value. -/
def Answer.type : Answer → IpcType
  | .err _ => .err
  | .num _ => .num
  | .str _ => .str
  | .bin _ => .bin

/-- What the formats of `write_ans` expand to; the twenty bytes of a hash are written behind
theirs. -/
def Answer.text : Answer → List UInt8
  | .err code => bencodeInt IpcType.err.toInt ++ bencodeInt code.toInt
  | .num n => bencodeInt IpcType.num.toInt ++ bencodeInt n
  | .str bytes => bencodeInt IpcType.str.toInt ++ Info.printStr bytes
  | .bin bytes => bencodeInt IpcType.bin.toInt ++ literal "20:" ++ bytes

/-! ## The reply -/

/-- `iobuf_print`.  For a text that is longer than an `int` can say, `vsnprintf` fails and the
buffer loses its last byte. -/
def iobufPrint (iob text : List UInt8) : List UInt8 :=
  if text.length ≤ INT_MAX then iob ++ text else iob.dropLast

/-- `write_ans` -/
def writeAns (iob : List UInt8) (tl : Tlib) (val : Option IpcTval) : List UInt8 :=
  iobufPrint iob (tlibAns tl val).text

/-- The list of a torrent in the reply. -/
def writeTorrent (iob : List UInt8) (tl : Tlib) (opts : List (Option IpcTval)) : List UInt8 :=
  opts.foldl (fun iob val => writeAns iob tl val) (iob ++ literal "l") ++ literal "e"

variable (buffer : Buffer) (fuel : Nat)

/-- `benc_int(p, &next)`, where `p` is `next` itself. -/
def bencIntNext (p : Nat) : Exec (Int × Option Nat) := do
  if ← bencIsint buffer p then
    let (res, endptr) ← strtoll buffer fuel (ptrAdd p 1)
    let c ← buffer.read endptr
    if c = 'e'.toUInt8 then
      let next := ptrAdd endptr 1
      let c ← buffer.read next
      pure (res, if c = 'e'.toUInt8 then none else some next)
    else
      .error .assertion
  else
    pure (0, some p)

/-- The loop of `cmd_tget` over the keys. -/
def readOpts : (nkeys : Nat) → (p : Option Nat) → Exec (List (Option IpcTval))
  | 0, _ => pure []
  | nkeys + 1, p => do
      let p ← deref p
      let (n, next) ← bencIntNext buffer fuel p
      let opts ← readOpts nkeys next
      pure (IpcTval.ofInt n :: opts)

/-- The torrents that a wildcard is about. -/
def wildcard (lib : Library) (frm : Int) : List Tlib :=
  lib.entries.filter fun tl => !torrentHaunting tl &&
    (decide (toUnsigned frm = toUnsigned IpcTwc.all.toInt) ||
      (!torrentActive tl && decide (toUnsigned frm = toUnsigned IpcTwc.inactive.toInt)) ||
      (torrentActive tl && decide (toUnsigned frm = toUnsigned IpcTwc.active.toInt)))

/-- The torrent that an element of the list of torrents names; nothing for an element that is
no name. -/
def readName (lib : Library) (p : Nat) : Exec (Option (Option Tlib)) := do
  if ← bencIsint buffer p then
    let n ← bencInt buffer fuel p
    pure (some (lib.tlibByNum (toUnsigned n)))
  else if ← bencIsstr buffer p then
    let (len, _) ← strtoul buffer fuel p
    if len = 20 then
      match ← bencMem buffer fuel p with
      | some (hash, _) => do
          let hash ← readBytes buffer 20 hash
          pure (some (lib.tlibByHash hash))
      | none => .error .nullDeref
    else pure none
  else pure none

/-- What is written for an element of the list of torrents. -/
def writeNamed (iob : List UInt8) (opts : List (Option IpcTval)) : Option Tlib → List UInt8
  | some tl =>
      if torrentHaunting tl then iobufPrint iob (bencodeInt IpcErr.enotent.toInt)
      else writeTorrent iob tl opts
  | none => iobufPrint iob (bencodeInt IpcErr.enotent.toInt)

/-- The loop of `cmd_tget` over the names. -/
def tgetName (lib : Library) (opts : List (Option IpcTval)) (iob : List UInt8) (p : Nat) :
    Exec (Option (List UInt8)) := do
  match ← readName buffer fuel lib p with
  | none => pure none
  | some tl => pure (some (writeNamed iob opts tl))

/-- What a command leaves: the text of its reply, or the error that it returns without one. -/
inductive Reply
  | text (iob : List UInt8)
  | error (code : Int)
  deriving DecidableEq

/-- What `cmd_tget` writes for the torrents that are asked for: all that meet a wildcard, or
those of a list. -/
def writeResult (lib : Library) (opts : List (Option IpcTval)) (frm : Nat) (iob : List UInt8) :
    Exec Reply := do
  if ← bencIsint buffer frm then
    let n ← bencInt buffer fuel frm
    pure (.text ((wildcard lib n).foldl (fun iob tl => writeTorrent iob tl opts) iob ++
      literal "ee"))
  else if ← bencIslst buffer frm then
    let first ← bencFirst buffer frm
    match ← bencForeach buffer fuel (tgetName buffer fuel lib opts) fuel first iob with
    | none => pure (.error IpcErr.commerr.toInt)
    | some iob => pure (.text (iob ++ literal "ee"))
  else pure (.text (iob ++ literal "ee"))

/-- `cmd_tget`; a list of torrents that is missing is not noticed. -/
def cmdTget (lib : Library) (argc : Int) (args : Option Nat) : Exec Reply :=
  if argc ≠ 1 then pure (.error IpcErr.commerr.toInt)
  else do
    let args ← deref args
    if ← bencIsdct buffer args then
      match ← bencDgetLst buffer fuel args (literal "keys") with
      | none => pure (.error IpcErr.commerr.toInt)
      | some keys => do
          let nkeys ← bencNelems buffer fuel keys
          let first ← bencFirst buffer keys
          let opts ← readOpts buffer fuel nkeys first
          let frm ← bencDgetAny buffer fuel args (literal "from")
          let frm ← deref frm
          writeResult buffer fuel lib opts frm (literal "d4:codei0e6:resultl")
    else pure (.error IpcErr.commerr.toInt)

/-! ## The message of a client -/

/-- The commands, in the order of `cmd_table`. -/
inductive Command
  | add | del | die | rate | start | startAll | stop | stopAll | tget

def Command.list : List Command :=
  [.add, .del, .die, .rate, .start, .startAll, .stop, .stopAll, .tget]

/-- The names in `cmd_table`. -/
def Command.name : Command → List UInt8
  | .add => literal "add"
  | .del => literal "del"
  | .die => literal "die"
  | .rate => literal "rate"
  | .start => literal "start"
  | .startAll => literal "start-all"
  | .stop => literal "stop"
  | .stopAll => literal "stop-all"
  | .tget => literal "tget"

/-- The search of `cmd_dispatch` for a name of `cmdlen` bytes. -/
def findCommand (cmd cmdlen : Nat) : List Command → Exec (Option Command)
  | [] => pure none
  | c :: table => do
      if cmdlen = c.name.length then
        if ← strncmpEq buffer cmd c.name cmdlen then pure (some c)
        else findCommand cmd cmdlen table
      else findCommand cmd cmdlen table

/-- `ENOENT` -/
def ENOENT : Int := 2

/-- `cmd_dispatch`, over the handlers of the commands. -/
def cmdDispatch (run : Command → Int → Option Nat → Exec Reply) (buf : Nat) : Exec Reply := do
  let first ← bencFirst buffer buf
  let first ← deref first
  match ← bencMemNext buffer fuel first with
  | none => .error .uninitialized
  | some (cmd, cmdlen, args) => do
      match ← findCommand buffer cmd cmdlen Command.list with
      | some c => do
          let nelems ← bencNelems buffer fuel buf
          run c (toInt (nelems - 1)) args
      | none => pure (.error ENOENT)

/-- The tests of `cli_read_cb` on a message. -/
def accepts : Exec Bool := do
  let invalid ← bencValidate buffer fuel
  if invalid ≠ 0 then pure false
  else if ← bencIslst buffer buffer.base then
    match ← bencFirst buffer buffer.base with
    | none => pure false
    | some first => bencIsstr buffer first
  else pure false

/-- `cli_read_cb` for a message in the buffer: the reply, when the message passes the tests. -/
def cliReadCb (run : Command → Int → Option Nat → Exec Reply) : Exec (Option Reply) := do
  if ← accepts buffer fuel then
    let reply ← cmdDispatch buffer fuel run buffer.base
    pure (some reply)
  else
    pure none

end Btpd.Ipc
