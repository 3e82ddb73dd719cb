import Btpd.Ipc.Queries
import Mathlib

/-!
# The requests that are answered with a code

All commands but `add` and `tget`: what `btpd_if.c` prints, what the handlers of `cli_if.c` read
of it, and the code that comes back.  What a handler does with what it has read is told apart
from that.
-/

namespace Btpd.Ipc

open Benc Metainfo

/-! ## The client -/

/-- A request, with the torrent or the rates that it names. -/
inductive Request
  | del (tp : IpcTorrent)
  | die
  | rate (up down : UInt32)
  | start (tp : IpcTorrent)
  | startAll
  | stop (tp : IpcTorrent)
  | stopAll

/-- `simple_treq` -/
def simpleTreq (cmd : List UInt8) (tp : IpcTorrent) : List UInt8 :=
  literal "l" ++ bencodeStr cmd ++ tp.text ++ literal "e"

/-- `btpd_del` -/
def btpdDel (tp : IpcTorrent) : List UInt8 := simpleTreq (literal "del") tp

/-- `btpd_die` -/
def btpdDie : List UInt8 := literal "l3:diee"

/-- `btpd_rate`, which prints each `unsigned` with `"%i"`. -/
def btpdRate (up down : UInt32) : List UInt8 :=
  literal "l4:rate" ++ bencodeInt up.toInt32.toInt ++ bencodeInt down.toInt32.toInt ++ literal "e"

/-- `btpd_start` -/
def btpdStart (tp : IpcTorrent) : List UInt8 := simpleTreq (literal "start") tp

/-- `btpd_start_all` -/
def btpdStartAll : List UInt8 := literal "l9:start-alle"

/-- `btpd_stop` -/
def btpdStop (tp : IpcTorrent) : List UInt8 := simpleTreq (literal "stop") tp

/-- `btpd_stop_all` -/
def btpdStopAll : List UInt8 := literal "l8:stop-alle"

/-- What the client prints for a request. -/
def Request.text : Request → List UInt8
  | .del tp => btpdDel tp
  | .die => btpdDie
  | .rate up down => btpdRate up down
  | .start tp => btpdStart tp
  | .startAll => btpdStartAll
  | .stop tp => btpdStop tp
  | .stopAll => btpdStopAll

/-! ## The daemon -/

/-- What a handler works on when it has read its arguments: the entry of the library, if there is
one, or the rates. -/
inductive Call
  | del (tl : Option Tlib)
  | die
  | rate (up down : UInt32)
  | start (tl : Option Tlib)
  | startAll
  | stop (tl : Option Tlib)
  | stopAll

/-- `write_code_buffer` -/
def writeCodeBuffer (code : IpcErr) : Reply :=
  .text (literal "d4:code" ++ bencodeInt code.toInt ++ literal "e")

section

variable (buffer : Buffer) (fuel : Nat) (lib : Library) (stopping : Bool) (work : Call → IpcErr)

/-- `benc_isstr(args) && benc_strlen(args) == 20` -/
def isHash (p : Nat) : Exec Bool := do
  if ← bencIsstr buffer p then
    let (len, _) ← strtoul buffer fuel p
    pure (decide (len = 20))
  else pure false

/-- The entry that the argument of a command names; nothing for an argument that is no name. -/
def readTorrent (args : Option Nat) : Exec (Option (Option Tlib)) := do
  let p ← deref args
  if ← isHash buffer fuel p then
    let mem ← bencMem buffer fuel p
    let hash ← deref (mem.map Prod.fst)
    let hash ← readBytes buffer 20 hash
    pure (some (lib.tlibByHash hash))
  else if ← bencIsint buffer p then
    let n ← bencInt buffer fuel p
    pure (some (lib.tlibByNum (toUnsigned n)))
  else pure none

/-- What `cmd_del`, `cmd_start` and `cmd_stop` do with their argument. -/
def cmdNamed (call : Option Tlib → Call) (args : Option Nat) : Exec Reply := do
  match ← readTorrent buffer fuel lib args with
  | some tl => pure (writeCodeBuffer (work (call tl)))
  | none => pure (.error IpcErr.commerr.toInt)

/-- `cmd_del` -/
def cmdDel (argc : Int) (args : Option Nat) : Exec Reply :=
  if argc ≠ 1 then pure (.error IpcErr.commerr.toInt)
  else cmdNamed buffer fuel lib work .del args

/-- `cmd_start` -/
def cmdStart (argc : Int) (args : Option Nat) : Exec Reply :=
  if argc ≠ 1 then pure (.error IpcErr.commerr.toInt)
  else if stopping then pure (writeCodeBuffer .eshutdown)
  else cmdNamed buffer fuel lib work .start args

/-- `cmd_stop` -/
def cmdStop (argc : Int) (args : Option Nat) : Exec Reply :=
  if argc ≠ 1 then pure (.error IpcErr.commerr.toInt)
  else cmdNamed buffer fuel lib work .stop args

/-- `cmd_start_all` -/
def cmdStartAll : Exec Reply :=
  if stopping then pure (writeCodeBuffer .eshutdown)
  else pure (writeCodeBuffer (work .startAll))

/-- `cmd_stop_all` -/
def cmdStopAll : Exec Reply := pure (writeCodeBuffer (work .stopAll))

end

/-- The command of a request. -/
def Request.command : Request → Command
  | .del _ => .del
  | .die => .die
  | .rate .. => .rate
  | .start _ => .start
  | .startAll => .startAll
  | .stop _ => .stop
  | .stopAll => .stopAll

/-- The arguments of a request. -/
def Request.args : Request → List (List UInt8)
  | .del tp | .start tp | .stop tp => [tp.elem]
  | .rate up down => [bencodeInt up.toInt32.toInt, bencodeInt down.toInt32.toInt]
  | .die | .startAll | .stopAll => []

/-- What the handler of a request should work on. -/
def Request.call (lib : Library) : Request → Call
  | .del tp => .del (lib.lookup tp)
  | .die => .die
  | .rate up down => .rate up down
  | .start tp => .start (lib.lookup tp)
  | .startAll => .startAll
  | .stop tp => .stop (lib.lookup tp)
  | .stopAll => .stopAll

/-- The requests for which a daemon that is about to end has no time. -/
def Request.refused (stopping : Bool) : Request → Bool
  | .rate .. | .start _ | .startAll => stopping
  | .del _ | .die | .stop _ | .stopAll => false

/-- The code with which a request is answered. -/
def Request.code (lib : Library) (stopping : Bool) (work : Call → IpcErr) (req : Request) :
    IpcErr :=
  if req.refused stopping then .eshutdown else work (req.call lib)

end Btpd.Ipc
