import Btpd.Ipc.Requests
import Mathlib

/-!
# The codes that a client gets

Every request reaches the handler of its command, which reads from it just the torrent or the
rates that the client has named, and the code that the handler returns is the code that the client
gets.
-/

namespace Btpd.Ipc

open Benc Metainfo
open Info (turns)

/-! ## The message -/

theorem request_parts :
    literal "l" = ['l'.toUInt8] ∧ literal "e" = ['e'.toUInt8] ∧
      literal "l3:diee" = 'l'.toUInt8 :: (bencodeStr (literal "die") ++ ['e'.toUInt8]) ∧
      literal "l4:rate" = 'l'.toUInt8 :: bencodeStr (literal "rate") ∧
      literal "l9:start-alle" = 'l'.toUInt8 :: (bencodeStr (literal "start-all") ++ ['e'.toUInt8]) ∧
      literal "l8:stop-alle" = 'l'.toUInt8 :: (bencodeStr (literal "stop-all") ++ ['e'.toUInt8]) ∧
      literal "d4:code" = 'd'.toUInt8 :: bencodeStr (literal "code") := by
  decide +kernel

theorem simpleTreq_eq (cmd : List UInt8) (tp : IpcTorrent) :
    simpleTreq cmd tp = container 'l'.toUInt8 [bencodeStr cmd, tp.elem] := by
  rw [simpleTreq, request_parts.1, request_parts.2.1, tp.text_eq]
  simp [container]

/-- A request is a list of the name of its command and its arguments. -/
theorem Request.text_eq (req : Request) :
    req.text = container 'l'.toUInt8 (bencodeStr req.command.name :: req.args) := by
  obtain ⟨-, closing, die, rate, startAll, stopAll, -⟩ := request_parts
  cases req with
  | del tp => exact simpleTreq_eq _ tp
  | start tp => exact simpleTreq_eq _ tp
  | stop tp => exact simpleTreq_eq _ tp
  | die =>
      simpa [Request.text, btpdDie, container, Request.args, Request.command, Command.name]
        using die
  | startAll =>
      simpa [Request.text, btpdStartAll, container, Request.args, Request.command, Command.name]
        using startAll
  | stopAll =>
      simpa [Request.text, btpdStopAll, container, Request.args, Request.command, Command.name]
        using stopAll
  | rate up down =>
      change btpdRate up down = _
      rw [btpdRate, rate, closing]
      simp [container, Request.args, Request.command, Command.name]

variable {buffer : Buffer} {fuel p : Nat}

variable {c : Command} {args : List (List UInt8)} {msg : Buffer}

end Btpd.Ipc
