import Btpd.Ipc.Answers

/-!
# What a client makes of the answer

`btpd_if.c`: the requests for values of torrents, and the callback that is called for each
torrent of the answer.
-/

namespace Btpd.Ipc

open Benc Metainfo

/-! ## Requests -/

/-- `struct ipc_torrent` -/
inductive IpcTorrent
  | num (n : UInt32)
  | hash (bytes : List UInt8) (length_bytes : bytes.length = 20)

/-- The torrents that a client asks for. -/
inductive Selection
  | wildcard (twc : IpcTwc)
  | list (tps : List IpcTorrent)

/-- The name of a torrent in a request. -/
def IpcTorrent.text : IpcTorrent → List UInt8
  | .num n => bencodeInt n.toNat
  | .hash bytes _ => literal "20:" ++ bytes

/-- The request that `btpd_tget` and `btpd_tget_wc` print, once they have seen that something is
asked for. -/
def btpdTget (sel : Selection) (keys : List IpcTval) : List UInt8 :=
  (match sel with
    | .wildcard twc => literal "l4:tgetd4:from" ++ bencodeInt twc.toInt
    | .list tps => literal "l4:tgetd4:froml" ++ tps.flatMap IpcTorrent.text ++ literal "e") ++
  literal "4:keysl" ++ keys.flatMap (fun k => bencodeInt k.toInt) ++ literal "eee"

/-! ## Answers -/

/-- The union in `struct ipc_get_res`. -/
inductive IpcVal
  | num (n : Int)
  | str (p l : Nat)
  /-- A null pointer, with a length that was not set. -/
  | null
  deriving DecidableEq

/-- `struct ipc_get_res`, as far as it has been set. -/
structure IpcGetRes where
  type : Option UInt32
  v : Option IpcVal
  deriving DecidableEq

/-- A call of the client's callback. -/
structure Callback where
  obji : Int
  objerr : UInt32
  res : Option (IpcTval → IpcGetRes)

variable (buffer : Buffer) (fuel : Nat)

/-- The value of a type, at `v`; for another type the union stays as it is. -/
def readVal (type : UInt32) (v : Nat) (old : Option IpcVal) : Exec (Option IpcVal) := do
  if type = toUnsigned IpcType.err.toInt ∨ type = toUnsigned IpcType.num.toInt then
    let n ← bencInt buffer fuel v
    pure (some (.num n))
  else if type = toUnsigned IpcType.str.toInt ∨ type = toUnsigned IpcType.bin.toInt then
    match ← bencMem buffer fuel v with
    | some (p, l) => pure (some (.str p l))
    | none => pure (some .null)
  else pure old

/-- The loop of `tget_common` over the keys of a torrent, from the type at `t` and the value at
`v` on. -/
def readKeys : List IpcTval → (t v : Option Nat) → (IpcTval → IpcGetRes) →
    Exec (IpcTval → IpcGetRes)
  | [], _, _, cbres => pure cbres
  | key :: keys, t, v, cbres => do
      let tp ← deref t
      let vp ← deref v
      let n ← bencInt buffer fuel tp
      let type := toUnsigned n
      let val ← readVal buffer fuel type vp (cbres key).v
      let cbres : IpcTval → IpcGetRes := Function.update cbres key ⟨some type, val⟩
      let t ← bencNext buffer fuel vp
      match t with
      | some tp => do
          let v ← bencNext buffer fuel tp
          readKeys keys (some tp) v cbres
      | none => readKeys keys none v cbres

/-- What `tget_common` does with an element of the result. -/
def readObject (keys : List IpcTval) (s : List Callback × (IpcTval → IpcGetRes)) (res : Nat) :
    Exec (Option (List Callback × (IpcTval → IpcGetRes))) := do
  let (calls, cbres) := s
  if ← bencIsint buffer res then
    let n ← bencInt buffer fuel res
    pure (some (calls ++ [⟨toInt calls.length, toUnsigned n, none⟩], cbres))
  else
    let t ← bencFirst buffer res
    let tp ← deref t
    let v ← bencNext buffer fuel tp
    let cbres ← readKeys buffer fuel keys t v cbres
    let call : Callback := ⟨toInt calls.length, toUnsigned IpcErr.ok.toInt, some cbres⟩
    pure (some (calls ++ [call], cbres))

/-- `tget_common`: what it returns, and the calls of the callback. -/
def tgetCommon (ans : Nat) (keys : List IpcTval) : Exec (Int × List Callback) := do
  let code ← bencDgetInt buffer fuel ans (literal "code")
  let err := toInt code
  if err ≠ 0 then
    pure (err, [])
  else
    let res ← bencDgetLst buffer fuel ans (literal "result")
    let res ← deref res
    let first ← bencFirst buffer res
    let unset : IpcTval → IpcGetRes := fun _ => ⟨none, none⟩
    match ← bencForeach buffer fuel (readObject buffer fuel keys) fuel first ([], unset) with
    | some (calls, _) => pure (IpcErr.ok.toInt, calls)
    | none => pure (IpcErr.commerr.toInt, [])

/-- What `ipc_req_res` accepts as an answer. -/
def ipcReqRes : Exec Bool := do
  let invalid ← bencValidate buffer fuel
  if invalid ≠ 0 then pure false
  else bencIsdct buffer buffer.base

end Btpd.Ipc
