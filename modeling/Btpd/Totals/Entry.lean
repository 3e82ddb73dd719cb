import Btpd.Torrents.Daemon

/-!
# The totals of an entry

What `tlib.c`, `torrent.c` and `cli_if.c` do to the totals of one info hash: the entry of
the library with its torrent, the info file, and what `cmd_tget` answers.  Beside them
stands the number of bytes that were moved for the entry, each counted once.  No routine
reads it.
-/

namespace Btpd.Totals

open Prog
open Torrents (CmState TorrentState Start)

/-- Bytes sent and received. -/
structure Bytes where
  up : Nat
  down : Nat
  deriving DecidableEq, Repr

instance : Add Bytes := ⟨fun a b => ⟨a.up + b.up, a.down + b.down⟩⟩

instance : Zero Bytes := ⟨⟨0, 0⟩⟩

instance : LE Bytes := ⟨fun a b => a.up ≤ b.up ∧ a.down ≤ b.down⟩

/-- `struct torrent`, with `net->uploaded` and `net->downloaded`, the state of its content,
`net_active` and `tr_active`.  `linked` says that `tl` points to the entry: `tlib_readd` does
not change the pointer when it replaces the entry. -/
structure Torrent where
  state : TorrentState
  delete : Bool
  cm : CmState
  error : Bool
  netActive : Bool
  trActive : Bool
  net : Bytes
  linked : Bool
  deriving DecidableEq, Repr

/-- `struct tlib`: `tot_up` and `tot_down`, whether `tp` is set, and whether `dir` is: `load_info`
leaves an entry without one when it refuses the info file. -/
structure Tlib where
  tot : Bytes
  tp : Bool
  dir : Bool
  deriving DecidableEq, Repr

/-- The entry in the tables, the torrent that has not been freed, the totals in the info
file, if the directory is there, and the bytes that were moved for the entry. -/
structure Account where
  tl : Option Tlib
  tp : Option Torrent
  info : Option Bytes
  moved : Bytes
  deriving DecidableEq, Repr

/-- The ways in which the code stops. -/
inductive Fault
  | torrentFreed
  | entryFreed
  | stillActive
  | notStartable
  | notGhost
  | nullDeref
  | dirExists
  deriving DecidableEq, Repr

/-- The routines whose calls are recorded. -/
inductive Fn
  | becomeGhost
  | tlibReadd
  /-- `load_info`, and whether `read_file` and `valid_info` accept the info file. -/
  | loadInfo (valid : Bool)
  deriving DecidableEq, Repr

/-- A routine. -/
abbrev Routine := Prog Account Fn Fault

/-! ## Pointers -/

/-- Follow a pointer to the torrent. -/
def torrent : Routine Torrent := do
  let s ← get
  match s.tp with
  | some t => pure t
  | none => fault .torrentFreed

/-- Change the torrent. -/
def setTorrent (f : Torrent → Torrent) : Routine Unit := do
  let t ← torrent
  modify fun s => { s with tp := some (f t) }

/-- Follow a pointer to the entry. -/
def entry : Routine Tlib := do
  let s ← get
  match s.tl with
  | some e => pure e
  | none => fault .entryFreed

/-- Change the entry. -/
def setTlib (f : Tlib → Tlib) : Routine Unit := do
  let e ← entry
  modify fun s => { s with tl := some (f e) }

/-! ## The library -/

/-- `tlib_kill` -/
def tlibKill : Routine Unit := do
  let _ ← entry
  modify fun s => { s with tl := none }

/-- `tlib_del` -/
def tlibDel : Routine Unit := do
  let e ← entry
  if e.tp = true then do
    let t ← torrent
    assert (t.state = .ghost) .notGhost
    modify fun s => { s with info := none }
  else do
    modify fun s => { s with info := none }
    tlibKill

/-- `save_info` -/
def saveInfo (tot : Bytes) : Routine Unit := modify fun s => { s with info := some tot }

/-- `tlib_update_info`, where `only_file` leaves the entry as it is. -/
def tlibUpdateInfo (onlyFile : Bool) : Routine Unit := do
  let e ← entry
  assert (e.tp = true) .nullDeref
  let t ← torrent
  when (onlyFile = false) (setTlib fun e => { e with tot := e.tot + t.net })
  saveInfo (e.tot + t.net)

/-- `tlib_add`; no bytes were moved for the new entry. -/
def tlibAdd : Routine Unit := do
  let s ← get
  assert (s.info = none) .dirExists
  modify fun s => { s with tl := some ⟨0, false, true⟩, moved := 0 }
  saveInfo 0

/-- `tlib_readd` -/
def tlibReadd : Routine Unit := call .tlibReadd do
  let e ← entry
  assert (e.tp = true) .nullDeref
  setTorrent fun t => { t with delete := false }
  tlibKill
  setTorrent fun t => { t with linked := false }
  tlibAdd
  setTlib fun e => { e with tp := true }

/-! ## Torrents -/

/-- What `torrent_kill` does to the entry that the torrent points to. -/
def killEntry (t : Torrent) : Routine Unit := do
  assert (t.linked = true) .entryFreed
  if t.delete = true then tlibKill else setTlib fun e => { e with tp := false }

/-- `torrent_kill` -/
def torrentKill : Routine Unit := do
  let t ← torrent
  assert (¬(t.netActive = true ∨ t.cm ≠ .inactive)) .stillActive
  killEntry t
  modify fun s => { s with tp := none }

/-- `torrent_startable` -/
def torrentStartable : Routine Bool := do
  let e ← entry
  if e.tp = true then do
    let t ← torrent
    pure (decide (t.state = .ghost ∧ t.delete = false))
  else pure true

/-- `torrent_haunting` -/
def torrentHaunting : Routine Bool := do
  let e ← entry
  if e.tp = true then do
    let t ← torrent
    pure (decide (t.delete = true ∧ t.state = .ghost))
  else pure false

/-- `torrent_active` -/
def torrentActive : Routine Bool := do
  let e ← entry
  if e.tp = true then do
    let t ← torrent
    pure (decide (t.state ≠ .ghost))
  else pure false

/-- The start of `torrent_start`, which kills the ghost of the entry. -/
def ghostKill : Routine Unit := do
  let e ← entry
  when (e.tp = true) do
    let startable ← torrentStartable
    assert (startable = true) .notStartable
    torrentKill
    setTlib fun e => { e with tp := false }

/-- The end of `torrent_start`, for an entry without a torrent. -/
def torrentCreate (st : Start) : Routine Bool := do
  let e ← entry
  if e.dir = true ∧ st.loads = true then do
    modify fun s => { s with
      tp := some ⟨.starting, false, st.cm.getD .inactive, st.cm.isNone, false, false, 0, true⟩ }
    setTlib fun e => { e with tp := true }
    pure true
  else pure false

/-- `torrent_start`, which gives back whether it has started the torrent. -/
def torrentStart (st : Start) : Routine Bool := do
  ghostKill
  torrentCreate st

/-- What `become_ghost` does to the entry. -/
def ghostEntry (t : Torrent) : Routine Unit :=
  if t.delete = true then tlibDel else tlibUpdateInfo false

/-- `become_ghost` -/
def becomeGhost : Routine Unit := call .becomeGhost do
  setTorrent fun t => { t with state := .ghost }
  let t ← torrent
  ghostEntry t

/-- `net_stop`, `tr_stop` and `cm_stop` in `torrent_stop`: `trStays` tells whether a tracker
is told that the torrent stops, and `closes` whether the streams close without an error. -/
def Torrent.stopped (t : Torrent) (trStays closes : Bool) : Torrent :=
  { t with
    netActive := false
    trActive := t.trActive && trStays
    cm := .inactive
    error := t.error || (decide (t.cm ≠ .inactive) && !closes) }

/-- What `torrent_on_tick` does with a ghost, and the end of `torrent_stop`. -/
def ghostOnTick : Routine Unit := do
  let t ← torrent
  when (t.trActive = false) torrentKill

/-- `torrent_stop` -/
def torrentStop (delete trStays closes : Bool) : Routine Unit := do
  when (delete = true) (setTorrent fun t => { t with delete := true })
  let t ← torrent
  when (t.state = .leech ∨ t.state = .seed ∨ t.state = .starting) do
    setTorrent fun t => { t with state := .stopping }
    setTorrent fun t => t.stopped trStays closes
    let t ← torrent
    when (t.cm = .inactive) do
      becomeGhost
      ghostOnTick

/-- What a tick brings: whether all the pieces are there, whether there are trackers, and
how `torrent_stop` would go. -/
structure Tick where
  full : Bool
  trStarts : Bool
  trStays : Bool
  closes : Bool

/-- The end of `torrent_on_tick`, which goes by the state of the torrent. -/
def stateOnTick (k : Tick) : Routine Unit := do
  let t ← torrent
  match t.state with
  | .starting =>
      when (t.cm = .active) (setTorrent fun t => { t with
        state := if k.full then .seed else .leech
        netActive := true
        trActive := k.trStarts })
  | .leech => when (k.full = true) (setTorrent fun t => { t with state := .seed })
  | .stopping => when (t.cm = .inactive) do
      becomeGhost
      ghostOnTick
  | .ghost => ghostOnTick
  | .seed => pure ()

/-- `torrent_on_tick` -/
def torrentOnTick (k : Tick) : Routine Unit := do
  let t ← torrent
  when (t.state ≠ .stopping ∧ t.error = true) (torrentStop false k.trStays k.closes)
  stateOnTick k

/-- The end of `torrent_on_tick_all`, when it is the turn of the torrent. -/
def saveOnTick : Routine Unit := do
  let t ← torrent
  when (t.state = .leech ∨ t.state = .seed) (tlibUpdateInfo true)

/-! ## Commands -/

/-- `cmd_add` with a metainfo and a directory that are right. -/
def cmdAdd : Routine Unit := do
  let s ← get
  match s.tl with
  | none => tlibAdd
  | some _ => do
      let haunting ← torrentHaunting
      when (haunting = true) tlibReadd

/-- `cmd_del` -/
def cmdDel (trStays closes : Bool) : Routine Unit := do
  let haunting ← torrentHaunting
  when (haunting = false) do
    let e ← entry
    if e.tp = true then torrentStop true trStays closes else tlibDel

/-- `cmd_start`, and `cmd_start_all` for the entry -/
def cmdStart (st : Start) : Routine Unit := do
  let startable ← torrentStartable
  when (startable = true) do
    let _ ← torrentStart st

/-- `cmd_stop`, and `cmd_stop_all` and `btpd_shutdown` for the torrent -/
def cmdStop (trStays closes : Bool) : Routine Unit := do
  let active ← torrentActive
  when (active = true) (torrentStop false trStays closes)

/-- `IPC_TVAL_TOTUP` and `IPC_TVAL_TOTDWN` in `write_ans`. -/
def Account.writeAns (s : Account) (e : Tlib) : Bytes :=
  e.tot + if e.tp = true then (s.tp.map Torrent.net).getD 0 else 0

/-- The torrent of the entry is a ghost, and the entry is to be deleted. -/
def Account.haunting (s : Account) (e : Tlib) : Bool :=
  e.tp && s.tp.any fun t => t.delete && decide (t.state = .ghost)

/-- What `cmd_tget` answers for the entry, if it is not hidden. -/
def Account.reported (s : Account) : Option Bytes :=
  (s.tl.filter fun e => !s.haunting e).map s.writeAns

/-! ## Events -/

/-- What can happen: a command, a tick of the torrent, a save that is due, bytes that are
sent and received, news of the content and the trackers, and the daemon is started again
after it was shut down, which accepts the info file or does not. -/
inductive Event
  | add
  | del (trStays closes : Bool)
  | start (st : Start)
  | stop (trStays closes : Bool)
  | tick (k : Tick)
  | save
  | transfer (b : Bytes)
  | cmStarted
  | cmError
  | trDone
  | restart (valid : Bool)

/-- The new entry after `load_info`, for an info file with the totals `tot`. -/
def Tlib.loaded (valid : Bool) (tot : Bytes) : Tlib :=
  if valid = true then ⟨tot, false, true⟩ else ⟨0, false, false⟩

/-- `tlib_init` -/
def tlibInit (valid : Bool) : Routine Unit := call (.loadInfo valid) do
  modify fun s => { s with tl := s.info.map (.loaded valid), tp := none }

/-- The daemon exits when there are only ghosts. -/
def Account.onlyGhosts (s : Account) : Bool := s.tp.all fun t => decide (t.state = .ghost)

/-- Run a routine for the entry, if there is one. -/
def ifEntry (m : Routine Unit) : Routine Unit := do
  let s ← get
  when (s.tl.isSome = true) m

/-- Run a routine for the torrent, if there is one. -/
def ifTorrent (m : Torrent → Routine Unit) : Routine Unit := do
  let s ← get
  forEach s.tp.toList m

/-- What happens on an event. -/
def handle : Event → Routine Unit
  | .add => cmdAdd
  | .del trStays closes => ifEntry (cmdDel trStays closes)
  | .start st => ifEntry (cmdStart st)
  | .stop trStays closes => ifEntry (cmdStop trStays closes)
  | .tick k => ifTorrent fun _ => torrentOnTick k
  | .save => ifTorrent fun _ => saveOnTick
  | .transfer b => ifTorrent fun t => when (t.netActive = true) do
      setTorrent fun t => { t with net := t.net + b }
      modify fun s => { s with moved := s.moved + b }
  | .cmStarted => ifTorrent fun t => when (t.cm = .starting)
      (setTorrent fun t => { t with cm := .active })
  | .cmError => ifTorrent fun t => when (t.cm ≠ .inactive)
      (setTorrent fun t => { t with cm := .inactive, error := true })
  | .trDone => ifTorrent fun _ => setTorrent fun t => { t with trActive := false }
  | .restart valid => do
      let s ← get
      when (s.onlyGhosts = true) (tlibInit valid)

/-- An info hash with what the daemon has found in its info file, or with nothing. -/
structure Account.Init (s : Account) : Prop where
  tp : s.tp = none
  tl : s.tl = s.info.map (.loaded true)
  moved : ∀ tot, s.info = some tot → s.moved = tot

/-- The entry of an info hash. -/
def account : System Account Fn Fault Event := ⟨Account.Init, handle⟩

/-- The bytes of a session would be counted twice: its torrent becomes a ghost that waits
for its trackers, or the ghost is handed to a new entry. -/
def twice (c : Call Account Fn) : Prop :=
  match c.entry.tp with
  | none => False
  | some t => t.net ≠ 0 ∧
      (c.fn = .tlibReadd ∨ c.fn = .becomeGhost ∧ t.trActive = true ∧ t.delete = false)

instance : DecidablePred twice := fun c => by
  unfold twice
  split <;> infer_instance

/-- The bytes of earlier sessions would be lost: the info file that holds them is refused. -/
def lost (c : Call Account Fn) : Prop := c.fn = .loadInfo false ∧ c.entry.info.getD 0 ≠ 0

instance : DecidablePred lost := fun c => inferInstanceAs (Decidable (c.fn = _ ∧ _))

/-- Bytes would be counted twice, or not at all. -/
def miscounted (c : Call Account Fn) : Prop := twice c ∨ lost c

instance : DecidablePred miscounted := fun c => inferInstanceAs (Decidable (twice c ∨ lost c))

end Btpd.Totals
