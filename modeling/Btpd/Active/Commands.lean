import Btpd.Active.File
import Btpd.Totals.Runs

/-!
# The commands and the file of started torrents

`cli_if.c` calls the routines of `active.c` where it starts and stops torrents.  The daemon
has an account for every info hash; beside the file stand the commands that were answered
with `IPC_OK`.  No routine reads them.
-/

namespace Btpd.Active

open Prog
open Totals (Account Bytes ifTorrent)
open Torrents (Start)

variable {α β : Type} [DecidableEq α]

/-- A command that has been answered with `IPC_OK`; the one that starts all torrents counts
for each torrent that it has started. -/
inductive Command (α : Type)
  | start (hash : α)
  | stop (hash : α)
  | stopAll
  | del (hash : α)
  deriving DecidableEq, Repr

/-- The commands that have to do with an info hash. -/
def Command.affects (hash : α) : Command α → Bool
  | .start hash' | .stop hash' | .del hash' => decide (hash' = hash)
  | .stopAll => true

/-- The daemon: its accounts, the file `active`, and the commands, the newest one last. -/
structure Office (α : Type) where
  account : α → Account
  active : List α
  mShutdown : Bool
  told : List (Command α)

/-- The ways in which the code stops. -/
inductive Fault
  | account (fault : Totals.Fault)
  | memory (fault : Benc.Fault)
  /-- A torrent could not be started in `cmd_start_all`. -/
  | startAll
  deriving DecidableEq, Repr

/-- A routine of the daemon. -/
abbrev Routine (α : Type) := Prog (Office α) Empty Fault

/-- The account of an info hash is another one. -/
def Office.put (o : Office α) (hash : α) (s : Account) : Office α :=
  { o with account := Function.update o.account hash s }

/-- Run a routine of the library and the torrents for an info hash. -/
def forHash (hash : α) (m : Totals.Routine β) : Routine α β :=
  zoom (fun o => o.account hash) (fun o s => o.put hash s) .account (unrecorded m)

/-- Write `IPC_OK` to the client. -/
def tell (c : Command α) : Routine α Unit := modify fun o => { o with told := o.told ++ [c] }

/-- `active_add` -/
def add (hash : α) : Routine α Unit :=
  modify fun o => { o with active := activeAdd o.active hash }

/-- `active_del` -/
def del (hash : α) : Routine α Unit := do
  let o ← get
  match activeDel o.active hash with
  | .ok file => modify fun o => { o with active := file }
  | .error fault => Prog.fault (.memory fault)

/-- `active_clear` -/
def activeClear : Routine α Unit := modify fun o => { o with active := [] }

/-! ## Commands

`tlib_by_num` and `tlib_by_hash` find the entry of an info hash, if there is one. -/

/-- Run a routine when the lookup finds an entry. -/
def ifFound (hash : α) (m : Routine α Unit) : Routine α Unit := do
  let o ← get
  when ((o.account hash).tl.isSome = true) m

/-- `cmd_add` -/
def cmdAdd (hash : α) : Routine α Unit := forHash hash Totals.cmdAdd

/-- `cmd_del` -/
def cmdDel (hash : α) (trStays closes : Bool) : Routine α Unit := ifFound hash do
  let haunting ← forHash hash Totals.torrentHaunting
  when (haunting = false) do
    tell (.del hash)
    forHash hash (Totals.cmdDel trStays closes)

/-- What `cmd_start` does when the torrent can be started. -/
def tlStart (hash : α) (st : Start) : Routine α Bool := do
  let started ← forHash hash (Totals.torrentStart st)
  when (started = true) do
    add hash
    tell (.start hash)
  pure started

/-- `cmd_start` -/
def cmdStart (hash : α) (st : Start) : Routine α Unit := do
  let o ← get
  when (o.mShutdown = false) (ifFound hash do
    let haunting ← forHash hash Totals.torrentHaunting
    let startable ← forHash hash Totals.torrentStartable
    when (haunting = false ∧ startable = true) do
      let _ ← tlStart hash st)

/-- `cmd_start_all`, which goes through the entries in the order of the table. -/
def cmdStartAll (entries : List (α × Start)) : Routine α Unit := do
  let o ← get
  when (o.mShutdown = false) (forEach entries fun (hash, st) => ifFound hash do
    let startable ← forHash hash Totals.torrentStartable
    when (startable = true) do
      let started ← tlStart hash st
      assert (started = true) .startAll)

/-- `cmd_stop`, which answers before it stops the torrent. -/
def cmdStop (hash : α) (trStays closes : Bool) : Routine α Unit := ifFound hash do
  let haunting ← forHash hash Totals.torrentHaunting
  let active ← forHash hash Totals.torrentActive
  when (haunting = false ∧ active = true) do
    tell (.stop hash)
    del hash
    forHash hash (ifTorrent fun _ => Totals.torrentStop false trStays closes)

/-- A torrent that is stopped with all others, and how `torrent_stop` goes. -/
structure Stop (α : Type) where
  hash : α
  trStays : Bool
  closes : Bool

/-- The loop of `cmd_stop_all` and `btpd_shutdown`. -/
def stopAll (stops : List (Stop α)) : Routine α Unit :=
  forEach stops fun x =>
    forHash x.hash (ifTorrent fun _ => Totals.torrentStop false x.trStays x.closes)

/-- `cmd_stop_all` -/
def cmdStopAll (stops : List (Stop α)) : Routine α Unit := do
  tell .stopAll
  activeClear
  stopAll stops

/-- `btpd_shutdown` -/
def btpdShutdown (stops : List (Stop α)) : Routine α Unit := do
  modify fun o => { o with mShutdown := true }
  stopAll stops

/-! ## Events -/

/-- What can happen: a command, the end of the daemon, and for a torrent a tick, a save that
is due, bytes that are moved, and news of its content and its trackers. -/
inductive Event (α : Type)
  | add (hash : α)
  | del (hash : α) (trStays closes : Bool)
  | start (hash : α) (st : Start)
  | startAll (entries : List (α × Start))
  | stop (hash : α) (trStays closes : Bool)
  | stopAll (stops : List (Stop α))
  | die (stops : List (Stop α))
  | tick (hash : α) (k : Totals.Tick)
  | save (hash : α)
  | transfer (hash : α) (b : Bytes)
  | cmStarted (hash : α)
  | cmError (hash : α)
  | trDone (hash : α)

/-- What the daemon does on an event. -/
def handle : Event α → Routine α Unit
  | .add hash => cmdAdd hash
  | .del hash trStays closes => cmdDel hash trStays closes
  | .start hash st => cmdStart hash st
  | .startAll entries => cmdStartAll entries
  | .stop hash trStays closes => cmdStop hash trStays closes
  | .stopAll stops => cmdStopAll stops
  | .die stops => do
      let o ← get
      when (o.mShutdown = false) (btpdShutdown stops)
  | .tick hash k => forHash hash (Totals.handle (.tick k))
  | .save hash => forHash hash (Totals.handle .save)
  | .transfer hash b => forHash hash (Totals.handle (.transfer b))
  | .cmStarted hash => forHash hash (Totals.handle .cmStarted)
  | .cmError hash => forHash hash (Totals.handle .cmError)
  | .trDone hash => forHash hash (Totals.handle .trDone)

/-- The torrent of the account has been started and not been stopped, and its content has not
failed. -/
def Live (s : Account) : Prop :=
  ∃ tot dir t, s.tl = some ⟨tot, true, dir⟩ ∧ s.tp = some t ∧ t.Works ∧ t.error = false

/-- The daemon has started the torrents that the file names. -/
structure Office.Init (o : Office α) : Prop where
  nodup : o.active.Nodup
  told : o.told = o.active.map .start
  live : ∀ hash ∈ o.active, Live (o.account hash)
  others : ∀ hash, hash ∉ o.active → (o.account hash).tp = none
  running : o.mShutdown = false

/-- The daemon. -/
def office : System (Office α) Empty Fault (Event α) := ⟨Office.Init, handle⟩

/-- The file operations for the content work. -/
def Event.Works : Event α → Prop
  | .start _ st => st.cm.isSome = true
  | .startAll entries => ∀ x ∈ entries, x.2.cm.isSome = true
  | .cmError _ => False
  | _ => True

/-- A command deletes a torrent that the file names. -/
def Event.DeletesActive (o : Office α) : Event α → Prop
  | .del hash _ _ => hash ∈ o.active ∧ ∃ e, (o.account hash).tl = some e ∧
      (o.account hash).haunting e = false
  | _ => False

/-- The last command that has to do with an info hash. -/
def Office.lastAbout (o : Office α) (hash : α) : Option (Command α) :=
  o.told.reverse.find? fun c => c.affects hash

/-- The file names the torrents of which the last command was to start them, each once. -/
def Office.Faithful (o : Office α) : Prop :=
  ∀ hash, (hash ∈ o.active ↔ o.lastAbout hash = some (.start hash)) ∧ o.active.count hash ≤ 1

end Btpd.Active
