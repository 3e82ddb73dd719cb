import Btpd.Torrents.State

/-!
# The commands and the heartbeat

The routines of `tlib.c`, `torrent.c`, `cli_if.c` and `btpd.c` that create, start,
stop and delete torrents.  What the content layer and the trackers come to is left
open: each event names it.
-/

namespace Btpd.Torrents

open Prog

/-! ## Pointers -/

/-- Follow a pointer to a torrent. -/
def torrent (tp : Nat) : Routine Torrent := do
  let d ← get
  assert (tp ∈ d.tps) .torrentFreed
  pure (d.torrent tp)

/-- Follow a pointer to an entry. -/
def entry (tl : Nat) : Routine Tlib := do
  let d ← get
  assert (tl ∈ d.tls) .entryFreed
  pure (d.tlib tl)

/-- Change a torrent. -/
def setTorrent (tp : Nat) (f : Torrent → Torrent) : Routine Unit := do
  let t ← torrent tp
  modify fun d => { d with torrent := Function.update d.torrent tp (f t) }

/-- Change an entry. -/
def setTlib (tl : Nat) (f : Tlib → Tlib) : Routine Unit := do
  let e ← entry tl
  modify fun d => { d with tlib := Function.update d.tlib tl (f e) }

/-! ## The library -/

/-- `tlib_by_num` -/
def Daemon.tlibByNum (d : Daemon) (num : Nat) : Option Nat :=
  d.numtbl.find? fun tl => decide ((d.tlib tl).num = num)

/-- `tlib_by_hash` -/
def Daemon.tlibByHash (d : Daemon) (hash : Hash) : Option Nat :=
  d.hashtbl.find? fun tl => decide ((d.tlib tl).hash = hash)

/-- `tlib_kill` -/
def tlibKill (tl : Nat) : Routine Unit := do
  let e ← entry tl
  modify fun d => { d with
    numtbl := d.numtbl.eraseP fun tl => decide ((d.tlib tl).num = e.num)
    hashtbl := d.hashtbl.eraseP fun tl => decide ((d.tlib tl).hash = e.hash)
    tls := d.tls.erase tl }

/-- `tlib_create`, with the directory that `tlib_add` sets. -/
def tlibCreate (hash : Hash) : Routine Nat :=
  call .tlibCreate do
    let d ← get
    modify fun d => { d with
      tlib := Function.update d.tlib d.nextTl ⟨d.mNextnum, hash, none, true⟩
      tls := d.nextTl :: d.tls
      numtbl := d.nextTl :: d.numtbl
      hashtbl := d.nextTl :: d.hashtbl
      mNextnum := (d.mNextnum + 1) % 2 ^ 32
      nextTl := d.nextTl + 1 }
    pure d.nextTl

/-- `tlib_del` -/
def tlibDel (tl : Nat) : Routine Unit := do
  let e ← entry tl
  match e.tp with
  | none => do
      modify fun d => { d with dirs := d.dirs.erase e.hash }
      tlibKill tl
  | some tp => do
      let t ← torrent tp
      assert (t.state = .ghost) .notGhost
      modify fun d => { d with dirs := d.dirs.erase e.hash }

/-- `save_info` -/
def saveInfo (tl : Nat) : Routine Unit := do
  let e ← entry tl
  let d ← get
  assert (e.hash ∈ d.dirs) .dirMissing

/-- `tlib_update_info` -/
def tlibUpdateInfo (tl : Nat) : Routine Unit := do
  let e ← entry tl
  match e.tp with
  | none => fault .nullDeref
  | some tp => do
      let _ ← torrent tp
      saveInfo tl

/-- `tlib_add` -/
def tlibAdd (hash : Hash) : Routine Nat := do
  let tl ← tlibCreate hash
  let d ← get
  assert (hash ∉ d.dirs) .dirExists
  modify fun d => { d with dirs := hash :: d.dirs }
  saveInfo tl
  pure tl

/-- `tlib_readd` -/
def tlibReadd (tl : Nat) (hash : Hash) : Routine Unit :=
  call .tlibReadd do
    let e ← entry tl
    match e.tp with
    | none => fault .nullDeref
    | some tp => do
        setTorrent tp fun t => { t with delete := false }
        tlibKill tl
        let tln ← tlibAdd hash
        setTlib tln fun e => { e with tp := some tp }

/-! ## Torrents -/

/-- `SAVE_INTERVAL` -/
def saveInterval : Nat := 300

/-- `BTPDQ_NEXT` -/
def next (tp : Nat) : List Nat → Option Nat
  | [] => none
  | tp' :: tps => if tp' = tp then tps.head? else next tp tps

/-- The torrent that `m_savetp` moves on to. -/
def savetpAfter (mTorrents : List Nat) : Option Nat → Option Nat
  | none => mTorrents.head?
  | some tp => some tp

/-- What `torrent_kill` does to the entry of the torrent. -/
def killEntry (t : Torrent) : Routine Unit :=
  if t.delete then tlibKill t.tl else setTlib t.tl fun e => { e with tp := none }

/-- `torrent_kill` -/
def torrentKill (tp : Nat) : Routine Unit := do
  let t ← torrent tp
  let d ← get
  assert (0 < d.mNtorrents) .ntorrents
  assert (¬(t.netActive = true ∨ t.cm ≠ .inactive)) .stillActive
  when (t.state = .ghost) (modify fun d => { d with mNghosts := d.mNghosts - 1 })
  modify fun d => { d with mNtorrents := d.mNtorrents - 1 }
  assert (tp ∈ d.mTorrents) .unlinked
  modify fun d => { d with mTorrents := d.mTorrents.erase tp }
  killEntry t
  when (d.mSavetp = some tp)
    (modify fun d' => { d' with mSavetp := savetpAfter d'.mTorrents (next tp d.mTorrents) })
  modify fun d => { d with tps := d.tps.erase tp }

/-- `torrent_startable` -/
def torrentStartable (tl : Nat) : Routine Bool := do
  let e ← entry tl
  match e.tp with
  | none => pure true
  | some tp => do
      let t ← torrent tp
      pure (decide (t.state = .ghost ∧ t.delete = false))

/-- `torrent_haunting` -/
def torrentHaunting (tl : Nat) : Routine Bool := do
  let e ← entry tl
  match e.tp with
  | none => pure false
  | some tp => do
      let t ← torrent tp
      pure (decide (t.delete = true ∧ t.state = .ghost))

/-- `torrent_active` -/
def torrentActive (tl : Nat) : Routine Bool := do
  let e ← entry tl
  match e.tp with
  | none => pure false
  | some tp => do
      let t ← torrent tp
      pure (decide (t.state ≠ .ghost))

/-- How a start goes on: whether `tlib_load_mi` finds the metainfo, and the state of
the content after `cm_start`, or that it has failed. -/
structure Start where
  loads : Bool
  cm : Option CmState

/-- A new torrent of an entry. -/
def torrentCreate (tl : Nat) (s : Start) : Routine Unit := do
  let d ← get
  let tp := d.nextTp
  modify fun d => { d with
    torrent := Function.update d.torrent tp
      ⟨tl, .starting, false, s.cm.getD .inactive, s.cm.isNone, false, false⟩
    tps := tp :: d.tps
    nextTp := tp + 1 }
  setTlib tl fun e => { e with tp := some tp }
  modify fun d => { d with
    mTorrents := d.mTorrents ++ [tp], mNtorrents := d.mNtorrents + 1 }
  let d ← get
  when (d.mNtorrents = 1)
    (modify fun d => { d with mTsave := d.btpdSeconds + saveInterval, mSavetp := some tp })

/-- The start of `torrent_start`, which kills the ghost of the entry. -/
def ghostKill (tl : Nat) : Routine Unit := do
  let e ← entry tl
  match e.tp with
  | none => pure ()
  | some tp => do
      let startable ← torrentStartable tl
      assert (startable = true) .notStartable
      torrentKill tp
      setTlib tl fun e => { e with tp := none }

/-- `torrent_start`, which gives back whether it has started the torrent. -/
def torrentStart (tl : Nat) (s : Start) : Routine Bool := do
  ghostKill tl
  let e ← entry tl
  if e.dir = true ∧ s.loads = true then do
    torrentCreate tl s
    pure true
  else pure false

/-- What `become_ghost` does to the entry of the torrent. -/
def ghostEntry (t : Torrent) : Routine Unit :=
  if t.delete then tlibDel t.tl else tlibUpdateInfo t.tl

/-- `become_ghost` -/
def becomeGhost (tp : Nat) : Routine Unit := do
  setTorrent tp fun t => { t with state := .ghost }
  let t ← torrent tp
  ghostEntry t
  modify fun d => { d with mNghosts := d.mNghosts + 1 }

/-- `net_stop`, `tr_stop` and `cm_stop` in `torrent_stop`: `trStays` tells whether a
tracker is told that the torrent stops, and `closes` whether the streams close
without an error. -/
def Torrent.stopped (t : Torrent) (trStays closes : Bool) : Torrent :=
  { t with
    netActive := false
    trActive := t.trActive && trStays
    cm := .inactive
    error := t.error || (decide (t.cm ≠ .inactive) && !closes) }

/-- `torrent_stop` -/
def torrentStop (tp : Nat) (delete trStays closes : Bool) : Routine Unit :=
  call (.torrentStop tp delete) do
    when (delete = true) (setTorrent tp fun t => { t with delete := true })
    let t ← torrent tp
    when (t.state = .leech ∨ t.state = .seed ∨ t.state = .starting) do
      setTorrent tp fun t => { t with state := .stopping }
      setTorrent tp fun t => t.stopped trStays closes
      let t ← torrent tp
      when (t.cm = .inactive) do
        becomeGhost tp
        let t ← torrent tp
        when (t.trActive = false) (torrentKill tp)

/-- What a tick brings for each torrent: whether all its pieces are there, whether it
has trackers, and how `torrent_stop` would go. -/
structure Tick where
  full : Nat → Bool
  trStarts : Nat → Bool
  trStays : Nat → Bool
  closes : Nat → Bool

/-- What `torrent_on_tick` does with a ghost. -/
def ghostOnTick (tp : Nat) : Routine Unit := do
  let t ← torrent tp
  when (t.trActive = false) (torrentKill tp)

/-- The end of `torrent_on_tick`, which goes by the state of the torrent. -/
def stateOnTick (k : Tick) (tp : Nat) : Routine Unit := do
  let t ← torrent tp
  match t.state with
  | .starting =>
      when (t.cm = .active) (setTorrent tp fun t =>
        { t with
          state := if k.full tp then .seed else .leech
          netActive := true
          trActive := k.trStarts tp })
  | .leech => when (k.full tp = true) (setTorrent tp fun t => { t with state := .seed })
  | .stopping => when (t.cm = .inactive) do
      becomeGhost tp
      ghostOnTick tp
  | .ghost => ghostOnTick tp
  | .seed => pure ()

/-- `torrent_on_tick` -/
def torrentOnTick (k : Tick) (tp : Nat) : Routine Unit :=
  call (.torrentOnTick tp (k.trStays tp)) do
    let t ← torrent tp
    when (t.state ≠ .stopping ∧ t.error = true)
      (torrentStop tp false (k.trStays tp) (k.closes tp))
    stateOnTick k tp

/-- The end of `torrent_on_tick_all`, which saves one torrent. -/
def saveOnTick : Routine Unit := do
  let d ← get
  forEach d.mSavetp.toList fun tp => when (d.mTsave ≤ d.btpdSeconds) do
    let t ← torrent tp
    when (t.state = .leech ∨ t.state = .seed) do
      tlibUpdateInfo t.tl
      modify fun d => { d with mSavetp := savetpAfter d.mTorrents (next tp d.mTorrents) }
      let d ← get
      when (0 < d.mNtorrents) (modify fun d => { d with
        mTsave := d.btpdSeconds + max d.mNtorrents saveInterval / d.mNtorrents })

/-- `torrent_on_tick_all` -/
def torrentOnTickAll (k : Tick) : Routine Unit := do
  let d ← get
  forEach d.mTorrents (torrentOnTick k)
  saveOnTick

/-! ## The end of the daemon -/

/-- `death_procedure` -/
def deathProcedure : Routine Unit := do
  let d ← get
  when (d.mNtorrents = 0) (modify fun d => { d with exited := true })
  when (d.mNtorrents ≠ 0 ∧ d.mGhost = false ∧ d.mNtorrents = d.mNghosts)
    (modify fun d => { d with mGhost := true })

/-- The loop of `btpd_shutdown` and of `cmd_stop_all`. -/
def stopAll (k : Tick) : Routine Unit := do
  let d ← get
  forEach d.mTorrents fun tp => torrentStop tp false (k.trStays tp) (k.closes tp)

/-- `btpd_shutdown` -/
def btpdShutdown (k : Tick) : Routine Unit := do
  modify fun d => { d with mShutdown := true }
  stopAll k
  deathProcedure

/-- `heartbeat_cb` -/
def heartbeat (k : Tick) : Routine Unit := do
  modify fun d => { d with btpdSeconds := d.btpdSeconds + 1 }
  torrentOnTickAll k
  let d ← get
  when (d.mSignal = true) do
    modify fun d => { d with mSignal := false }
    when (d.mShutdown = false) (btpdShutdown k)
  let d ← get
  when (d.mShutdown = true) deathProcedure

/-! ## Commands -/

/-- A command names a torrent by its number or by its hash. -/
inductive Key
  | num (num : Nat)
  | hash (hash : Hash)

/-- The lookup of the commands. -/
def Daemon.find (d : Daemon) : Key → Option Nat
  | .num num => d.tlibByNum num
  | .hash hash => d.tlibByHash hash

/-- `cmd_add` with a metainfo and a directory that are right. -/
def cmdAdd (hash : Hash) : Routine Unit := do
  let d ← get
  match d.tlibByHash hash with
  | none => do
      let _ ← tlibAdd hash
  | some tl => do
      let haunting ← torrentHaunting tl
      when (haunting = true) (tlibReadd tl hash)

/-- What `cmd_del` does with an entry. -/
def tlDel (tl : Nat) (trStays closes : Bool) : Routine Unit := do
  let haunting ← torrentHaunting tl
  when (haunting = false) do
    let e ← entry tl
    match e.tp with
    | some tp => torrentStop tp true trStays closes
    | none => tlibDel tl

/-- `cmd_del` -/
def cmdDel (key : Key) (trStays closes : Bool) : Routine Unit := do
  let d ← get
  forEach (d.find key).toList fun tl => tlDel tl trStays closes

/-- What `cmd_start` does with an entry. -/
def tlStart (tl : Nat) (s : Start) : Routine Unit := do
  let startable ← torrentStartable tl
  when (startable = true) do
    let _ ← torrentStart tl s

/-- `cmd_start` -/
def cmdStart (key : Key) (s : Start) : Routine Unit := do
  let d ← get
  when (d.mShutdown = false) (forEach (d.find key).toList fun tl => tlStart tl s)

/-- `cmd_start_all` -/
def cmdStartAll (s : Nat → Start) : Routine Unit := do
  let d ← get
  when (d.mShutdown = false) (forEach d.numtbl fun tl => do
    let startable ← torrentStartable tl
    when (startable = true) do
      let started ← torrentStart tl (s tl)
      assert (started = true) .startAll)

/-- What `cmd_stop` does with an entry. -/
def tlStop (tl : Nat) (trStays closes : Bool) : Routine Unit := do
  let haunting ← torrentHaunting tl
  let active ← torrentActive tl
  when (haunting = false ∧ active = true) do
    let e ← entry tl
    match e.tp with
    | some tp => torrentStop tp false trStays closes
    | none => fault .nullDeref

/-- `cmd_stop` -/
def cmdStop (key : Key) (trStays closes : Bool) : Routine Unit := do
  let d ← get
  forEach (d.find key).toList fun tl => tlStop tl trStays closes

/-! ## Events -/

/-- What can happen to the daemon. -/
inductive Event
  | add (hash : Hash)
  | del (key : Key) (trStays closes : Bool)
  | start (key : Key) (s : Start)
  | startAll (s : Nat → Start)
  | stop (key : Key) (trStays closes : Bool)
  | stopAll (k : Tick)
  /-- The command to exit. -/
  | die (k : Tick)
  /-- The daemon gets a signal to exit. -/
  | signal
  | heartbeat (k : Tick)
  /-- The content of a torrent has been tested. -/
  | cmStarted (tp : Nat)
  /-- The content of a torrent fails. -/
  | cmError (tp : Nat)
  /-- The last tracker of a torrent has been told that it stops, or has failed. -/
  | trDone (tp : Nat)

/-- What the daemon does on an event. -/
def handleEvent : Event → Routine Unit
  | .add hash => cmdAdd hash
  | .del key trStays closes => cmdDel key trStays closes
  | .start key s => cmdStart key s
  | .startAll s => cmdStartAll s
  | .stop key trStays closes => cmdStop key trStays closes
  | .stopAll k => stopAll k
  | .die k => do
      let d ← get
      when (d.mShutdown = false) (btpdShutdown k)
  | .signal => modify fun d => { d with mSignal := true }
  | .heartbeat k => heartbeat k
  | .cmStarted tp => do
      let d ← get
      when (tp ∈ d.tps ∧ (d.torrent tp).cm = .starting)
        (setTorrent tp fun t => { t with cm := .active })
  | .cmError tp => do
      let d ← get
      when (tp ∈ d.tps ∧ (d.torrent tp).cm ≠ .inactive)
        (setTorrent tp fun t => { t with cm := .inactive, error := true })
  | .trDone tp => do
      let d ← get
      when (tp ∈ d.tps) (setTorrent tp fun t => { t with trActive := false })

/-- What the daemon does on an event until it has exited. -/
def handle (e : Event) : Routine Unit := do
  let d ← get
  when (d.exited = false) (handleEvent e)

/-- `tlib_init` makes an entry for each directory, of which some have an info file
that can be read. -/
def tlibInit (dirs : List Hash) (loads : Nat → Bool) : Daemon where
  tlib i := ⟨i, dirs.getD i [], none, loads i⟩
  tls := List.range dirs.length
  numtbl := List.range dirs.length
  hashtbl := List.range dirs.length
  mNextnum := dirs.length
  nextTl := dirs.length
  torrent _ := ⟨0, .ghost, false, .inactive, false, false, false⟩
  tps := []
  mTorrents := []
  mNtorrents := 0
  mNghosts := 0
  mSavetp := none
  mTsave := 0
  nextTp := 0
  dirs := dirs
  btpdSeconds := 0
  mSignal := false
  mShutdown := false
  mGhost := false
  exited := false

/-- The daemon, from its start with the directories that it finds. -/
def system : System Daemon Fn Fault Event where
  start d := ∃ dirs loads, dirs.Nodup ∧ dirs.length < 2 ^ 32 ∧ d = tlibInit dirs loads
  handle := handle

end Btpd.Torrents
