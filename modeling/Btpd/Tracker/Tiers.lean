import Btpd.Library.Program
import Btpd.Metainfo.Extract
import Mathlib

/-!
# The tracker tiers of a torrent

`tracker_req.c`, and of `http_tr_if.c` the requests and what their callbacks report, for
the tiers of one torrent from `tr_create` to `tr_kill`.  The requests of the other torrents
and their clock are part of the events.
-/

namespace Btpd.Tracker

open Prog

/-- `enum tr_event` -/
inductive TrEvent
  | started
  | stopped
  | completed
  | empty
  deriving DecidableEq, Repr

/-- The type of `struct tr_response`. -/
inductive TrRes
  | fail
  | conn
  | bad
  | ok
  deriving DecidableEq, Repr

/-- `struct tr_response` -/
structure TrResponse where
  type : TrRes
  miFailure : List UInt8
  interval : Int

/-- `struct tr_tier`.  An entry is named by its address; `trackers` is the list of the
entries, `failure` the failure of each.  `timer` is the time in seconds after which the
timer was set to fire, if it is pending. -/
structure Tier where
  cur : Option Nat
  trackers : List Nat
  failure : Nat → Option (List UInt8)
  timer : Option Int
  req : Option Nat
  interval : Int
  badConns : Nat
  active : Bool
  hasResponded : Bool
  event : TrEvent

/-- `struct httptr_req`: the tier it reports to, its event, the bytes it has got, and
whether it is connected. -/
structure HttptrReq (n : Nat) where
  tier : Fin n
  event : TrEvent
  off : Nat
  connected : Bool

/-- The tiers of a torrent, the requests that have not been freed, named by numbers that
are never used again, the variables of `tracker_req.c`, and `btpd_seconds`.  `starting`
says that the torrent is in `T_STARTING`, and `killed` that `tr_kill` was called. -/
structure Trackers (n : Nat) where
  tiers : Fin n → Tier
  reqs : Nat → Option (HttptrReq n)
  nextReq : Nat
  mTlastReq : Int
  mTnextReq : Int
  btpdSeconds : Int
  starting : Bool
  killed : Bool

/-- What must not happen: `first_nonfailed` aborts, an assertion fails, the null pointer
`cur` is followed, or a request is freed again. -/
inductive Fault
  | abort
  | timerAssert
  | startAssert
  | nullCur
  | freedReq
  deriving DecidableEq, Repr

variable {n : Nat}

/-- A routine; no calls are recorded. -/
abbrev Routine (n : Nat) := Prog (Trackers n) Empty Fault

/-- Change a tier. -/
def Trackers.setTier (s : Trackers n) (i : Fin n) (f : Tier → Tier) : Trackers n :=
  { s with tiers := Function.update s.tiers i (f (s.tiers i)) }

/-- Change a tier. -/
def setTier (i : Fin n) (f : Tier → Tier) : Routine n Unit := modify fun s => s.setTier i f

/-- Read a tier. -/
def getTier (i : Fin n) : Routine n Tier := do
  let s ← get
  pure (s.tiers i)

/-! ## Requests -/

/-- `httptr_free` -/
def httptrFree (id : Nat) : Routine n Unit := do
  let s ← get
  assert ((s.reqs id).isSome = true) .freedReq
  modify fun s => { s with reqs := Function.update s.reqs id none }

/-- `httptr_cancel` -/
def httptrCancel (id : Nat) : Routine n Unit := httptrFree id

/-- `httptr_req`, which gives the new request. -/
def httptrReq (i : Fin n) (event : TrEvent) : Routine n Nat := do
  let s ← get
  modify fun s => { s with
    reqs := Function.update s.reqs s.nextReq (some ⟨i, event, 0, false⟩)
    nextReq := s.nextReq + 1 }
  pure s.nextReq

/-- `req_send`, where `cur` is followed. -/
def reqSend (i : Fin n) : Routine n Nat := do
  let t ← getTier i
  assert (t.cur.isSome = true) .nullCur
  httptrReq i t.event

/-- `req_cancel`, where `cur` is followed. -/
def reqCancel (i : Fin n) (id : Nat) : Routine n Unit := do
  let t ← getTier i
  assert (t.cur.isSome = true) .nullCur
  httptrCancel id
  setTier i fun t => { t with req := none }

/-- Cancel the request that is outstanding. -/
def cancelReq (i : Fin n) : Routine n Unit := do
  let t ← getTier i
  match t.req with
  | none => pure ()
  | some id => reqCancel i id

/-! ## Tiers -/

/-- The entry has not failed. -/
def Tier.nonfailed (t : Tier) (e : Nat) : Bool := (t.failure e).isNone

/-- `first_nonfailed` -/
def firstNonfailed (t : Tier) : Routine n Nat :=
  match t.trackers.find? t.nonfailed with
  | some e => pure e
  | none => fault .abort

/-- `all_failed` -/
def Tier.allFailed (t : Tier) : Bool := t.trackers.all fun e => (t.failure e).isSome

/-- `REQ_DELAY` -/
def reqDelay : Int := 1

/-- `entry_send`, where `e` is null if there is no entry. -/
def entrySend (i : Fin n) (e : Option Nat) (event : TrEvent) : Routine n Unit := do
  cancelReq i
  setTier i fun t => { t with event := event, cur := e }
  let s ← get
  if s.btpdSeconds - reqDelay < s.mTlastReq then do
    modify fun s => { s with mTnextReq := max s.mTnextReq s.mTlastReq + reqDelay }
    let s ← get
    setTier i fun t => { t with timer := some (s.mTnextReq - s.btpdSeconds) }
  else do
    setTier i fun t => { t with timer := none }
    let id ← reqSend i
    setTier i fun t => { t with req := some id }
    modify fun s => { s with mTlastReq := s.btpdSeconds }

/-- `tier_timer_cb` -/
def tierTimerCb (i : Fin n) : Routine n Unit := do
  let t ← getTier i
  assert (t.active = true ∧ t.allFailed = false) .timerAssert
  let e ← firstNonfailed t
  entrySend i (some e) t.event

/-- `tier_start` -/
def tierStart (i : Fin n) : Routine n Unit := do
  let t ← getTier i
  assert (t.active = false ∨ t.event = .stopped) .startAssert
  setTier i fun t => { t with
    failure := fun _ => none
    hasResponded := false
    badConns := 0
    active := true }
  entrySend i t.trackers.head? .started

/-- The tier is given up in `tier_stop`. -/
def giveUp (i : Fin n) : Routine n Unit := do
  setTier i fun t => { t with timer := none }
  cancelReq i
  setTier i fun t => { t with active := false }

/-- `tier_stop` -/
def tierStop (i : Fin n) : Routine n Unit := do
  let t ← getTier i
  if t.active = false ∨ t.event = .stopped then pure ()
  else if t.hasResponded = false ∧ 1 < t.badConns then giveUp i
  else do
    let e ← firstNonfailed t
    entrySend i (some e) .stopped

/-- `tier_complete` -/
def tierComplete (i : Fin n) : Routine n Unit := do
  let t ← getTier i
  when (t.active = true ∧ t.event = .empty) (entrySend i t.trackers.head? .completed)

/-- `tier_kill` -/
def tierKill (i : Fin n) : Routine n Unit := do
  setTier i fun t => { t with timer := none }
  cancelReq i

/-- `tr_start` -/
def trStart : Routine n Unit := forEach (List.finRange n) tierStart

/-- `tr_kill` -/
def trKill : Routine n Unit := do
  forEach (List.finRange n) tierKill
  modify fun s => { s with killed := true }

/-- `RETRY1_TIMEOUT` -/
def retry1Timeout (random : Nat) : Int := 240 + Metainfo.randBetween 0 120 random

/-- `RETRY2_TIMEOUT` -/
def retry2Timeout (random : Nat) : Int := 900 + Metainfo.randBetween 0 300 random

/-- `DEFAULT_INTERVAL` -/
def defaultInterval (random : Nat) : Int := Metainfo.randBetween (25 * 60) (30 * 60) random

/-- The first entry behind `e` in the list that has not failed. -/
def Tier.nextNonfailed (t : Tier) (e : Nat) : Option Nat :=
  ((t.trackers.dropWhile (· != e)).drop 1).find? t.nonfailed

/-- No other entry is left in the branch `TR_RES_CONN` of `tr_result`. -/
def outOfEntries (i : Fin n) (random : Nat) : Routine n Unit := do
  setTier i fun t => { t with badConns := t.badConns + 1 }
  let t ← getTier i
  if t.event = .stopped ∧ 1 < t.badConns then setTier i fun t => { t with active := false }
  else if t.badConns = 1 then entrySend i t.trackers.head? t.event
  else if t.badConns = 2 then setTier i fun t => { t with timer := some (retry1Timeout random) }
  else setTier i fun t => { t with timer := some (retry2Timeout random) }

/-- The branch `TR_RES_CONN` of `tr_result`. -/
def resConn (i : Fin n) (cur random : Nat) : Routine n Unit := do
  let t ← getTier i
  match t.nextNonfailed cur with
  | some e => entrySend i (some e) t.event
  | none => outOfEntries i random

/-- The branch `TR_RES_FAIL` of `tr_result`, which goes on with the next one unless all
entries have failed. -/
def resFail (i : Fin n) (cur : Nat) (res : TrResponse) (random : Nat) : Routine n Unit := do
  setTier i fun t => { t with failure := Function.update t.failure cur (some res.miFailure) }
  let t ← getTier i
  if t.allFailed = true then setTier i fun t => { t with active := false }
  else resConn i cur random

/-- A tier that is not stopping waits for the next request, for the interval of the tracker
if it has given one. -/
def Tier.wait (t : Tier) (res : TrResponse) (random : Nat) : Tier :=
  let interval := if 0 < res.interval then res.interval else t.interval
  { t with
    event := .empty
    interval := interval
    timer := some (if 0 < interval then interval else defaultInterval random) }

/-- The branches `TR_RES_BAD` and `TR_RES_OK` of `tr_result`. -/
def resOk (i : Fin n) (cur : Nat) (res : TrResponse) (random : Nat) : Routine n Unit := do
  setTier i fun t => if t.event = .stopped then { t with active := false } else t.wait res random
  setTier i fun t => { t with
    badConns := 0
    hasResponded := true
    trackers := cur :: t.trackers.erase cur }

/-- `tr_result` -/
def trResult (i : Fin n) (res : TrResponse) (random : Nat) : Routine n Unit := do
  setTier i fun t => { t with req := none }
  let t ← getTier i
  match t.cur with
  | none => fault .nullCur
  | some cur =>
      match res.type with
      | .fail => resFail i cur res random
      | .conn => resConn i cur random
      | .bad => resOk i cur res random
      | .ok => resOk i cur res random

/-! ## The callbacks of a request -/

/-- `MAX_DOWNLOAD` -/
def maxDownload : Nat := 2 ^ 18

/-- What the HTTP client reports; `parse_reply` makes a response of a complete reply. -/
inductive HttpRes
  | err
  | data (length : Nat)
  | done (reply : TrResponse)

/-- A response without data. -/
def TrResponse.plain (type : TrRes) : TrResponse := ⟨type, [], -1⟩

/-- Data from the tracker in `http_cb`. -/
def httpData (id : Nat) (treq : HttptrReq n) (length random : Nat) : Routine n Unit :=
  if maxDownload < treq.off + length then do
    trResult treq.tier (.plain .bad) random
    httptrCancel id
  else modify fun s => { s with
    reqs := Function.update s.reqs id (some { treq with off := treq.off + length }) }

/-- `http_cb` -/
def httpCb (id : Nat) (treq : HttptrReq n) (res : HttpRes) (random : Nat) : Routine n Unit :=
  match res with
  | .err => do
      trResult treq.tier (.plain .bad) random
      httptrFree id
  | .data length => httpData id treq length random
  | .done reply => do
      trResult treq.tier (if treq.event = .stopped then .plain .ok else reply) random
      httptrFree id

/-- `httptr_io_cb` when the time is over. -/
def httptrTimeout (id : Nat) (treq : HttptrReq n) (random : Nat) : Routine n Unit := do
  trResult treq.tier (.plain .conn) random
  httptrCancel id

/-- `httptr_nc_cb` -/
def httptrNcCb (id : Nat) (treq : HttptrReq n) (error : Bool) (random : Nat) : Routine n Unit :=
  if error = true then do
    trResult treq.tier (.plain .conn) random
    httptrFree id
  else modify fun s => { s with
    reqs := Function.update s.reqs id (some { treq with connected := true }) }

/-- What a request calls back with. -/
inductive Report
  | http (res : HttpRes)
  | timeout
  | connect (error : Bool)

/-- A request that has not been freed calls back. -/
def report (id : Nat) (treq : HttptrReq n) (random : Nat) : Report → Routine n Unit
  | .http res => httpCb id treq res random
  | .timeout => httptrTimeout id treq random
  | .connect error => httptrNcCb id treq error random

/-- What happens: a request calls back, the timer of a tier fires, the torrent leaves
`T_STARTING` and starts its trackers, a tier is stopped or told that the download is
complete, the trackers are killed, or time passes and other torrents send requests. -/
inductive Event (n : Nat)
  | report (id : Nat) (r : Report) (random : Nat)
  | timer (i : Fin n)
  | start
  | stop (i : Fin n)
  | complete (i : Fin n)
  | kill
  | others (mTlastReq mTnextReq btpdSeconds : Int)

/-- One event before `tr_kill`.  A timer that fires is not pending any more. -/
def act : Event n → Routine n Unit
  | .report id r random => do
      let s ← get
      match s.reqs id with
      | none => pure ()
      | some treq => report id treq random r
  | .timer i => do
      let s ← get
      when ((s.tiers i).timer.isSome = true) do
        setTier i fun t => { t with timer := none }
        tierTimerCb i
  | .start => do
      let s ← get
      when (s.starting = true) do
        modify fun s => { s with starting := false }
        trStart
  | .stop i => tierStop i
  | .complete i => tierComplete i
  | .kill => trKill
  | .others mTlastReq mTnextReq btpdSeconds => modify fun s => { s with
      mTlastReq := mTlastReq, mTnextReq := mTnextReq, btpdSeconds := btpdSeconds }

/-- One event; after `tr_kill` there are no tiers any more. -/
def handle (e : Event n) : Routine n Unit := do
  let s ← get
  when (s.killed = false) (act e)

/-- `tier_create`; a tier without trackers is not created. -/
structure Tier.Created (t : Tier) : Prop where
  trackers : t.trackers ≠ []
  failure : ∀ e, t.failure e = none
  cur : t.cur = none
  timer : t.timer = none
  req : t.req = none
  interval : t.interval = -1
  badConns : t.badConns = 0
  active : t.active = false
  hasResponded : t.hasResponded = false
  event : t.event = .stopped

/-- `tr_create` -/
structure Trackers.Init (s : Trackers n) : Prop where
  tiers : ∀ i, (s.tiers i).Created
  reqs : ∀ id, s.reqs id = none
  starting : s.starting = true
  killed : s.killed = false

/-- The trackers of a torrent with `n` tiers. -/
def torrentTrackers (n : Nat) : System (Trackers n) Empty Fault (Event n) := ⟨Trackers.Init, handle⟩

end Btpd.Tracker
