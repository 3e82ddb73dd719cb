import Btpd.Swarm.Lists

/-!
# What holds in every reachable state

The lists, the flags and the masks agree whatever happens.  The counts of the
references agree on the runs in which no `meta_peer` that has all the references
that 16 bits can count gets another one.
-/

namespace Btpd.Swarm

open Prog

variable {d : Daemon}

/-! ## Lists, flags and masks -/

/-- A connection is on the lists that it should be on, once. -/
structure Daemon.Linked (d : Daemon) (p : Nat) : Prop where
  detached : (d.roster.peer p).attached = false →
    d.roster.unattached.count p = 1 ∧ ∀ n, p ∉ (d.roster.net n).peers
  attached : (d.roster.peer p).attached = true →
    p ∉ d.roster.unattached ∧ ∃ n, (d.roster.peer p).n = some n ∧
      (d.roster.net n).peers.count p = 1 ∧ ∀ n' ≠ n, p ∉ (d.roster.net n').peers
  mPeerq : p ∈ d.roster.mPeerq ↔ (d.roster.peer p).attached = true ∧
    ∃ n, (d.roster.peer p).n = some n ∧ (d.roster.net n).active = true
  readq : p ∈ d.queues.readq ↔ (d.queues.sock p).onReadq = true
  asleep : (d.queues.sock p).onReadq = true → (d.queues.sock p).evRead = false
  writeq : p ∈ d.queues.writeq ↔ (d.queues.sock p).onWriteq = true
  evWrite : (d.queues.sock p).evWrite = true ↔
    (d.queues.sock p).outq ≠ [] ∧ p ∉ d.queues.writeq

/-- A connection that has been killed is on no list. -/
structure Daemon.Gone (d : Daemon) (p : Nat) : Prop where
  unattached : p ∉ d.roster.unattached
  peers : ∀ n, p ∉ (d.roster.net n).peers
  mPeerq : p ∉ d.roster.mPeerq
  readq : p ∉ d.queues.readq
  writeq : p ∉ d.queues.writeq

/-- The lists, the flags and the masks agree. -/
structure Daemon.Consistent (d : Daemon) : Prop where
  live : ∀ p ∈ d.roster.live, d.Linked p
  dead : ∀ p ∉ d.roster.live, d.Gone p
  live_nodup : d.roster.live.Nodup
  queues_nodup : d.roster.mPeerq.Nodup ∧ d.queues.readq.Nodup ∧ d.queues.writeq.Nodup
  npeers : ∀ n, (d.roster.net n).npeers = (d.roster.net n).peers.length
  netNpeers : d.roster.netNpeers = d.roster.live.length
  netMaxPeers : d.roster.netNpeers ≤ d.roster.netMaxPeers

theorem Held.consistent {counted : Prop} (held : Held counted d) : d.Consistent := by
  obtain ⟨r, w, inv⟩ := held
  have lists := inv.roster
  have queues := inv.queues
  constructor
  case live =>
    intro p mem
    constructor
    case detached =>
      intro detached
      constructor
      · exact List.count_eq_one_of_mem lists.unattached_nodup
          ((lists.mem_unattached p).mpr ⟨mem, detached⟩)
      · intro n listed
        have on := ((lists.mem_peers n p).mp listed).2.1
        rw [detached] at on
        cases on
    case attached =>
      intro attached
      obtain ⟨n, belongs⟩ := Option.isSome_iff_exists.mp (lists.attached_n p mem attached)
      constructor
      · intro listed
        rw [((lists.mem_unattached p).mp listed).2] at attached
        cases attached
      · refine ⟨n, belongs, ?_, ?_⟩
        · exact List.count_eq_one_of_mem (lists.peers_nodup n)
            ((lists.mem_peers n p).mpr ⟨mem, attached, belongs⟩)
        · intro n' other listed
          have there := ((lists.mem_peers n' p).mp listed).2.2
          exact other (Option.some.inj (there.symm.trans belongs))
    case mPeerq => exact (lists.mem_mPeerq p).trans (and_iff_right mem)
    case readq => exact (queues.mem_readq p).trans (and_iff_right mem)
    case asleep =>
      intro waiting
      cases enabled : (d.queues.sock p).evRead with
      | false => rfl
      | true =>
          have awake := (queues.sock p mem).evRead.mp enabled
          rw [waiting] at awake
          cases awake
    case writeq => exact (queues.mem_writeq p).trans (and_iff_right mem)
    case evWrite =>
      rw [queues.mem_writeq, and_iff_right mem, Bool.not_eq_true]
      exact (queues.sock p mem).evWrite
  case dead =>
    intro p dead
    constructor
    case unattached => exact fun listed => dead ((lists.mem_unattached p).mp listed).1
    case peers => exact fun n listed => dead ((lists.mem_peers n p).mp listed).1
    case mPeerq => exact fun listed => dead ((lists.mem_mPeerq p).mp listed).1
    case readq => exact fun listed => dead ((queues.mem_readq p).mp listed).1
    case writeq => exact fun listed => dead ((queues.mem_writeq p).mp listed).1
  case live_nodup => exact lists.live_nodup
  case queues_nodup => exact ⟨lists.mPeerq_nodup, queues.readq_nodup, queues.writeq_nodup⟩
  case npeers => exact lists.npeers
  case netNpeers => exact lists.netNpeers
  case netMaxPeers => exact lists.netMaxPeers

/-- The lists agree after any events.  No event takes a connection off a list that
it is not on, enters `net_write` with an empty queue or stops in another check of
the lists; what is left open is that a torrent is used after `torrent_on_tick` has
freed it, and the checks of the references. -/
theorem consistent_of_reachable (reached : system.Reachable (fun _ => False) d) :
    d.Consistent ∧ ∀ e fault, system.Faults (fun _ => False) d e fault →
      fault = .torrentFreed ∨ fault ∈ countFaults := by
  have uncounted : system.Reachable (contract False).bad d := reached.mono fun c bad => bad.1
  constructor
  · exact (held_of_reachable uncounted).consistent
  · intro e fault faults
    have faults' : system.Faults (contract False).bad d e fault :=
      ⟨faults.1, fun _ _ bad => bad.1⟩
    exact (fault_of_reachable uncounted faults').imp_right And.right

/-- A unit that comes in good order. -/
def Input.plain : Input where
  good := true
  torrent := some 0
  id := []
  greeting := []
  place := 0
  block := none
  deeds := []
  lost := []

/-- A second in which content is ready and nothing else happens. -/
def Second.ready : Second where
  idle _ := false
  stuck _ := false
  bored _ := false
  late _ := false
  read _ := ⟨.again, []⟩
  write _ := ⟨.again, []⟩
  lost _ := []
  cmError _ := false
  cmStarted _ := true
  cmFull _ := false
  cmActive _ := true
  trActive _ := true
  full _ := false
  choke _ := []

/-- Two connections are attached to a torrent with different ids. -/
def twoPeers : List Event :=
  [.start none, .heartbeat .ready, .accept, .accept,
    .read 0 ⟨.bytes 68 [.plain, .plain, { Input.plain with id := [0] }], []⟩,
    .read 1 ⟨.bytes 68 [.plain, .plain, { Input.plain with id := [1] }], []⟩]

theorem consistent_of_reachable_twoPeers :
    ∃ d, system.Reachable (fun _ => False) d ∧ d.roster.mPeerq = [1, 0] ∧ d.Consistent := by
  have start : system.Reachable (fun _ => False) (Daemon.create 8 0 0 [2]) :=
    .start ⟨8, 0, 0, [2], rfl⟩
  obtain ⟨d, reached, queued⟩ := System.Reachable.of_after
    (P := fun d => d.roster.mPeerq = [1, 0]) twoPeers start (by decide +kernel)
  exact ⟨d, reached, queued, (consistent_of_reachable reached).1⟩

/-! ## References -/

/-- The references to each `meta_peer` are counted, and the tables find the attached
ones by their ids. -/
structure Daemon.Accounted (d : Daemon) : Prop where
  /-- The count is that of the connection, the records and the ban. -/
  refs : ∀ m ∈ d.table.mps, (d.table.mp m).refs =
    (if m ∈ d.roster.live then 1 else 0) + d.table.recordCount d.roster.view m +
      (if (d.table.mp m).banned then 1 else 0)
  /-- Only the pieces of its own torrent have records of a `meta_peer`. -/
  record : ∀ n, ∀ r ∈ d.table.records n, r.mp ∈ d.table.mps ∧ d.roster.view.n r.mp = some n
  connection : ∀ p ∈ d.roster.live, p ∈ d.table.mps ∧ (d.table.mp p).p = true
  referenced : ∀ m ∈ d.table.mps, 0 < (d.table.mp m).refs
  mptbl : ∀ n m, m ∈ d.table.mptbl n ↔
    m ∈ d.table.mps ∧ (d.roster.peer m).attached = true ∧ (d.roster.peer m).n = some n
  mptbl_nodup : ∀ n, (d.table.mptbl n).Nodup
  id_inj : ∀ n, ∀ m ∈ d.table.mptbl n, ∀ m' ∈ d.table.mptbl n,
    (d.table.mp m).id = (d.table.mp m').id → m = m'
  id_own : ∀ n, ∀ m ∈ d.table.mptbl n, (d.table.mp m).id ≠ d.table.peerId
  /-- No id is attached to a torrent after it has been banned from it. -/
  no_return : d.table.history.Pairwise fun later earlier =>
    ∀ n id, earlier = .banned n id → later ≠ .attached n id

theorem Held.accounted (held : Held True d) : d.Accounted := by
  obtain ⟨r, w, inv⟩ := held
  have counts := inv.table.counts trivial
  constructor
  case refs =>
    intro m mem
    have refs := counts.refs m mem
    have alive : (d.table.mp m).p = true ↔ m ∈ d.roster.live :=
      ⟨counts.dead m mem, fun live => (inv.table.alive m live).2⟩
    rw [List.count_nil, Nat.add_zero] at refs
    rw [refs]
    simp only [alive]
  case record =>
    intro n r mem
    obtain ⟨inMps, -, belongs⟩ := counts.record n r mem
    exact ⟨inMps, belongs⟩
  case connection => exact inv.table.alive
  case referenced => exact counts.some
  case mptbl =>
    intro n m
    constructor
    · exact fun mem => ⟨counts.mptbl_mem n m mem, inv.table.in_table n m mem⟩
    · rintro ⟨mem, attached, belongs⟩
      exact counts.mem_mptbl n m mem attached belongs
  case mptbl_nodup => exact counts.mptbl_nodup
  case id_inj => exact counts.id_inj
  case id_own => exact counts.id_own
  case no_return => exact counts.no_return

/-- In a run in which no `meta_peer` with 65535 references gets another one, the
counts are right after any events, and no event uses a `meta_peer` after it has been
freed or stops in a check of `mp_drop`. -/
theorem accounted_of_reachable (reached : system.Reachable overflow d) :
    d.Accounted ∧ ∀ e fault, system.Faults overflow d e fault → fault = .torrentFreed := by
  have counted : system.Reachable (contract True).bad d := reached.mono fun c bad => bad.2
  constructor
  · exact (held_of_reachable counted).accounted
  · intro e fault faults
    have faults' : system.Faults (contract True).bad d e fault :=
      ⟨faults.1, fun c mem bad => faults.2 c mem bad.2⟩
    exact (fault_of_reachable counted faults').resolve_right fun both => both.1 trivial

/-- A block that a connection sends for a piece of two blocks. -/
def Input.withBlock (deeds : List Deed) (index block : Nat) (test : Test) : Input :=
  { Input.plain with deeds := deeds, block := some ⟨index, block, test⟩ }

/-- A connection reads one message. -/
def readBlock (p : Nat) (deeds : List Deed) (index block : Nat) (test : Test) : Event :=
  .read p ⟨.bytes 13 [.withBlock deeds index block test], []⟩

/-- A piece with a block of each connection is bad, then it is good and one of them
is found out. -/
def badThenGood : List Event :=
  twoPeers ++ [readBlock 0 [.alloc 0 0 2] 0 0 .open_, readBlock 1 [] 0 1 .bad,
    readBlock 0 [] 0 0 .open_, readBlock 0 [] 0 1 (.ok fun m => decide (m = 1))]

theorem accounted_of_reachable_badThenGood :
    ∃ d, system.Reachable overflow d ∧ ((d.table.mp 1).banned = true ∧ (d.table.mp 1).refs = 2) ∧
      d.Accounted := by
  have start : system.Reachable overflow (Daemon.create 8 0 0 [2]) :=
    .start ⟨8, 0, 0, [2], rfl⟩
  obtain ⟨d, reached, banned⟩ := System.Reachable.of_after
    (P := fun d => (d.table.mp 1).banned = true ∧ (d.table.mp 1).refs = 2) badThenGood start
    (by decide +kernel)
  exact ⟨d, reached, banned, (accounted_of_reachable reached).1⟩

end Btpd.Swarm
