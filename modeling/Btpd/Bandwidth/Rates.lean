import Mathlib

/-!
# Rate counters

Once a tick `compute_rates` takes the bytes that were counted since the last one,
adds them to the counters of the peers, of their torrents and of the whole
process, and takes a share of each counter away.  The counters are unsigned words
and the two changes are one sum modulo `2 ^ 64`; the run theorem says that they
stay far from the ends of the type.
-/

namespace Btpd.Rates

/-! ## The code -/

/-- Bytes sent and bytes received. -/
inductive Dir
  | up
  | dwn
  deriving DecidableEq, Repr

/-- `RATEHISTORY`. -/
def ratehistory : UInt64 := 20

/-- `compute_rate_sub`. -/
def computeRateSub (rate : UInt64) : UInt64 :=
  if rate > 256 * ratehistory then rate / ratehistory else min 256 rate

/-- `rate += count - compute_rate_sub(rate);` -/
def update (rate count : UInt64) : UInt64 := rate + (count - computeRateSub rate)

/-- The counters of a peer, and what `peer_active_up` and `peer_active_down` say of it. -/
structure Peer where
  id : Nat
  count : Dir → UInt64
  rate : Dir → UInt64
  active : Dir → Bool

/-- A torrent with its peers. -/
structure Torrent where
  id : Nat
  rate : Dir → UInt64
  peers : List Peer

/-- The torrents, and `m_rate_up` and `m_rate_dwn`. -/
structure Net where
  torrents : List Torrent
  rate : Dir → UInt64

/-- `p->count_up > 0 || peer_active_up(p)`. -/
def Peer.updated (p : Peer) (d : Dir) : Bool := p.count d > 0 || p.active d

/-- The body of the loop over the peers, for both directions. -/
def Peer.tick (p : Peer) : Peer :=
  { p with
    rate := fun d => if p.updated d then update (p.rate d) (p.count d) else p.rate d
    count := fun d => if p.updated d then 0 else p.count d }

/-- What the body adds to the sum of the torrent. -/
def Peer.taken (p : Peer) (d : Dir) : UInt64 := if p.updated d then p.count d else 0

/-- The loop over the peers of a torrent, with the sums so far. -/
def peerLoop : List Peer → (Dir → UInt64) → List Peer × (Dir → UInt64)
  | [], tp => ([], tp)
  | p :: ps, tp =>
      let rest := peerLoop ps fun d => tp d + p.taken d
      (p.tick :: rest.1, rest.2)

/-- The body of the loop over the torrents: the torrent and its sums. -/
def Torrent.tick (t : Torrent) : Torrent × (Dir → UInt64) :=
  let peers := peerLoop t.peers fun _ => 0
  ({ t with peers := peers.1, rate := fun d => update (t.rate d) (peers.2 d) }, peers.2)

/-- The loop over the torrents, with the sums so far. -/
def torrentLoop : List Torrent → (Dir → UInt64) → List Torrent × (Dir → UInt64)
  | [], tot => ([], tot)
  | t :: ts, tot =>
      let rest := torrentLoop ts fun d => tot d + t.tick.2 d
      (t.tick.1 :: rest.1, rest.2)

/-- `compute_rates`. -/
def computeRates (s : Net) : Net :=
  let torrents := torrentLoop s.torrents fun _ => 0
  { torrents := torrents.1, rate := fun d => update (s.rate d) (torrents.2 d) }

/-! ## Runs -/

/-- What happens between the ticks, and the tick. -/
inductive Event
  /-- A torrent is put into the list. -/
  | add (tid : Nat)
  /-- A torrent is taken from the list. -/
  | remove (tid : Nat)
  /-- `net_stop`: the counters of the torrent are cleared and its peers are killed. -/
  | stop (tid : Nat)
  /-- A peer is attached, with what was counted of it before. -/
  | attach (tid pid : Nat) (count : Dir → UInt64) (active : Dir → Bool)
  /-- A peer is killed. -/
  | kill (tid pid : Nat)
  /-- Bytes are counted. -/
  | bytes (tid pid : Nat) (d : Dir) (n : UInt64)
  /-- A peer begins or ceases to be active. -/
  | activity (tid pid : Nat) (d : Dir) (active : Bool)
  /-- `compute_rates`. -/
  | tick

/-- Change the torrent with the given identity. -/
def Net.onTorrent (s : Net) (tid : Nat) (f : Torrent → Torrent) : Net :=
  { s with torrents := s.torrents.map fun t => if t.id = tid then f t else t }

/-- Change the peer with the given identity. -/
def Torrent.onPeer (t : Torrent) (pid : Nat) (f : Peer → Peer) : Torrent :=
  { t with peers := t.peers.map fun p => if p.id = pid then f p else p }

/-- A new peer goes to the front of the list. -/
def Torrent.attach (t : Torrent) (p : Peer) : Torrent :=
  if ∀ q ∈ t.peers, q.id ≠ p.id then { t with peers := p :: t.peers } else t

/-- One event.  A new object has an address that no object in use has. -/
def step (s : Net) : Event → Net
  | .add tid =>
      if ∀ t ∈ s.torrents, t.id ≠ tid then
        { s with torrents := s.torrents ++ [⟨tid, fun _ => 0, []⟩] }
      else s
  | .remove tid => { s with torrents := s.torrents.filter (·.id ≠ tid) }
  | .stop tid => s.onTorrent tid fun t => { t with rate := fun _ => 0, peers := [] }
  | .attach tid pid count active =>
      s.onTorrent tid fun t => t.attach ⟨pid, count, fun _ => 0, active⟩
  | .kill tid pid =>
      s.onTorrent tid fun t => { t with peers := t.peers.filter (·.id ≠ pid) }
  | .bytes tid pid d n =>
      s.onTorrent tid fun t => t.onPeer pid fun p =>
        { p with count := fun d' => if d' = d then p.count d + n else p.count d' }
  | .activity tid pid d active =>
      s.onTorrent tid fun t => t.onPeer pid fun p =>
        { p with active := fun d' => if d' = d then active else p.active d' }
  | .tick => computeRates s

/-- The state after the events. -/
def run (s : Net) (es : List Event) : Net := es.foldl step s

/-- The state at the start of the process. -/
def fresh : Net := ⟨[], fun _ => 0⟩

/-! ## Counters -/

/-- The counters that `compute_rates` maintains. -/
inductive Counter
  | total (d : Dir)
  | torrent (tid : Nat) (d : Dir)
  | peer (tid pid : Nat) (d : Dir)

def Net.find (s : Net) (tid : Nat) : Option Torrent := s.torrents.find? (·.id = tid)

def Torrent.find (t : Torrent) (pid : Nat) : Option Peer := t.peers.find? (·.id = pid)

/-- What the counter shows, if it exists. -/
def rateOf (s : Net) : Counter → Option UInt64
  | .total d => some (s.rate d)
  | .torrent tid d => (s.find tid).map (·.rate d)
  | .peer tid pid d => (s.find tid).bind fun t => (t.find pid).map (·.rate d)

/-- The bytes that were counted for the peers of a torrent. -/
def Torrent.bytes (t : Torrent) (d : Dir) : Nat := (t.peers.map fun p => (p.count d).toNat).sum

/-- The bytes since the last tick with which a tick updates the counter; none when it does
not update it. -/
def countOf (s : Net) : Counter → Option Nat
  | .total d => some (s.torrents.map (·.bytes d)).sum
  | .torrent tid d => (s.find tid).map (·.bytes d)
  | .peer tid pid d => (s.find tid).bind fun t => (t.find pid).bind fun p =>
      if p.updated d then some (p.count d).toNat else none

/-! ## One update -/

section Update

variable {rate count : UInt64} {M : Nat}

/-- The share that is taken away. -/
theorem toNat_computeRateSub (rate : UInt64) :
    (computeRateSub rate).toNat =
      if 5120 < rate.toNat then rate.toNat / 20 else min 256 rate.toNat := by
  have large : (256 * ratehistory < rate) ↔ 5120 < rate.toNat := UInt64.lt_iff_toNat_lt
  rw [computeRateSub]
  by_cases much : 5120 < rate.toNat
  · rw [if_pos (large.mpr much), if_pos much, UInt64.toNat_div]
    rfl
  · rw [if_neg (fun more => much (large.mp more)), if_neg much]
    show (if 256 ≤ rate then (256 : UInt64) else rate).toNat = _
    have order : (256 ≤ rate) ↔ 256 ≤ rate.toNat := UInt64.le_iff_toNat_le
    by_cases step : 256 ≤ rate
    · have : 256 ≤ rate.toNat := order.mp step
      rw [if_pos step]
      show 256 = _
      omega
    · have : ¬ 256 ≤ rate.toNat := fun less => step (order.mpr less)
      rw [if_neg step]
      omega

/-- What the counters stay below. -/
def bound (M : Nat) : Nat := max 5120 (20 * M + 19) + M

theorem computeRateSub_le (rate : UInt64) : (computeRateSub rate).toNat ≤ rate.toNat := by
  rw [toNat_computeRateSub]
  split
  · exact Nat.div_le_self _ _
  · exact Nat.min_le_right _ _

/-- A counter that is not 0 loses something. -/
theorem computeRateSub_pos (some : 0 < rate.toNat) : 0 < (computeRateSub rate).toNat := by
  rw [toNat_computeRateSub]
  split
  · omega
  · omega

/-- The sum that an update is meant to compute, while it fits. -/
theorem toNat_update (rate count : UInt64)
    (fits : rate.toNat + count.toNat - (computeRateSub rate).toNat < 2 ^ 64) :
    (update rate count).toNat + (computeRateSub rate).toNat = rate.toNat + count.toNat := by
  have share := computeRateSub_le rate
  have small := rate.toNat_lt
  have counted := count.toNat_lt
  rw [update, UInt64.toNat_add, UInt64.toNat_sub]
  omega

/-- The bound carries over an update. -/
theorem update_le_bound (below : rate.toNat ≤ bound M) (few : count.toNat ≤ M) :
    rate.toNat + count.toNat - (computeRateSub rate).toNat ≤ bound M := by
  rw [bound] at below ⊢
  rw [toNat_computeRateSub]
  split
  · omega
  · omega

/-- An update of a counter below the bound is exact and stays below it. -/
theorem update_exact (fits : bound M < 2 ^ 64) (below : rate.toNat ≤ bound M)
    (few : count.toNat ≤ M) :
    (update rate count).toNat + (computeRateSub rate).toNat = rate.toNat + count.toNat ∧
      (update rate count).toNat ≤ bound M := by
  have next := update_le_bound below few
  have exact_ := toNat_update rate count (Nat.lt_of_le_of_lt next fits)
  exact ⟨exact_, by omega⟩

/-- Without new bytes a counter sinks. -/
theorem update_zero_lt (some : 0 < rate.toNat) : (update rate 0).toNat < rate.toNat := by
  have share := computeRateSub_pos some
  have small := rate.toNat_lt
  have zero : (0 : UInt64).toNat = 0 := rfl
  have exact_ := toNat_update rate 0 (by omega)
  omega

theorem update_zero_zero : update 0 0 = 0 := by decide

end Update

/-! ## One tick -/

/-- A peer that is not updated has counted nothing. -/
theorem Peer.taken_eq (p : Peer) (d : Dir) : p.taken d = UInt64.ofNat (p.count d).toNat := by
  rw [Peer.taken, UInt64.ofNat_toNat]
  split
  · rfl
  · rename_i idle
    rw [Peer.updated, Bool.or_eq_true, not_or, decide_eq_true_iff] at idle
    by_contra other
    exact idle.1 (UInt64.pos_iff_ne_zero.mpr (Ne.symm other))

theorem peerLoop_eq (ps : List Peer) (tp : Dir → UInt64) :
    peerLoop ps tp =
      (ps.map Peer.tick, fun d => tp d + UInt64.ofNat (ps.map fun p => (p.count d).toNat).sum) := by
  induction ps generalizing tp with
  | nil => simp [peerLoop]
  | cons p ps ih =>
      rw [peerLoop, ih]
      refine Prod.ext rfl ?_
      funext d
      dsimp only
      rw [p.taken_eq, List.map_cons, List.sum_cons, UInt64.ofNat_add, UInt64.add_assoc]

theorem Torrent.tick_eq (t : Torrent) :
    t.tick = ({ t with
      peers := t.peers.map Peer.tick
      rate := fun d => update (t.rate d) (UInt64.ofNat (t.bytes d)) },
      fun d => UInt64.ofNat (t.bytes d)) := by
  have sums : ∀ d, (0 : UInt64) + UInt64.ofNat (t.bytes d) = UInt64.ofNat (t.bytes d) :=
    fun d => UInt64.zero_add _
  rw [Torrent.tick, peerLoop_eq]
  dsimp only
  refine Prod.ext ?_ (funext sums)
  dsimp only
  congr 1
  funext d
  exact congrArg (update (t.rate d)) (sums d)

theorem torrentLoop_eq (ts : List Torrent) (tot : Dir → UInt64) :
    torrentLoop ts tot =
      (ts.map fun t => t.tick.1,
        fun d => tot d + UInt64.ofNat (ts.map fun t => t.bytes d).sum) := by
  induction ts generalizing tot with
  | nil => simp [torrentLoop]
  | cons t ts ih =>
      rw [torrentLoop, ih]
      refine Prod.ext rfl ?_
      funext d
      dsimp only
      rw [t.tick_eq, List.map_cons, List.sum_cons, UInt64.ofNat_add, UInt64.add_assoc]

/-- A list whose elements keep their identity shows the changed element at the place of the
old one. -/
theorem find?_map_of_id {α : Type} (key : α → Nat) (f : α → α) (same : ∀ x, key (f x) = key x)
    (xs : List α) (k : Nat) :
    (xs.map f).find? (fun x => key x = k) = (xs.find? fun x => key x = k).map f := by
  induction xs with
  | nil => rfl
  | cons x xs ih =>
      rw [List.map_cons, List.find?_cons, List.find?_cons, same]
      split
      · rfl
      · exact ih

/-- What a tick does to a counter. -/
theorem rateOf_computeRates (s : Net) (key : Counter) :
    rateOf (computeRates s) key = (rateOf s key).map fun r =>
      match countOf s key with
      | some n => update r (UInt64.ofNat n)
      | none => r := by
  have torrents : (computeRates s).torrents = s.torrents.map fun t => t.tick.1 := by
    rw [computeRates, torrentLoop_eq]
  have found : ∀ tid, (computeRates s).find tid = (s.find tid).map fun t => t.tick.1 := by
    intro tid
    rw [Net.find, torrents]
    exact find?_map_of_id Torrent.id _ (fun t => by rw [t.tick_eq]) s.torrents tid
  cases key with
  | total d =>
      rw [rateOf, computeRates, torrentLoop_eq]
      dsimp only
      rw [UInt64.zero_add]
      rfl
  | torrent tid d =>
      rw [rateOf, found]
      simp only [rateOf, countOf]
      cases s.find tid with
      | none => rfl
      | some t =>
          show some (t.tick.1.rate d) = _
          rw [t.tick_eq]
          rfl
  | peer tid pid d =>
      rw [rateOf, found]
      simp only [rateOf, countOf]
      cases s.find tid with
      | none => rfl
      | some t =>
          show (t.tick.1.find pid).map (·.rate d) = _
          have peer : t.tick.1.find pid = (t.find pid).map Peer.tick := by
            rw [t.tick_eq, Torrent.find]
            exact find?_map_of_id Peer.id Peer.tick (fun _ => rfl) t.peers pid
          rw [peer, Option.bind_some, Option.bind_some]
          cases t.find pid with
          | none => rfl
          | some p =>
              show some (p.tick.rate d) = some _
              rw [Option.bind_some, Peer.tick]
              dsimp only
              by_cases due : p.updated d
              · rw [if_pos due, if_pos due]
                show _ = some (update (p.rate d) (UInt64.ofNat (p.count d).toNat))
                rw [UInt64.ofNat_toNat]
              · rw [if_neg due, if_neg due]

/-! ## One event between the ticks -/

section Between

variable {s : Net} {key : Counter}

/-- A torrent that is changed so that each of its counters is as before or 0 does no more
to a counter. -/
theorem rateOf_onTorrent {s : Net} {tid : Nat} {f : Torrent → Torrent} {r : UInt64}
    (shown : rateOf (s.onTorrent tid f) key = some r) (same : ∀ t, (f t).id = t.id)
    (torrent : ∀ t d, (f t).rate d = t.rate d ∨ (f t).rate d = 0)
    (peer : ∀ t pid p', (f t).find pid = some p' →
      (∃ p, t.find pid = some p ∧ p'.rate = p.rate) ∨ ∀ d, p'.rate d = 0) :
    rateOf s key = some r ∨ r = 0 := by
  let g : Torrent → Torrent := fun t => if t.id = tid then f t else t
  have keeps : ∀ t, (g t).id = t.id := by
    intro t
    show (if t.id = tid then f t else t).id = t.id
    split
    · exact same t
    · rfl
  have found : ∀ i, (s.onTorrent tid f).find i = (s.find i).map g :=
    fun i => find?_map_of_id Torrent.id g keeps s.torrents i
  have cases_ : ∀ t, g t = f t ∨ g t = t := by
    intro t
    show (if t.id = tid then f t else t) = f t ∨ (if t.id = tid then f t else t) = t
    split
    · exact Or.inl rfl
    · exact Or.inr rfl
  cases key with
  | total d => exact Or.inl shown
  | torrent i d =>
      rw [rateOf, found] at shown
      rw [rateOf]
      cases old : s.find i with
      | none =>
          rw [old] at shown
          cases shown
      | some t =>
          rw [old] at shown
          have value : (g t).rate d = r := Option.some.inj shown
          rcases cases_ t with changed | kept
          · rw [changed] at value
            rcases torrent t d with as_before | zero
            · exact Or.inl (congrArg some (as_before.symm.trans value))
            · exact Or.inr (value.symm.trans zero)
          · rw [kept] at value
            exact Or.inl (congrArg some value)
  | peer i pid d =>
      rw [rateOf, found] at shown
      rw [rateOf]
      cases old : s.find i with
      | none =>
          rw [old] at shown
          cases shown
      | some t =>
          rw [old] at shown
          have value : ((g t).find pid).map (·.rate d) = some r := shown
          show (t.find pid).map (·.rate d) = some r ∨ r = 0
          rcases cases_ t with changed | kept
          · rw [changed] at value
            rcases Option.map_eq_some_iff.mp value with ⟨p', there, shows⟩
            rcases peer t pid p' there with ⟨p, before, as_before⟩ | zero
            · rw [before]
              exact Or.inl (congrArg some ((congrFun as_before d).symm.trans shows))
            · exact Or.inr (shows.symm.trans (zero d))
          · rw [kept] at value
            exact Or.inl value

/-- A change of a peer that leaves its counters alone. -/
theorem found_onPeer {t : Torrent} {pid i : Nat} {f : Peer → Peer} {p' : Peer}
    (found : (t.onPeer pid f).find i = some p') (id : ∀ p, (f p).id = p.id)
    (rate : ∀ p, (f p).rate = p.rate) :
    ∃ p, t.find i = some p ∧ p'.rate = p.rate := by
  have same : ∀ p : Peer, (if p.id = pid then f p else p).id = p.id := by
    intro p
    split
    · exact id p
    · rfl
  rw [Torrent.find, Torrent.onPeer, find?_map_of_id Peer.id _ same] at found
  rcases Option.map_eq_some_iff.mp found with ⟨p, there, rfl⟩
  refine ⟨p, there, ?_⟩
  split
  · exact rate p
  · rfl

/-- What is found in a filtered list was found before. -/
theorem find?_filter_ne {α : Type} (key : α → Nat) (xs : List α) (k i : Nat) {x : α}
    (found : (xs.filter fun x => key x ≠ k).find? (fun x => key x = i) = some x) :
    xs.find? (fun x => key x = i) = some x := by
  rw [List.find?_filter] at found
  have both := List.find?_some found
  simp only [decide_eq_true_iff] at both
  rcases both with ⟨differs, same⟩
  have other : i ≠ k := same ▸ differs
  rw [← found]
  congr 1
  funext y
  by_cases here : key y = i
  · simp [here, other]
  · simp [here]

/-- An event between the ticks leaves a counter alone, clears it or makes it anew. -/
theorem rateOf_step (s : Net) (key : Counter) (e : Event) (between : e ≠ .tick) {r : UInt64}
    (shown : rateOf (step s e) key = some r) : rateOf s key = some r ∨ r = 0 := by
  cases e with
  | tick => exact absurd rfl between
  | add tid =>
      simp only [step] at shown
      split at shown
      · rename_i new
        have found : ∀ i, (⟨s.torrents ++ [⟨tid, fun _ => 0, []⟩], s.rate⟩ : Net).find i =
            (s.find i).or (if tid = i then some ⟨tid, fun _ => 0, []⟩ else none) := by
          intro i
          rw [Net.find, List.find?_append, Net.find]
          congr 1
          rw [List.find?_singleton]
          simp
        cases key with
        | total d => exact Or.inl shown
        | torrent i d =>
            rw [rateOf, found] at shown
            rw [rateOf]
            cases old : s.find i with
            | some t =>
                rw [old] at shown
                exact Or.inl shown
            | none =>
                rw [old, Option.none_or] at shown
                split at shown
                · exact Or.inr (Option.some.inj shown).symm
                · cases shown
        | peer i pid d =>
            rw [rateOf, found] at shown
            rw [rateOf]
            cases old : s.find i with
            | some t =>
                rw [old] at shown
                exact Or.inl shown
            | none =>
                rw [old, Option.none_or] at shown
                split at shown
                · cases shown
                · cases shown
      · exact Or.inl shown
  | remove tid =>
      simp only [step] at shown
      have kept : ∀ i t, (⟨s.torrents.filter (·.id ≠ tid), s.rate⟩ : Net).find i = some t →
          s.find i = some t :=
        fun i t found => find?_filter_ne Torrent.id s.torrents tid i found
      apply Or.inl
      cases key with
      | total d => exact shown
      | torrent i d =>
          rcases Option.map_eq_some_iff.mp shown with ⟨t, found, shows⟩
          rw [rateOf, kept i t found]
          exact congrArg some shows
      | peer i pid d =>
          rcases Option.bind_eq_some_iff.mp shown with ⟨t, found, shows⟩
          rw [rateOf, kept i t found]
          exact shows
  | stop tid =>
      apply rateOf_onTorrent shown (fun _ => rfl) (fun _ _ => Or.inr rfl)
      intro t pid p' found
      cases found
  | attach tid pid count active =>
      apply rateOf_onTorrent shown
      · intro t
        rw [Torrent.attach]
        split <;> rfl
      · intro t d
        rw [Torrent.attach]
        split <;> exact Or.inl rfl
      · intro t i p' found
        rw [Torrent.attach] at found
        split at found
        · rw [Torrent.find, List.find?_cons] at found
          split at found
          · exact Or.inr (fun d => by cases found; rfl)
          · exact Or.inl ⟨p', found, rfl⟩
        · exact Or.inl ⟨p', found, rfl⟩
  | kill tid pid =>
      apply rateOf_onTorrent shown (fun _ => rfl) (fun _ _ => Or.inl rfl)
      intro t i p' found
      exact Or.inl ⟨p', find?_filter_ne Peer.id t.peers pid i found, rfl⟩
  | bytes tid pid d n =>
      apply rateOf_onTorrent shown (fun _ => rfl) (fun _ _ => Or.inl rfl)
      intro t i p' found
      exact Or.inl (found_onPeer found (fun _ => rfl) (fun _ => rfl))
  | activity tid pid d active =>
      apply rateOf_onTorrent shown (fun _ => rfl) (fun _ _ => Or.inl rfl)
      intro t i p' found
      exact Or.inl (found_onPeer found (fun _ => rfl) (fun _ => rfl))

end Between

/-! ## Runs -/

/-- At every tick the counter is updated with `n` bytes that satisfy the condition. -/
def Ticks (P : Option Nat → Prop) (key : Counter) (s : Net) : List Event → Prop
  | [] => True
  | e :: es => (e = .tick → P (countOf s key)) ∧ Ticks P key (step s e) es

/-- At no tick more than `M` bytes are there for the counter. -/
def AtMost (M : Nat) (count : Option Nat) : Prop := ∀ n, count = some n → n ≤ M

/-- The number of ticks. -/
def ticks (es : List Event) : Nat := es.countP fun e => match e with
  | .tick => true
  | _ => false

/-- A counter below the bound. -/
def Below (M : Nat) (key : Counter) (s : Net) : Prop :=
  ∀ r, rateOf s key = some r → r.toNat ≤ bound M

theorem toNat_ofNat_of_le {n M : Nat} (fits : bound M < 2 ^ 64) (few : n ≤ M) :
    (UInt64.ofNat n).toNat = n := by
  rw [bound] at fits
  exact UInt64.toNat_ofNat_of_lt (show n < 2 ^ 64 by omega)

/-- A tick that finds at most `M` bytes for a counter below the bound. -/
theorem tick_below {M : Nat} {key : Counter} {s : Net} (fits : bound M < 2 ^ 64)
    (below : Below M key s) (few : AtMost M (countOf s key)) : Below M key (computeRates s) := by
  intro r' shown
  rw [rateOf_computeRates] at shown
  rcases Option.map_eq_some_iff.mp shown with ⟨r, old, rfl⟩
  cases due : countOf s key with
  | none => exact below r old
  | some n =>
      have small := few n due
      exact (update_exact fits (below r old)
        (by rw [toNat_ofNat_of_le fits small]; exact small)).2

/-- A counter stays below the bound. -/
theorem run_below {M : Nat} {key : Counter} (fits : bound M < 2 ^ 64) (es : List Event) (s : Net)
    (few : Ticks (AtMost M) key s es) (below : Below M key s) : Below M key (run s es) := by
  induction es generalizing s with
  | nil => exact below
  | cons e es ih =>
      apply ih (step s e) few.2
      by_cases tick : e = .tick
      · subst tick
        exact tick_below fits below (few.1 rfl)
      · intro r shown
        rcases rateOf_step s key e tick shown with old | rfl
        · exact below r old
        · exact Nat.zero_le _

theorem fresh_below (M : Nat) (key : Counter) : Below M key fresh := by
  intro r shown
  cases key with
  | total d =>
      cases shown
      exact Nat.zero_le _
  | torrent tid d => cases shown
  | peer tid pid d => cases shown

/-- A counter that every tick updates without new bytes loses at least one at each. -/
theorem run_decays {key : Counter} (es : List Event) (s : Net)
    (quiet : Ticks (· = some 0) key s es) (top : Nat)
    (below : ∀ r, rateOf s key = some r → r.toNat ≤ top) :
    ∀ r, rateOf (run s es) key = some r → r.toNat ≤ top - ticks es := by
  induction es generalizing s top with
  | nil => exact below
  | cons e es ih =>
      by_cases tick : e = .tick
      · subst tick
        have counted : ticks (.tick :: es) = ticks es + 1 := by simp [ticks]
        rw [counted, Nat.add_comm, Nat.sub_add_eq]
        apply ih (computeRates s) quiet.2 (top - 1)
        intro r' shown
        rw [rateOf_computeRates, quiet.1 rfl] at shown
        rcases Option.map_eq_some_iff.mp shown with ⟨r, old, rfl⟩
        have high := below r old
        show (update r 0).toNat ≤ top - 1
        by_cases zero : r = 0
        · subst zero
          rw [update_zero_zero]
          exact Nat.zero_le _
        · have positive : 0 < r.toNat :=
            UInt64.lt_iff_toNat_lt.mp (UInt64.pos_iff_ne_zero.mpr zero)
          have less := update_zero_lt positive
          omega
      · have counted : ticks (e :: es) = ticks es := by
          cases e <;> first | exact absurd rfl tick | simp [ticks]
        rw [counted]
        apply ih (step s e) quiet.2 top
        intro r shown
        rcases rateOf_step s key e tick shown with old | rfl
        · exact below r old
        · exact Nat.zero_le _

theorem run_append (s : Net) (es later : List Event) :
    run s (es ++ later) = run (run s es) later :=
  List.foldl_append

/-- In a run in which no tick finds more than `M` bytes for a counter, the counter stays
below the bound; every update is the sum it is meant to be; without new bytes the counter
sinks at every tick, and so it is 0 after as many ticks as it shows. -/
theorem rates_bounded (M : Nat) (fits : bound M < 2 ^ 64) (key : Counter) (es : List Event)
    (few : Ticks (AtMost M) key fresh es) :
    Below M key (run fresh es) ∧
    (∀ r n, rateOf (run fresh es) key = some r → countOf (run fresh es) key = some n → n ≤ M →
      ∃ r', rateOf (run fresh (es ++ [.tick])) key = some r' ∧
        r'.toNat + (computeRateSub r).toNat = r.toNat + n ∧ r'.toNat ≤ bound M ∧
        (n = 0 → if r = 0 then r' = 0 else r' < r)) ∧
    ∀ later, Ticks (· = some 0) key (run fresh es) later →
      ∀ r r', rateOf (run fresh es) key = some r →
        rateOf (run fresh (es ++ later)) key = some r' → r'.toNat ≤ r.toNat - ticks later := by
  have below := run_below fits es fresh few (fresh_below M key)
  refine ⟨below, ?_, ?_⟩
  · intro r n old due small
    have word := toNat_ofNat_of_le fits small
    have updated := update_exact fits (below r old) (by rw [word]; exact small)
    rw [word] at updated
    refine ⟨update r (UInt64.ofNat n), ?_, updated.1, updated.2, ?_⟩
    · rw [run_append]
      show rateOf (computeRates (run fresh es)) key = _
      rw [rateOf_computeRates, old, due]
      rfl
    · rintro rfl
      split
      · rename_i zero
        rw [zero]
        exact update_zero_zero
      · rename_i some
        have positive : 0 < r.toNat :=
          UInt64.lt_iff_toNat_lt.mp (UInt64.pos_iff_ne_zero.mpr some)
        exact UInt64.lt_iff_toNat_lt.mpr (update_zero_lt positive)
  · intro later quiet r r' old shown
    rw [run_append] at shown
    apply run_decays later (run fresh es) quiet r.toNat _ r' shown
    intro r₀ first
    rw [old] at first
    cases first
    exact Nat.le_refl _

/-- A peer of which 300 bytes were sent before a tick. -/
def oneTick : List Event :=
  [.add 0, .attach 0 0 (fun _ => 300) (fun _ => true), .tick]

/-- Its counter at the next ticks. -/
theorem rates_bounded_oneTick :
    Below 300 (.peer 0 0 .up) (run fresh oneTick) ∧
      (∃ r', rateOf (run fresh (oneTick ++ [.tick])) (.peer 0 0 .up) = some r' ∧ r' < 300) ∧
      ∃ r', rateOf (run fresh (oneTick ++ [.tick, .tick])) (.peer 0 0 .up) = some r' ∧
        r'.toNat ≤ 300 - 2 := by
  have few : Ticks (AtMost 300) (.peer 0 0 .up) fresh oneTick := by
    refine ⟨by simp, by simp, ?_, trivial⟩
    intro _ n due
    cases due
    decide
  rcases rates_bounded 300 (by decide) (.peer 0 0 .up) oneTick few with ⟨below, next, decays⟩
  refine ⟨below, ?_, ?_⟩
  · rcases next 300 0 rfl rfl (Nat.zero_le _) with ⟨r', shown, -, -, sinks⟩
    exact ⟨r', shown, sinks rfl⟩
  · refine ⟨44 - 44, rfl, ?_⟩
    exact decays [.tick, .tick] ⟨fun _ => rfl, fun _ => rfl, trivial⟩ 300 (44 - 44) rfl rfl

end Btpd.Rates
