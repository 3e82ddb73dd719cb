import Btpd.Library.Program
import Mathlib

/-!
# The upload slots

What `upload.c` keeps: the queue of the attached peers and, for each of them, whether
it is choked and whether it is interested.  `choke_do` first unchokes the peers with
the best rates and then, along the queue, as many as there are slots left.
-/

namespace Btpd.Upload

/-- What `upload.c` reads of `struct peer` and `struct meta_peer` -/
structure Peer where
  n : Nat
  npieces : Nat
  pieceField : Nat → Bool
  /-- `PF_I_CHOKE` -/
  iChoke : Bool
  /-- `PF_P_WANT` -/
  pWant : Bool

/-- What `upload.c` reads of `struct net`, with the number of pieces of its torrent. -/
structure Net where
  npieces : Nat
  active : Bool
  peers : List Nat

/-- The peers, the torrents and the queue. -/
structure Slots where
  peer : Nat → Peer
  net : Nat → Net
  nextPeer : Nat
  mNpeers : Nat
  mPeerq : List Nat
  mMaxUploads : Int
  cbCount : Nat

/-- What `choke_do` learns from the content and from the transfers: `cm_full` of each
torrent, the rates of each peer and `peer_active_down`. -/
structure Rates where
  cmFull : Nat → Bool
  rateUp : Nat → Nat
  rateDwn : Nat → Nat
  activeDown : Nat → Bool

/-- `struct peer_sort` -/
structure PeerSort where
  p : Nat
  i : Nat
  deriving DecidableEq

/-- `qsort`: any order that has the same elements. -/
structure Qsort where
  sort : (PeerSort → PeerSort → Int) → List PeerSort → List PeerSort
  perm : ∀ cmp xs, (sort cmp xs).Perm xs

variable (q : Qsort) (r : Rates) (u : Slots)

/-! ## Peers -/

/-- `peer_full` -/
def Slots.full (p : Nat) : Bool := decide ((u.peer p).npieces = (u.net (u.peer p).n).npieces)

/-- Change a peer. -/
def Slots.setPeer (p : Nat) (f : Peer → Peer) : Slots :=
  { u with peer := Function.update u.peer p (f (u.peer p)) }

/-- The flag that `peer_choke` sets. -/
def Slots.peerChoke (p : Nat) : Slots := u.setPeer p fun peer => { peer with iChoke := true }

/-- The flag that `peer_unchoke` clears. -/
def Slots.peerUnchoke (p : Nat) : Slots :=
  u.setPeer p fun peer => { peer with iChoke := false }

/-! ## `choke_do` -/

/-- The rate that `rate_cmp` looks at. -/
def rate (p : Nat) : Nat := if r.cmFull (u.peer p).n then r.rateUp p / 2 else r.rateDwn p

/-- `rate_cmp` -/
def rateCmp (arg1 arg2 : PeerSort) : Int :=
  if rate r u arg1.p < rate r u arg2.p then -1
  else if rate r u arg1.p = rate r u arg2.p then 0
  else 1

/-- The peers of the queue with their places. -/
def Slots.places : List PeerSort := u.mPeerq.zipIdx.map fun x => ⟨x.1, x.2⟩

/-- Whether the first pass may unchoke the peer. -/
def worthy (p : Nat) : Bool :=
  !u.full p &&
    if r.cmFull (u.peer p).n then decide (0 < r.rateUp p)
    else r.activeDown p && decide (0 < r.rateDwn p)

/-- The first pass of `choke_do`, with the places that it marks. -/
def unchokeWorthy (maxUploads : Int) : List PeerSort → Int → List Nat → Slots →
    Int × List Nat × Slots
  | [], found, unchoked, u => (found, unchoked, u)
  | w :: ws, found, unchoked, u =>
      if found < maxUploads - 1 then
        unchokeWorthy maxUploads ws (if (u.peer w.p).pWant then found + 1 else found)
          (w.i :: unchoked) (if (u.peer w.p).iChoke then u.peerUnchoke w.p else u)
      else (found, unchoked, u)

/-- The second pass of `choke_do`. -/
def chokeRest (maxUploads : Int) (unchoked : List Nat) : List PeerSort → Int → Slots → Slots
  | [], _, u => u
  | w :: ws, found, u =>
      if w.i ∈ unchoked then chokeRest maxUploads unchoked ws found u
      else if found < maxUploads ∧ u.full w.p = false then
        chokeRest maxUploads unchoked ws (if (u.peer w.p).pWant then found + 1 else found)
          (if (u.peer w.p).iChoke then u.peerUnchoke w.p else u)
      else
        chokeRest maxUploads unchoked ws found
          (if (u.peer w.p).iChoke then u else u.peerChoke w.p)

/-- `choke_do` -/
def chokeDo : Slots :=
  if u.mMaxUploads < 0 then
    u.mPeerq.foldl (fun u p => if (u.peer p).iChoke then u.peerUnchoke p else u) u
  else if u.mMaxUploads = 0 then
    u.mPeerq.foldl (fun u p => if (u.peer p).iChoke then u else u.peerChoke p) u
  else
    let sorted := q.sort (rateCmp r u) (u.places.filter fun w => worthy r u w.p)
    let (found, unchoked, u') := unchokeWorthy u.mMaxUploads sorted.reverse 0 [] u
    chokeRest u.mMaxUploads unchoked u'.places found u'

/-! ## What `choke_do` changes -/

variable {q : Qsort} {r : Rates} {u : Slots} {c : Nat → Bool} {p : Nat}

/-- The same slots with other peers choked. -/
def Slots.withChoke (u : Slots) (c : Nat → Bool) : Slots :=
  { u with peer := fun p => { u.peer p with iChoke := c p } }

theorem Slots.withChoke_self : u.withChoke (fun p => (u.peer p).iChoke) = u := rfl

theorem Slots.setPeer_withChoke {b : Bool} :
    (u.withChoke c).setPeer p (fun peer => { peer with iChoke := b }) =
      u.withChoke (Function.update c p b) := by
  unfold setPeer withChoke
  congr 1
  funext p'
  by_cases here : p' = p
  · rw [here, Function.update_self, Function.update_self]
  · rw [Function.update_of_ne here, Function.update_of_ne here]

theorem Slots.unchoke_withChoke :
    (if ((u.withChoke c).peer p).iChoke then (u.withChoke c).peerUnchoke p else u.withChoke c) =
      u.withChoke (Function.update c p false) := by
  split
  · exact setPeer_withChoke
  · rename_i unchoked
    rw [Function.update_eq_self_iff.mpr (Bool.eq_false_iff.mpr unchoked).symm]

theorem Slots.choke_withChoke :
    (if ((u.withChoke c).peer p).iChoke then u.withChoke c else (u.withChoke c).peerChoke p) =
      u.withChoke (Function.update c p true) := by
  split
  · rename_i choked
    rw [Function.update_eq_self_iff.mpr (show true = c p from choked.symm)]
  · exact setPeer_withChoke

/-- The interested ones of some peers. -/
def Slots.wanting (u : Slots) (ws : List PeerSort) : Int :=
  (ws.countP fun w => (u.peer w.p).pWant : Nat)

theorem Slots.wanting_cons {w : PeerSort} {ws : List PeerSort} :
    u.wanting (w :: ws) = (if (u.peer w.p).pWant then 1 else 0) + u.wanting ws := by
  unfold wanting
  rw [List.countP_cons]
  split <;> push_cast <;> ring

/-- The first pass takes peers from the front of the list and leaves a slot. -/
theorem unchokeWorthy_spec (maxUploads : Int) (ws : List PeerSort) (found : Int)
    (unchoked : List Nat) (c : Nat → Bool) (room : found ≤ maxUploads - 1) :
    ∃ taken c', unchokeWorthy maxUploads ws found unchoked (u.withChoke c) =
        (found + u.wanting taken, (taken.map PeerSort.i).reverse ++ unchoked, u.withChoke c') ∧
      taken <+: ws ∧ found + u.wanting taken ≤ maxUploads - 1 ∧
      (∀ w ∈ taken, c' w.p = false) ∧ ∀ p, c p = false → c' p = false := by
  induction ws generalizing found unchoked c with
  | nil =>
      refine ⟨[], c, ?_, List.prefix_refl [], ?_, nofun, fun _ free => free⟩ <;>
        simp [unchokeWorthy, Slots.wanting, room]
  | cons w ws ih =>
      unfold unchokeWorthy
      by_cases more : found < maxUploads - 1
      · rw [if_pos more, Slots.unchoke_withChoke]
        have room' : (if (u.peer w.p).pWant then found + 1 else found) ≤ maxUploads - 1 := by
          split
          · exact more
          · exact room
        obtain ⟨taken, c', ran, front, bound, free, stays⟩ :=
          ih _ (w.i :: unchoked) (Function.update c w.p false) room'
        have count : (if (u.peer w.p).pWant then found + 1 else found) + u.wanting taken =
            found + u.wanting (w :: taken) := by
          rw [Slots.wanting_cons]
          split <;> ring
        refine ⟨w :: taken, c', ?_, (List.prefix_cons_inj w).mpr front, count ▸ bound, ?_, ?_⟩
        · rw [← count, List.map_cons, List.reverse_cons, List.append_assoc]
          exact ran
        · intro w' mem
          rcases List.mem_cons.mp mem with rfl | mem
          · exact stays _ (Function.update_self ..)
          · exact free w' mem
        · intro p was
          refine stays p ?_
          by_cases here : p = w.p
          · rw [here, Function.update_self]
          · rw [Function.update_of_ne here, was]
      · rw [if_neg more]
        refine ⟨[], c, ?_, List.nil_prefix, ?_, nofun, fun _ free => free⟩ <;>
          simp [Slots.wanting, room]

/-- The interested peers that are not choked. -/
def Slots.serving (u : Slots) (c : Nat → Bool) (ws : List PeerSort) : Int :=
  (ws.countP fun w => (u.peer w.p).pWant && !c w.p : Nat)

theorem Slots.serving_cons {w : PeerSort} {ws : List PeerSort} :
    u.serving c (w :: ws) =
      (if (u.peer w.p).pWant && !c w.p then 1 else 0) + u.serving c ws := by
  unfold serving
  rw [List.countP_cons]
  split <;> push_cast <;> ring

/-- The second pass fills the slots that are left, and stops only when none is. -/
theorem chokeRest_spec (maxUploads : Int) (unchoked : List Nat) (ws : List PeerSort)
    (nodup : (ws.map PeerSort.p).Nodup) (found : Int) (c : Nat → Bool)
    (room : found ≤ maxUploads) (free : ∀ w ∈ ws, w.i ∈ unchoked → c w.p = false) :
    ∃ found' c', chokeRest maxUploads unchoked ws found (u.withChoke c) = u.withChoke c' ∧
      found' ≤ maxUploads ∧
      u.serving c' ws =
        u.wanting (ws.filter fun w => decide (w.i ∈ unchoked)) + (found' - found) ∧
      (found' < maxUploads → ∀ w ∈ ws, u.full w.p = false → c' w.p = false) ∧
      found ≤ found' ∧ ∀ p ∉ ws.map PeerSort.p, c' p = c p := by
  induction ws generalizing found c with
  | nil =>
      refine ⟨found, c, rfl, room, ?_, nofun, le_refl found, fun _ _ => rfl⟩
      simp [Slots.serving, Slots.wanting]
  | cons w ws ih =>
      rw [List.map_cons, List.nodup_cons] at nodup
      obtain ⟨fresh, nodup⟩ := nodup
      have others : ∀ w' ∈ ws, w'.p ≠ w.p := fun w' mem same =>
        fresh (same ▸ List.mem_map_of_mem mem)
      unfold chokeRest
      by_cases marked : w.i ∈ unchoked
      · rw [if_pos marked]
        obtain ⟨found', c', ran, bound, count, all, more, same⟩ :=
          ih nodup found c room fun w' mem => free w' (List.mem_cons_of_mem w mem)
        have here : c' w.p = false :=
          (same w.p fresh).trans (free w List.mem_cons_self marked)
        refine ⟨found', c', ran, bound, ?_, ?_, more, ?_⟩
        · rw [Slots.serving_cons, count, List.filter_cons_of_pos (by simpa using marked),
            Slots.wanting_cons, here]
          simp only [Bool.not_false, Bool.and_true]
          ring
        · intro left w' mem notFull
          rcases List.mem_cons.mp mem with rfl | mem
          · exact here
          · exact all left w' mem notFull
        · intro p away
          rw [List.map_cons, List.mem_cons, not_or] at away
          exact same p away.2
      · rw [if_neg marked, List.filter_cons_of_neg (by simpa using marked)]
        have freeAfter : ∀ b, ∀ w' ∈ ws, w'.i ∈ unchoked →
            Function.update c w.p b w'.p = false := fun b w' mem set =>
          (Function.update_of_ne (others w' mem) ..).trans
            (free w' (List.mem_cons_of_mem w mem) set)
        have away : ∀ b, ∀ p ∉ (w :: ws).map PeerSort.p, Function.update c w.p b p = c p ∧
            p ∉ ws.map PeerSort.p := by
          intro b p away
          rw [List.map_cons, List.mem_cons, not_or] at away
          exact ⟨Function.update_of_ne away.1 .., away.2⟩
        split
        case isTrue taken =>
          have room' : (if (u.peer w.p).pWant then found + 1 else found) ≤ maxUploads := by
            split
            · exact taken.1
            · exact room
          rw [Slots.unchoke_withChoke]
          obtain ⟨found', c', ran, bound, count, all, more, same⟩ :=
            ih nodup _ (Function.update c w.p false) room' (freeAfter false)
          have here : c' w.p = false := (same w.p fresh).trans (Function.update_self ..)
          refine ⟨found', c', ran, bound, ?_, ?_, ?_, ?_⟩
          · rw [Slots.serving_cons, count, here]
            simp only [Bool.not_false, Bool.and_true]
            split <;> ring
          · intro left w' mem notFull
            rcases List.mem_cons.mp mem with rfl | mem
            · exact here
            · exact all left w' mem notFull
          · refine le_trans ?_ more
            split
            · exact le_of_lt (lt_add_one found)
            · exact le_refl found
          · exact fun p out => (same p (away false p out).2).trans (away false p out).1
        case isFalse refused =>
          rw [Slots.choke_withChoke]
          obtain ⟨found', c', ran, bound, count, all, more, same⟩ :=
            ih nodup found (Function.update c w.p true) room (freeAfter true)
          have here : c' w.p = true := (same w.p fresh).trans (Function.update_self ..)
          refine ⟨found', c', ran, bound, ?_, ?_, more, ?_⟩
          · rw [Slots.serving_cons, count, here, Bool.not_true, Bool.and_false,
              if_neg Bool.false_ne_true]
            ring
          · intro left w' mem notFull
            rcases List.mem_cons.mp mem with rfl | mem
            · exact absurd ⟨lt_of_le_of_lt more left, notFull⟩ refused
            · exact all left w' mem notFull
          · exact fun p out => (same p (away true p out).2).trans (away true p out).1

/-! ## The bound -/

/-- The interested peers that are not choked. -/
def Slots.served (u : Slots) : Nat :=
  u.mPeerq.countP fun p => (u.peer p).pWant && !(u.peer p).iChoke

/-- The slots are not exceeded, and no peer that lacks a piece is choked while one is
free. -/
structure Slots.Bounded (u : Slots) (k : Nat) : Prop where
  served : u.served ≤ k
  all : 0 < k → u.served < k → ∀ p ∈ u.mPeerq, u.full p = false → (u.peer p).iChoke = false

theorem Slots.places_p : u.places.map PeerSort.p = u.mPeerq := by
  unfold places
  rw [List.map_map]
  exact List.zipIdx_map_fst 0 u.mPeerq

theorem Slots.places_nodup (nodup : u.mPeerq.Nodup) : u.places.Nodup := by
  refine List.Nodup.of_map PeerSort.p ?_
  rw [places_p]
  exact nodup

/-- A place has one peer. -/
theorem Slots.places_inj {w w' : PeerSort} (mem : w ∈ u.places) (mem' : w' ∈ u.places)
    (same : w.i = w'.i) : w = w' := by
  obtain ⟨⟨p, i⟩, place, rfl⟩ := List.mem_map.mp mem
  obtain ⟨⟨p', i'⟩, place', rfl⟩ := List.mem_map.mp mem'
  have here : u.mPeerq[i]? = some p := List.mem_zipIdx_iff_getElem?.mp place
  have here' : u.mPeerq[i']? = some p' := List.mem_zipIdx_iff_getElem?.mp place'
  obtain rfl : i = i' := same
  rw [here] at here'
  cases here'
  rfl

theorem Slots.served_withChoke : ((u.withChoke c).served : Int) = u.serving c u.places := by
  unfold serving served
  rw [show (u.withChoke c).mPeerq = u.places.map PeerSort.p from places_p.symm, List.countP_map]
  rfl

/-- The places that the first pass marks are those of the peers that it takes. -/
theorem Slots.wanting_marked {taken : List PeerSort} (nodup : u.mPeerq.Nodup)
    (takenNodup : taken.Nodup) (places : ∀ w ∈ taken, w ∈ u.places) :
    u.wanting (u.places.filter fun w => decide (w.i ∈ (taken.map PeerSort.i).reverse ++ [])) =
      u.wanting taken := by
  have perm : (u.places.filter fun w =>
      decide (w.i ∈ (taken.map PeerSort.i).reverse ++ [])).Perm taken := by
    refine (List.perm_ext_iff_of_nodup ((places_nodup nodup).filter _) takenNodup).mpr fun w => ?_
    rw [List.mem_filter, decide_eq_true_iff, List.append_nil, List.mem_reverse, List.mem_map]
    constructor
    · rintro ⟨mem, w', mem', same⟩
      exact places_inj (places w' mem') mem same ▸ mem'
    · exact fun mem => ⟨places w mem, w, mem, rfl⟩
  unfold wanting
  rw [perm.countP_eq]

theorem foldl_choke (ps : List Nat) (c : Nat → Bool) :
    ∃ c', ps.foldl (fun u p => if (u.peer p).iChoke then u else u.peerChoke p) (u.withChoke c) =
        u.withChoke c' ∧ (∀ p ∈ ps, c' p = true) ∧ ∀ p, c p = true → c' p = true := by
  induction ps generalizing c with
  | nil => exact ⟨c, rfl, nofun, fun _ choked => choked⟩
  | cons p ps ih =>
      rw [List.foldl_cons, Slots.choke_withChoke]
      obtain ⟨c', ran, all, stays⟩ := ih (Function.update c p true)
      refine ⟨c', ran, ?_, fun p' choked => stays p' ?_⟩
      · intro p' mem
        rcases List.mem_cons.mp mem with rfl | mem
        · exact stays _ (Function.update_self ..)
        · exact all p' mem
      · by_cases here : p' = p
        · rw [here, Function.update_self]
        · rw [Function.update_of_ne here, choked]

/-- Whatever the order of the peers, `choke_do` gives the slots away. -/
theorem chokeDo_spec {k : Nat} (nodup : u.mPeerq.Nodup) (limit : u.mMaxUploads = k) :
    ∃ c, chokeDo q r u = u.withChoke c ∧ (u.withChoke c).Bounded k := by
  unfold chokeDo
  rw [if_neg (by rw [limit]; exact not_lt.mpr (Int.natCast_nonneg k))]
  by_cases none : k = 0
  · rw [if_pos (by rw [limit, none]; rfl)]
    obtain ⟨c, ran, all, -⟩ := foldl_choke (u := u) u.mPeerq fun p => (u.peer p).iChoke
    refine ⟨c, ran, ?_, fun some => absurd none (Nat.ne_of_gt some)⟩
    refine le_of_eq_of_le (List.countP_eq_zero.mpr fun p mem => ?_) (Nat.zero_le k)
    simp [show ((u.withChoke c).peer p).iChoke = c p from rfl, all p mem]
  · have some : 0 < k := Nat.pos_of_ne_zero none
    rw [if_neg (by rw [limit]; exact_mod_cast none)]
    obtain ⟨taken, c₁, first, front, bound, free, -⟩ := unchokeWorthy_spec (u := u) u.mMaxUploads
      (q.sort (rateCmp r u) (u.places.filter fun w => worthy r u w.p)).reverse 0 []
      (fun p => (u.peer p).iChoke) (by rw [limit]; omega)
    have sorted := q.perm (rateCmp r u) (u.places.filter fun w => worthy r u w.p)
    have places : ∀ w ∈ taken, w ∈ u.places := fun w mem =>
      List.mem_of_mem_filter (sorted.subset (List.mem_reverse.mp (front.subset mem)))
    have takenNodup : taken.Nodup := by
      refine front.sublist.nodup (List.nodup_reverse.mpr ?_)
      exact sorted.nodup_iff.mpr ((Slots.places_nodup nodup).filter _)
    obtain ⟨found, c₂, second, room, count, all, -, -⟩ := chokeRest_spec (u := u) u.mMaxUploads
      ((taken.map PeerSort.i).reverse ++ []) u.places (by rw [Slots.places_p]; exact nodup)
      (0 + u.wanting taken) c₁ (by omega) fun w mem marked => by
        rw [List.append_nil, List.mem_reverse, List.mem_map] at marked
        obtain ⟨w', mem', same⟩ := marked
        exact Slots.places_inj (places w' mem') mem same ▸ free w' mem'
    rw [Slots.wanting_marked nodup takenNodup places, ← Slots.served_withChoke] at count
    have served : ((u.withChoke c₂).served : Int) = found := by
      rw [count]
      ring
    refine ⟨c₂, ?_, ?_, fun _ left p mem notFull => ?_⟩
    · rw [Slots.withChoke_self] at first
      dsimp only
      rw [first]
      exact second
    · rw [limit] at room
      omega
    · have place : p ∈ u.places.map PeerSort.p := Slots.places_p ▸ mem
      obtain ⟨w, there, rfl⟩ := List.mem_map.mp place
      exact all (by rw [limit]; omega) w there notFull

end Btpd.Upload
