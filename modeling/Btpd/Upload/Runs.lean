import Btpd.Upload.Events

/-!
# The slots are never exceeded

`choke_do` gives the slots away anew whenever an event could have changed how many
interested peers are served.  The other events leave that number alone, and leave no
peer behind that is choked for want of a slot.
-/

namespace Btpd.Upload

open Prog

variable {q : Qsort} {r : Rates} {u u' : Slots} {k n p : Nat} {callers : List Empty}
  {post : Unit → Slots → Prop}

/-! ## The invariant -/

/-- The queue holds the attached peers, and the pieces of each are counted. -/
structure Queued (k : Nat) (u : Slots) : Prop where
  limit : u.mMaxUploads = k
  nodup : u.mPeerq.Nodup
  mNpeers : u.mNpeers = u.mPeerq.length
  mem : ∀ p, p ∈ u.mPeerq ↔ u.Attached p
  belongs : ∀ n, ∀ p ∈ (u.net n).peers, (u.peer p).n = n
  peers_nodup : ∀ n, (u.net n).peers.Nodup
  inactive : ∀ n, (u.net n).active = false → (u.net n).peers = []
  fresh : ∀ p ∈ u.mPeerq, p < u.nextPeer
  counted : ∀ p ∈ u.mPeerq, (u.peer p).npieces =
    (List.range (u.net (u.peer p).n).npieces).countP (u.peer p).pieceField

/-- The queue is right and the slots are not exceeded. -/
structure Inv (k : Nat) (u : Slots) : Prop where
  queued : Queued k u
  bounded : u.Bounded k

/-- HAVE messages for pieces that do not exist are what is left open. -/
def contract : Contract Slots Empty Fault where
  bad _ := False
  allowed e := e = .fieldBounds ∨ e = .pieceBounds

theorem Queued.withChoke (queued : Queued k u) (c : Nat → Bool) : Queued k (u.withChoke c) := by
  rcases queued with ⟨h1, h2, h3, h4, h5, h6, h7, h8, h9⟩
  exact ⟨h1, h2, h3, h4, h5, h6, h7, h8, h9⟩

/-- `choke_do` makes the slots right. -/
theorem Queued.chokeDo (queued : Queued k u) : Inv k (chokeDo q r u) := by
  obtain ⟨c, ran, bounded⟩ := chokeDo_spec (q := q) (r := r) queued.nodup queued.limit
  rw [ran]
  exact ⟨queued.withChoke c, bounded⟩

/-! ## Changes of one peer -/

@[simp]
theorem Slots.setPeer_self {f : Peer → Peer} : (u.setPeer p f).peer p = f (u.peer p) :=
  Function.update_self ..

theorem Slots.setPeer_of_ne {f : Peer → Peer} {p' : Nat} (other : p' ≠ p) :
    (u.setPeer p f).peer p' = u.peer p' := Function.update_of_ne other ..

/-- What does not change about the peer does not change about any. -/
theorem Slots.setPeer_same {α : Type} {f : Peer → Peer} (g : Peer → α)
    (same : g (f (u.peer p)) = g (u.peer p)) (p' : Nat) :
    g ((u.setPeer p f).peer p') = g (u.peer p') := by
  by_cases here : p' = p
  · rw [here, setPeer_self, same]
  · rw [setPeer_of_ne here]

theorem Slots.full_setPeer {f : Peer → Peer} (tor : (f (u.peer p)).n = (u.peer p).n)
    (npieces : (f (u.peer p)).npieces = (u.peer p).npieces) (p' : Nat) :
    (u.setPeer p f).full p' = u.full p' := by
  unfold full
  rw [setPeer_same Peer.n tor, setPeer_same Peer.npieces npieces]
  rfl

theorem Queued.setPeer {f : Peer → Peer} (queued : Queued k u)
    (same : (f (u.peer p)).n = (u.peer p).n)
    (counted : p ∈ u.mPeerq → (f (u.peer p)).npieces =
      (List.range (u.net (u.peer p).n).npieces).countP (f (u.peer p)).pieceField) :
    Queued k (u.setPeer p f) := by
  have tor := Slots.setPeer_same Peer.n same
  constructor
  case limit => exact queued.limit
  case nodup => exact queued.nodup
  case mNpeers => exact queued.mNpeers
  case mem =>
    intro p'
    unfold Slots.Attached
    rw [tor]
    exact queued.mem p'
  case belongs =>
    intro n p' mem
    rw [tor]
    exact queued.belongs n p' mem
  case peers_nodup => exact queued.peers_nodup
  case inactive => exact queued.inactive
  case fresh => exact queued.fresh
  case counted =>
    intro p' mem
    rw [tor]
    by_cases here : p' = p
    · subst here
      rw [Slots.setPeer_self]
      exact counted mem
    · rw [Slots.setPeer_of_ne here]
      exact queued.counted p' mem

/-- The slots stay right when no peer starts or stops being served, becomes choked or
loses a piece. -/
theorem Slots.Bounded.congr (bounded : u.Bounded k) (queue : u'.mPeerq = u.mPeerq)
    (served : ∀ p ∈ u.mPeerq, ((u'.peer p).pWant && !(u'.peer p).iChoke) =
      ((u.peer p).pWant && !(u.peer p).iChoke))
    (choke : ∀ p ∈ u.mPeerq, (u'.peer p).iChoke = (u.peer p).iChoke)
    (full : ∀ p ∈ u.mPeerq, u'.full p = false → u.full p = false) : u'.Bounded k := by
  have same : u'.served = u.served := by
    unfold Slots.served
    rw [queue]
    refine List.countP_congr fun p mem => ?_
    rw [served p mem]
  constructor
  case served => rw [same]; exact bounded.served
  case all =>
    intro some left p mem notFull
    rw [queue] at mem
    rw [choke p mem]
    exact bounded.all some (same ▸ left) p mem (full p mem notFull)

/-- Interest changes nothing for a choked peer, and gives the slots away anew for one
that is not. -/
theorem interest_wp {b : Bool} (inv : Inv k u) :
    wp contract callers (do
        modify fun u => u.setPeer p fun peer => { peer with pWant := b }
        ulOnInterest q r p)
      (fun _ u' => Inv k u') u := by
  have queued : Queued k (u.setPeer p fun peer => { peer with pWant := b }) :=
    inv.queued.setPeer rfl (inv.queued.counted p)
  unfold ulOnInterest
  rw [wp_bind, wp_modify, wp_bind, wp_get, wp_when]
  split
  case isTrue => exact wp_modify.mpr queued.chokeDo
  case isFalse choked =>
    rw [Slots.setPeer_self, Bool.not_eq_false] at choked
    have choke := Slots.setPeer_same (u := u) (p := p)
      (f := fun peer => { peer with pWant := b }) Peer.iChoke rfl
    refine ⟨queued, inv.bounded.congr rfl ?_ (fun p' _ => choke p') ?_⟩
    · intro p' _
      by_cases here : p' = p
      · subst here
        rw [choke, show (u.peer p').iChoke = true from choked, Bool.not_true, Bool.and_false,
          Bool.and_false]
      · rw [Slots.setPeer_of_ne here]
    · intro p' _ notFull
      rw [Slots.full_setPeer rfl rfl] at notFull
      exact notFull

/-! ## Announced pieces -/

/-- The slots stay right when a peer announces pieces. -/
theorem Inv.announce {f : Peer → Peer} (inv : Inv k u) (tor : (f (u.peer p)).n = (u.peer p).n)
    (choke : (f (u.peer p)).iChoke = (u.peer p).iChoke)
    (want : (f (u.peer p)).pWant = (u.peer p).pWant)
    (counted : p ∈ u.mPeerq → (f (u.peer p)).npieces =
      (List.range (u.net (u.peer p).n).npieces).countP (f (u.peer p)).pieceField)
    (full : p ∈ u.mPeerq → (u.setPeer p f).full p = false → u.full p = false) :
    Inv k (u.setPeer p f) := by
  constructor
  case queued => exact inv.queued.setPeer tor counted
  case bounded =>
    refine inv.bounded.congr rfl ?_ ?_ ?_
    · intro p' _
      rw [Slots.setPeer_same Peer.iChoke choke, Slots.setPeer_same Peer.pWant want]
    · exact fun p' _ => Slots.setPeer_same Peer.iChoke choke p'
    · intro p' mem notFull
      by_cases here : p' = p
      · rw [here] at mem notFull ⊢
        exact full mem notFull
      · unfold Slots.full at notFull ⊢
        rw [Slots.setPeer_of_ne here] at notFull
        exact notFull

theorem peerOnHave_wp {index : Nat} (inv : Inv k u) (attached : u.Attached p) :
    (peerOnHave p index).wp contract callers (fun _ u' => Inv k u') u := by
  have queued := (inv.queued.mem p).mpr attached
  unfold peerOnHave
  rw [wp_bind, wp_get, wp_bind, wp_assert]
  split
  case isFalse => exact .inl rfl
  rw [wp_when]
  split
  case isFalse => exact inv
  case isTrue unset =>
    rw [wp_bind, wp_modify, wp_assert]
    split
    case isFalse => exact .inr rfl
    case isTrue inside =>
      have mem : index ∈ List.range (u.net (u.peer p).n).npieces := List.mem_range.mpr inside
      refine inv.announce rfl rfl rfl (fun _ => ?_) fun _ _ => ?_
      · change (u.peer p).npieces + 1 = List.countP _ _
        rw [Count.countP_update List.nodup_range mem unset, inv.queued.counted p queued]
      · refine decide_eq_false fun full => ?_
        have count := (inv.queued.counted p queued).symm.trans full
        have all := List.countP_eq_length.mp (count.trans List.length_range.symm)
        rw [all index mem] at unset
        cases unset

/-- The peer with the pieces of its bitfield that have been counted. -/
def Peer.announced (peer : Peer) (field : Nat → Bool) (npieces : Nat) : Peer :=
  { peer with pieceField := field, npieces := npieces }

theorem Slots.setPeer_congr {f g : Peer → Peer} (same : f (u.peer p) = g (u.peer p)) :
    u.setPeer p f = u.setPeer p g := by
  unfold setPeer
  rw [same]

theorem Slots.setPeer_setPeer {f g : Peer → Peer} :
    (u.setPeer p f).setPeer p g = u.setPeer p (g ∘ f) := by
  have both : (u.setPeer p f).setPeer p g = (u.setPeer p f).setPeer p fun _ => g (f (u.peer p)) :=
    setPeer_congr (congrArg g setPeer_self)
  rw [both]
  unfold setPeer
  rw [Function.update_idem]
  rfl

theorem peerOnBitfield_wp {field : Nat → Bool} (inv : Inv k u)
    (empty : (u.peer p).npieces = 0) :
    (peerOnBitfield p field).wp contract callers (fun _ u' => Inv k u') u := by
  unfold peerOnBitfield
  rw [wp_bind, wp_get, wp_bind, wp_assert, if_pos empty, wp_bind, wp_modify]
  generalize bits : (fun i => decide (i < fieldBits (u.net (u.peer p).n).npieces) && field i) = seen
  -- what is left to count is missing from `npieces`
  refine wp_mono (wp_forEach (fun rest u' => u' = u.setPeer p fun peer => peer.announced seen
    ((List.range (u.net (u.peer p).n).npieces).countP seen - rest.countP seen)) ?_ ?_)
    fun _ u' done => ?_
  · rintro i rest _ suffix rfl
    have count := suffix.sublist.countP_le (p := seen)
    have field : ∀ c, ((u.peer p).announced seen c).pieceField = seen := fun _ => rfl
    rw [wp_bind, wp_get, wp_when, Slots.setPeer_self, field]
    by_cases set : seen i = true
    · rw [List.countP_cons_of_pos set] at count ⊢
      rw [if_pos set, wp_modify, Slots.setPeer_setPeer]
      have next : (List.range (u.net (u.peer p).n).npieces).countP seen -
          (rest.countP seen + 1) + 1 =
          (List.range (u.net (u.peer p).n).npieces).countP seen - rest.countP seen := by omega
      exact Slots.setPeer_congr (congrArg ((u.peer p).announced seen) next)
    · rw [List.countP_cons_of_neg set, if_neg set]
  · rw [Nat.sub_self]
    refine Slots.setPeer_congr ?_
    unfold Peer.announced
    rw [← empty, ← bits]
  · rw [done, List.countP_nil, Nat.sub_zero]
    refine inv.announce rfl rfl rfl (fun _ => rfl) fun mem notFull => ?_
    refine decide_eq_false fun full => ?_
    rw [empty] at full
    unfold Slots.full at notFull
    rw [Slots.setPeer_self] at notFull
    refine of_decide_eq_false notFull ?_
    change (List.range (u.net (u.peer p).n).npieces).countP seen = (u.net (u.peer p).n).npieces
    rw [← full]
    rfl

/-! ## The queue -/

theorem Queued.perm (queued : Queued k u) {ps : List Nat} (perm : ps.Perm u.mPeerq) (cbCount : Nat) :
    Queued k { u with mPeerq := ps, cbCount := cbCount } where
  limit := queued.limit
  nodup := perm.nodup_iff.mpr queued.nodup
  mNpeers := queued.mNpeers.trans perm.length_eq.symm
  mem p := perm.mem_iff.trans (queued.mem p)
  belongs := queued.belongs
  peers_nodup := queued.peers_nodup
  inactive := queued.inactive
  fresh p mem := queued.fresh p (perm.mem_iff.mp mem)
  counted p mem := queued.counted p (perm.mem_iff.mp mem)

theorem shuffleOptimists_perm (u : Slots) (i : Nat) (ps : List Nat) :
    (shuffleOptimists u i ps).Perm ps := by
  induction i generalizing ps with
  | zero => exact .refl ps
  | succ i ih =>
      cases ps with
      | nil => exact .refl []
      | cons p ps =>
          unfold shuffleOptimists
          split
          · exact .refl _
          · exact (ih _).trans (List.perm_append_singleton p ps)

theorem chokeCb_wp (inv : Inv k u) :
    (chokeCb q r).wp contract callers (fun _ u' => Inv k u') u := by
  unfold chokeCb
  rw [wp_bind, wp_modify, wp_bind, wp_get, wp_bind, wp_when]
  split
  case isTrue =>
    rw [wp_modify, wp_modify]
    exact (inv.queued.perm (shuffleOptimists_perm _ _ _) _).chokeDo
  case isFalse =>
    rw [wp_modify]
    exact (inv.queued.perm (.refl _) _).chokeDo

@[simp]
theorem Slots.setNet_self {f : Net → Net} : (u.setNet n f).net n = f (u.net n) :=
  Function.update_self ..

theorem Slots.setNet_of_ne {f : Net → Net} {n' : Nat} (other : n' ≠ n) :
    (u.setNet n f).net n' = u.net n' := Function.update_of_ne other ..

theorem Slots.setNet_congr {f g : Net → Net} (same : f (u.net n) = g (u.net n)) :
    u.setNet n f = u.setNet n g := by
  unfold setNet
  rw [same]

theorem Slots.setNet_setNet {f g : Net → Net} :
    (u.setNet n f).setNet n g = u.setNet n (g ∘ f) := by
  have both : (u.setNet n f).setNet n g = (u.setNet n f).setNet n fun _ => g (f (u.net n)) :=
    setNet_congr (congrArg g setNet_self)
  rw [both]
  unfold setNet
  rw [Function.update_idem]
  rfl

/-- The state in which `choke_do` runs for a new peer. -/
def Slots.attach (u : Slots) (n : Nat) (queue : List Nat) : Slots :=
  { u with
    peer := Function.update u.peer u.nextPeer ⟨n, 0, fun _ => false, true, false⟩
    net := Function.update u.net n { u.net n with peers := u.nextPeer :: (u.net n).peers }
    nextPeer := u.nextPeer + 1
    mNpeers := u.mNpeers + 1
    mPeerq := queue }

theorem Queued.attach (queued : Queued k u) (active : (u.net n).active = true) (ps : List Nat)
    (perm : ps.Perm (u.nextPeer :: u.mPeerq)) : Queued k (u.attach n ps) := by
  have unqueued : u.nextPeer ∉ u.mPeerq := fun mem => Nat.lt_irrefl _ (queued.fresh _ mem)
  have unlisted : ∀ m, u.nextPeer ∉ (u.net m).peers := fun m mem => by
    have tor := queued.belongs m _ mem
    refine unqueued ((queued.mem _).mpr ?_)
    unfold Slots.Attached
    rw [tor]
    exact mem
  have new : (u.attach n ps).peer u.nextPeer = ⟨n, 0, fun _ => false, true, false⟩ :=
    Function.update_self ..
  have old : ∀ p, p ≠ u.nextPeer → (u.attach n ps).peer p = u.peer p := fun p other =>
    Function.update_of_ne other ..
  have npieces : ∀ m, ((u.attach n ps).net m).npieces = (u.net m).npieces := by
    intro m
    by_cases here : m = n
    · rw [here, show (u.attach n ps).net n = _ from Function.update_self ..]
    · exact congrArg Net.npieces (Function.update_of_ne here ..)
  have listed : ∀ m p, p ∈ ((u.attach n ps).net m).peers ↔
      m = n ∧ p = u.nextPeer ∨ p ∈ (u.net m).peers := by
    intro m p
    by_cases here : m = n
    · rw [here, show (u.attach n ps).net n = _ from Function.update_self .., List.mem_cons]
      simp
    · rw [show (u.attach n ps).net m = u.net m from Function.update_of_ne here ..]
      simp [here]
  constructor
  case limit => exact queued.limit
  case nodup => exact perm.nodup_iff.mpr (List.nodup_cons.mpr ⟨unqueued, queued.nodup⟩)
  case mNpeers =>
    change u.mNpeers + 1 = ps.length
    rw [perm.length_eq, List.length_cons, queued.mNpeers]
  case mem =>
    intro p
    unfold Slots.Attached
    rw [listed, show (u.attach n ps).mPeerq = ps from rfl, perm.mem_iff, List.mem_cons]
    by_cases here : p = u.nextPeer
    · rw [here, new]
      simp
    · rw [old p here, queued.mem]
      simp [here, Slots.Attached]
  case belongs =>
    intro m p mem
    rcases (listed m p).mp mem with ⟨rfl, rfl⟩ | mem
    · rw [new]
    · rw [old p fun here => unlisted m (here ▸ mem)]
      exact queued.belongs m p mem
  case peers_nodup =>
    intro m
    by_cases here : m = n
    · rw [here, show (u.attach n ps).net n = _ from Function.update_self ..]
      exact List.nodup_cons.mpr ⟨unlisted n, queued.peers_nodup n⟩
    · rw [show (u.attach n ps).net m = u.net m from Function.update_of_ne here ..]
      exact queued.peers_nodup m
  case inactive =>
    intro m off
    by_cases here : m = n
    · rw [here, show (u.attach n ps).net n = _ from Function.update_self ..] at off
      exact absurd (active.symm.trans off) Bool.true_eq_false.mp
    · rw [show (u.attach n ps).net m = u.net m from Function.update_of_ne here ..] at off ⊢
      exact queued.inactive m off
  case fresh =>
    intro p mem
    rcases List.mem_cons.mp (perm.mem_iff.mp mem) with rfl | mem
    · exact Nat.lt_succ_self _
    · exact Nat.lt_succ_of_lt (queued.fresh p mem)
  case counted =>
    intro p mem
    rw [npieces]
    rcases List.mem_cons.mp (perm.mem_iff.mp mem) with rfl | mem
    · rw [new]
      exact (List.countP_eq_zero.mpr fun _ _ => Bool.false_ne_true).symm
    · rw [old p fun here => unqueued (here ▸ mem)]
      exact queued.counted p mem

theorem peerOnShake_wp {place : Int} (inv : Inv k u) (active : (u.net n).active = true)
    (most : place ≤ u.mNpeers) :
    (peerOnShake q r n place).wp contract callers (fun _ u' => Inv k u') u := by
  have inside : place ≤ u.mPeerq.length := by
    rw [← inv.queued.mNpeers]
    exact most
  unfold peerOnShake ulOnNewPeer insertPeer
  rw [wp_bind, wp_get, wp_bind, wp_modify, wp_bind, wp_modify, wp_bind, wp_bind, wp_get, wp_bind,
    wp_assert, if_pos (by exact inside), wp_modify, wp_bind, wp_modify, wp_modify]
  refine (inv.queued.attach active (if place < 1 then u.nextPeer :: u.mPeerq
    else u.mPeerq.insertIdx place.toNat u.nextPeer) ?_).chokeDo
  split
  · exact .refl _
  · exact List.perm_insertIdx _ _ (by omega)

/-! ## Lost peers -/

/-- The state in which a peer has been lost. -/
def Slots.detach (u : Slots) (p : Nat) : Slots :=
  { u.setNet (u.peer p).n fun net => { net with peers := net.peers.erase p } with
    mPeerq := u.mPeerq.erase p
    mNpeers := u.mNpeers - 1 }

theorem Queued.detach (queued : Queued k u) (attached : u.Attached p) : Queued k (u.detach p) := by
  have mem := (queued.mem p).mpr attached
  have listed : ∀ m p', p' ∈ ((u.detach p).net m).peers ↔ p' ≠ p ∧ p' ∈ (u.net m).peers := by
    intro m p'
    by_cases here : m = (u.peer p).n
    · rw [here, show (u.detach p).net (u.peer p).n = _ from Function.update_self ..]
      exact (queued.peers_nodup _).mem_erase_iff
    · rw [show (u.detach p).net m = u.net m from Function.update_of_ne here ..]
      refine (and_iff_right_of_imp fun mem' => ?_).symm
      rintro rfl
      exact here (queued.belongs m p' mem').symm
  have npieces : ∀ m, ((u.detach p).net m).npieces = (u.net m).npieces := by
    intro m
    by_cases here : m = (u.peer p).n
    · rw [here, show (u.detach p).net (u.peer p).n = _ from Function.update_self ..]
    · exact congrArg Net.npieces (Function.update_of_ne here ..)
  constructor
  case limit => exact queued.limit
  case nodup => exact queued.nodup.erase p
  case mNpeers =>
    change u.mNpeers - 1 = (u.mPeerq.erase p).length
    rw [List.length_erase_of_mem mem, queued.mNpeers]
  case mem =>
    intro p'
    unfold Slots.Attached
    rw [listed]
    exact queued.nodup.mem_erase_iff.trans (and_congr_right fun _ => queued.mem p')
  case belongs => exact fun m p' mem' => queued.belongs m p' ((listed m p').mp mem').2
  case peers_nodup =>
    intro m
    by_cases here : m = (u.peer p).n
    · rw [here, show (u.detach p).net (u.peer p).n = _ from Function.update_self ..]
      exact (queued.peers_nodup _).erase p
    · rw [show (u.detach p).net m = u.net m from Function.update_of_ne here ..]
      exact queued.peers_nodup m
  case inactive =>
    intro m off
    refine List.eq_nil_iff_forall_not_mem.mpr fun p' mem' => ?_
    have was : (u.net m).active = false := by
      by_cases here : m = (u.peer p).n
      · rw [here, show (u.detach p).net (u.peer p).n = _ from Function.update_self ..] at off
        exact here ▸ off
      · rw [show (u.detach p).net m = u.net m from Function.update_of_ne here ..] at off
        exact off
    have there := ((listed m p').mp mem').2
    rw [queued.inactive m was] at there
    cases there
  case fresh => exact fun p' mem' => queued.fresh p' (List.mem_of_mem_erase mem')
  case counted =>
    intro p' mem'
    rw [npieces]
    exact queued.counted p' (List.mem_of_mem_erase mem')

/-- The slots stay right when a peer leaves the queue that was not served. -/
theorem Slots.Bounded.detach (bounded : u.Bounded k)
    (idle : ¬((u.peer p).pWant = true ∧ (u.peer p).iChoke = false)) :
    (u.detach p).Bounded k := by
  have full : ∀ p', (u.detach p).full p' = u.full p' := by
    intro p'
    unfold Slots.full
    by_cases here : (u.peer p').n = (u.peer p).n
    · rw [show (u.detach p).peer = u.peer from rfl, here,
        show (u.detach p).net (u.peer p).n = _ from Function.update_self ..]
    · rw [show (u.detach p).peer = u.peer from rfl,
        show (u.detach p).net (u.peer p').n = _ from Function.update_of_ne here ..]
  have served : (u.detach p).served = u.served := by
    change (u.mPeerq.erase p).countP _ = u.mPeerq.countP _
    rw [List.countP_erase, if_neg, Nat.sub_zero]
    · rfl
    · rintro ⟨-, counted⟩
      simp only [Bool.and_eq_true, Bool.not_eq_true'] at counted
      exact idle counted
  constructor
  case served => rw [served]; exact bounded.served
  case all =>
    intro some left p' mem notFull
    rw [full] at notFull
    exact bounded.all some (served ▸ left) p' (List.mem_of_mem_erase mem) notFull

theorem peerKill_wp (inv : Inv k u) (attached : u.Attached p) :
    (peerKill q r p).wp contract callers (fun _ u' => Inv k u') u := by
  have mem := (inv.queued.mem p).mpr attached
  have active : (u.net (u.peer p).n).active = true := by
    cases off : (u.net (u.peer p).n).active with
    | true => rfl
    | false =>
        unfold Slots.Attached at attached
        rw [inv.queued.inactive _ off] at attached
        cases attached
  have some : 0 < u.mNpeers := by
    rw [inv.queued.mNpeers]
    exact List.length_pos_of_mem mem
  unfold peerKill ulOnLostPeer
  rw [wp_bind, wp_get, wp_bind, wp_assert, if_pos (show p ∈ _ from attached), wp_bind, wp_modify,
    wp_when, if_pos active, wp_bind, wp_get, wp_bind, wp_assert,
    if_pos (by exact some), wp_bind, wp_assert,
    if_pos (by exact mem), wp_bind, wp_modify, wp_when]
  split
  case isTrue => exact wp_modify.mpr (inv.queued.detach attached).chokeDo
  case isFalse idle => exact ⟨inv.queued.detach attached, inv.bounded.detach idle⟩

/-! ## Stopped torrents -/

/-- The loop of `ul_on_lost_torrent` takes peers off the queue. -/
theorem removePeers_wp (ps : List Nat) (nodup : ps.Nodup) (queued : u.mPeerq.Nodup)
    (counted : u.mNpeers = u.mPeerq.length) (mem : ∀ p ∈ ps, p ∈ u.mPeerq)
    (met : ∀ qs, qs.Nodup → (∀ p, p ∈ qs ↔ p ∈ u.mPeerq ∧ p ∉ ps) →
      post () { u with mPeerq := qs, mNpeers := qs.length }) :
    (forEach ps removePeer).wp contract callers post u := by
  refine wp_mono (wp_forEach (fun rest u' => ∃ qs, u' = { u with
      mPeerq := qs, mNpeers := qs.length } ∧ qs.Nodup ∧
      ∀ p, p ∈ qs ↔ p ∈ u.mPeerq ∧ (p ∈ ps → p ∈ rest)) ?_ ?_) fun _ u' done => ?_
  · rintro p rest _ suffix ⟨qs, rfl, qsNodup, members⟩
    obtain ⟨notMem, -⟩ := List.nodup_cons.mp (suffix.sublist.nodup nodup)
    have listed : p ∈ ps := suffix.subset List.mem_cons_self
    have there : p ∈ qs := (members p).mpr ⟨mem p listed, fun _ => List.mem_cons_self⟩
    unfold removePeer
    rw [wp_bind, wp_get, wp_bind, wp_assert, if_pos (by exact there),
      wp_modify]
    refine ⟨qs.erase p, ?_, qsNodup.erase p, fun p' => ?_⟩
    · rw [List.length_erase_of_mem there]
    · rw [qsNodup.mem_erase_iff, members]
      constructor
      · rintro ⟨other, queued', left⟩
        exact ⟨queued', fun listed' => (List.mem_cons.mp (left listed')).resolve_left other⟩
      · rintro ⟨queued', left⟩
        refine ⟨?_, queued', fun listed' => List.mem_cons_of_mem p (left listed')⟩
        rintro rfl
        exact notMem (left listed)
  · exact ⟨u.mPeerq, by rw [← counted], queued, fun p => (and_iff_left_of_imp fun _ => id).symm⟩
  · obtain ⟨qs, rfl, qsNodup, members⟩ := done
    refine met qs qsNodup fun p => ?_
    rw [members, List.mem_nil_iff, imp_false]

/-- The torrent has no peers any more. -/
def Slots.emptied (u : Slots) (n : Nat) (ps : List Nat) : Slots :=
  u.setNet n fun net => { net with peers := ps }

/-- The peers of a torrent that is not active are killed. -/
theorem killPeers_wp (ps : List Nat) (listed : (u.net n).peers = ps)
    (belongs : ∀ p ∈ ps, (u.peer p).n = n) (inactive : (u.net n).active = false)
    (met : post () (u.emptied n [])) :
    (forEach ps (peerKill q r)).wp contract callers post u := by
  refine wp_mono (wp_forEach (fun rest u' => u' = u.emptied n rest) ?_ ?_) fun _ u' done => ?_
  · rintro p rest _ suffix rfl
    have tor : ((u.emptied n (p :: rest)).peer p).n = n :=
      belongs p (suffix.subset List.mem_cons_self)
    unfold peerKill
    rw [wp_bind, wp_get, tor]
    dsimp only
    have net : (u.emptied n (p :: rest)).net n = { u.net n with peers := p :: rest } :=
      Slots.setNet_self
    rw [net, wp_bind, wp_assert, if_pos List.mem_cons_self, wp_bind, wp_modify, wp_when, inactive,
      if_neg Bool.false_ne_true]
    unfold Slots.emptied
    rw [Slots.setNet_setNet]
    exact Slots.setNet_congr (by simp)
  · unfold Slots.emptied Slots.setNet
    rw [← listed, Function.update_eq_self]
  · rw [done]
    exact met

/-- What is left of the slots once a torrent has been stopped. -/
theorem Queued.stopped (queued : Queued k u) {qs : List Nat} (nodup : qs.Nodup)
    (members : ∀ p, p ∈ qs ↔ p ∈ u.mPeerq ∧ p ∉ (u.net n).peers) :
    Queued k { u.setNet n fun net => { net with active := false, peers := [] } with
      mPeerq := qs
      mNpeers := qs.length } := by
  have self : (u.setNet n fun net => { net with active := false, peers := [] }).net n =
      { u.net n with active := false, peers := [] } := Slots.setNet_self
  have others : ∀ m, m ≠ n →
      (u.setNet n fun net => { net with active := false, peers := [] }).net m = u.net m :=
    fun m other => Slots.setNet_of_ne other
  constructor
  case limit => exact queued.limit
  case nodup => exact nodup
  case mNpeers => rfl
  case mem =>
    intro p
    unfold Slots.Attached
    rw [show Slots.mPeerq _ = qs from rfl, members, queued.mem]
    change _ ↔ p ∈ ((u.setNet n fun net => { net with active := false, peers := [] }).net
      (u.peer p).n).peers
    by_cases here : (u.peer p).n = n
    · rw [here, self]
      unfold Slots.Attached
      rw [here]
      simp
    · rw [others _ here]
      exact and_iff_left fun listed => here (queued.belongs n p listed)
  case belongs =>
    intro m p mem
    change p ∈ ((u.setNet n fun net => { net with active := false, peers := [] }).net m).peers
      at mem
    by_cases here : m = n
    · rw [here, self] at mem
      cases mem
    · rw [others m here] at mem
      exact queued.belongs m p mem
  case peers_nodup =>
    intro m
    change ((u.setNet n fun net => { net with active := false, peers := [] }).net m).peers.Nodup
    by_cases here : m = n
    · rw [here, self]
      exact List.nodup_nil
    · rw [others m here]
      exact queued.peers_nodup m
  case inactive =>
    intro m off
    change ((u.setNet n fun net => { net with active := false, peers := [] }).net m).active = false
      at off
    change ((u.setNet n fun net => { net with active := false, peers := [] }).net m).peers = []
    by_cases here : m = n
    · rw [here, self]
    · rw [others m here] at off ⊢
      exact queued.inactive m off
  case fresh => exact fun p mem => queued.fresh p ((members p).mp mem).1
  case counted =>
    intro p mem
    change (u.peer p).npieces = (List.range ((u.setNet n fun net =>
      { net with active := false, peers := [] }).net (u.peer p).n).npieces).countP _
    by_cases here : (u.peer p).n = n
    · rw [here, self]
      exact here ▸ queued.counted p ((members p).mp mem).1
    · rw [others _ here]
      exact queued.counted p ((members p).mp mem).1

/-- A torrent changes that keeps its number of pieces. -/
theorem Slots.full_setNet {f : Net → Net} (npieces : (f (u.net n)).npieces = (u.net n).npieces)
    (p : Nat) : (u.setNet n f).full p = u.full p := by
  unfold full
  rw [show (u.setNet n f).peer = u.peer from rfl]
  by_cases here : (u.peer p).n = n
  · rw [here, setNet_self, npieces]
  · rw [setNet_of_ne here]

theorem Slots.Bounded.setNet {f : Net → Net} (bounded : u.Bounded k)
    (npieces : (f (u.net n)).npieces = (u.net n).npieces) : (u.setNet n f).Bounded k :=
  bounded.congr rfl (fun _ _ => rfl) (fun _ _ => rfl) fun p _ notFull => by
    rw [Slots.full_setNet npieces] at notFull
    exact notFull

theorem netStop_wp (inv : Inv k u) :
    (netStop q r n).wp contract callers (fun _ u' => Inv k u') u := by
  have queued := inv.queued
  have peers : ((u.setNet n fun net => { net with active := false }).net n).peers =
      (u.net n).peers := by rw [Slots.setNet_self]
  unfold netStop ulOnLostTorrent
  rw [wp_bind, wp_modify, wp_bind, wp_bind, wp_get, peers, wp_bind]
  refine removePeers_wp _ (queued.peers_nodup n) queued.nodup queued.mNpeers (fun p mem => ?_)
    fun qs nodup members => ?_
  · refine (queued.mem p).mpr ?_
    unfold Slots.Attached
    rw [queued.belongs n p mem]
    exact mem
  rw [wp_modify]
  obtain ⟨c, ran, bounded⟩ := chokeDo_spec (q := q) (r := r) (k := k)
    (u := { u.setNet n fun net => { net with active := false } with
      mPeerq := qs, mNpeers := qs.length }) nodup queued.limit
  rw [ran, wp_bind, wp_get]
  have same : ∀ f g : Net → Net, ({ u.setNet n f with
      mPeerq := qs, mNpeers := qs.length }.withChoke c).setNet n g =
      { u.setNet n (g ∘ f) with mPeerq := qs, mNpeers := qs.length }.withChoke c := by
    intro f g
    have both : (u.setNet n f).setNet n g = u.setNet n (g ∘ f) := Slots.setNet_setNet
    have net := congrArg Slots.net both
    unfold Slots.withChoke Slots.setNet at net ⊢
    rw [← net]
  refine killPeers_wp _ rfl (fun p mem => ?_) ?_ ?_
  · exact queued.belongs n p (peers ▸ mem)
  · have net : (u.setNet n fun net => { net with active := false }).net n =
        { u.net n with active := false } := Slots.setNet_self
    exact congrArg Net.active net
  · constructor
    case queued =>
      unfold Slots.emptied
      rw [same]
      exact (queued.stopped nodup members).withChoke c
    case bounded => exact bounded.setNet rfl

/-! ## Runs -/

theorem start_wp (inv : Inv k u) :
    Inv k (u.setNet n fun net => { net with active := true }) := by
  have queued := inv.queued
  have peers : ∀ m, ((u.setNet n fun net => { net with active := true }).net m).peers =
      (u.net m).peers := by
    intro m
    by_cases here : m = n
    · rw [here, Slots.setNet_self]
    · rw [Slots.setNet_of_ne here]
  have npieces : ∀ m, ((u.setNet n fun net => { net with active := true }).net m).npieces =
      (u.net m).npieces := by
    intro m
    by_cases here : m = n
    · rw [here, Slots.setNet_self]
    · rw [Slots.setNet_of_ne here]
  refine ⟨?_, inv.bounded.setNet rfl⟩
  constructor
  case limit => exact queued.limit
  case nodup => exact queued.nodup
  case mNpeers => exact queued.mNpeers
  case mem =>
    intro p
    unfold Slots.Attached
    rw [peers]
    exact queued.mem p
  case belongs => intro m p mem; rw [peers] at mem; exact queued.belongs m p mem
  case peers_nodup => intro m; rw [peers]; exact queued.peers_nodup m
  case inactive =>
    intro m off
    rw [peers]
    by_cases here : m = n
    · rw [here, Slots.setNet_self] at off
      cases off
    · rw [Slots.setNet_of_ne here] at off
      exact queued.inactive m off
  case fresh => exact queued.fresh
  case counted => intro p mem; rw [npieces]; exact queued.counted p mem

theorem ifAttached_wp {m : Routine Unit} (inv : Inv k u)
    (met : u.Attached p → m.wp contract callers (fun _ u' => Inv k u') u) :
    (ifAttached p m).wp contract callers (fun _ u' => Inv k u') u := by
  unfold ifAttached
  rw [wp_bind, wp_get, wp_when]
  split
  case isTrue attached => exact met attached
  case isFalse => exact inv

theorem handle_wp (inv : Inv k u) (e : Event) :
    (handle q e).wp contract callers (fun _ u' => Inv k u') u := by
  cases e with
  | start n => exact wp_modify.mpr (start_wp inv)
  | shake n place r =>
      unfold handle
      rw [wp_bind, wp_get, wp_when]
      split
      case isTrue can => exact peerOnShake_wp inv can.1 can.2.2
      case isFalse => exact inv
  | kill p r => exact ifAttached_wp inv (peerKill_wp inv)
  | interest p r =>
      refine ifAttached_wp inv fun _ => ?_
      unfold peerOnInterest
      rw [wp_bind, wp_get, wp_when]
      split
      case isTrue => exact interest_wp inv
      case isFalse => exact inv
  | uninterest p r =>
      refine ifAttached_wp inv fun _ => ?_
      unfold peerOnUninterest
      rw [wp_bind, wp_get, wp_when]
      split
      case isTrue => exact interest_wp inv
      case isFalse => exact inv
  | haveMsg p index => exact ifAttached_wp inv (peerOnHave_wp inv)
  | bitfield p field r =>
      refine ifAttached_wp inv fun attached => ?_
      unfold netOnBitfield
      rw [wp_bind, wp_get, wp_ite]
      split
      case isTrue empty => exact peerOnBitfield_wp inv empty
      case isFalse => exact peerKill_wp inv attached
  | stop n r => exact netStop_wp inv
  | choke r => exact chokeCb_wp inv

theorem inv_init (npieces : Nat → Nat) (k : Nat) : Inv k (.init npieces k) := by
  constructor
  case queued =>
    refine ⟨rfl, List.nodup_nil, rfl, fun p => ?_, nofun, fun _ => List.nodup_nil, fun _ _ => rfl,
      nofun, nofun⟩
    exact iff_of_false List.not_mem_nil List.not_mem_nil
  case bounded => exact ⟨Nat.zero_le k, nofun⟩

theorem inv_of_start (start : (system q k).start u) : Inv k u := by
  obtain ⟨npieces, rfl⟩ := start
  exact inv_init npieces k

theorem inv_of_reachable (reached : (system q k).Reachable (fun _ => False) u) : Inv k u :=
  reached.invariant (Inv k) contract.allowed (fun _ => inv_of_start) fun _ e _ inv =>
    handle_wp inv e

/-- Not more interested peers are served than there are slots, and while one is free
every interested peer is served that lacks a piece.  The queue that is counted holds
the attached peers.  No event fails a check, but a HAVE message for a piece that does
not exist touches memory outside the fields. -/
theorem slots_of_reachable (q : Qsort) (k : Nat)
    (reached : (system q k).Reachable (fun _ => False) u) :
    (u.mPeerq.Nodup ∧ ∀ p, p ∈ u.mPeerq ↔ ∃ n, p ∈ (u.net n).peers) ∧
      (u.mPeerq.countP fun p => (u.peer p).pWant && !(u.peer p).iChoke) ≤ k ∧
      (0 < k → (u.mPeerq.countP fun p => (u.peer p).pWant && !(u.peer p).iChoke) < k →
        ∀ p ∈ u.mPeerq, (u.peer p).pWant = true →
          (u.peer p).npieces ≠ (u.net (u.peer p).n).npieces → (u.peer p).iChoke = false) ∧
      ∀ e fault, (system q k).Faults (fun _ => False) u e fault →
        fault = .fieldBounds ∨ fault = .pieceBounds := by
  have inv := inv_of_reachable reached
  refine ⟨⟨inv.queued.nodup, fun p => ?_⟩, inv.bounded.served, ?_, ?_⟩
  · rw [inv.queued.mem]
    constructor
    · exact fun attached => ⟨_, attached⟩
    · rintro ⟨n, mem⟩
      unfold Slots.Attached
      rw [inv.queued.belongs n p mem]
      exact mem
  · exact fun some left p mem _ lacks =>
      inv.bounded.all some left p mem (decide_eq_false lacks)
  · intro e fault faults
    have allowed : contract.allowed fault := reached.fault_allowed
      (fun _ start => inv_of_start (k := k) start) (fun _ e _ inv => handle_wp inv e) faults
    exact allowed

/-- A `qsort` that keeps the order. -/
def Qsort.lazy : Qsort where
  sort _ xs := xs
  perm _ xs := .refl xs

/-- Rates at which every peer is worth a slot. -/
def Rates.busy : Rates := ⟨fun _ => true, fun _ => 1, fun _ => 1, fun _ => true⟩

/-- Two interested peers and one slot. -/
def oneSlot : List Event :=
  [.start 0, .shake 0 0 .busy, .shake 0 0 .busy, .interest 0 .busy, .interest 1 .busy]

theorem slots_of_reachable_oneSlot :
    ∃ u, (system .lazy 1).Reachable (fun _ => False) u ∧
      (u.mPeerq = [1, 0] ∧ (u.peer 0).pWant = true ∧ (u.peer 1).pWant = true) ∧
      (u.mPeerq.countP fun p => (u.peer p).pWant && !(u.peer p).iChoke) ≤ 1 := by
  have start : (system .lazy 1).Reachable (fun _ => False) (.init (fun _ => 2) 1) :=
    .start ⟨_, rfl⟩
  obtain ⟨u, reached, holds⟩ := System.Reachable.of_after
    (P := fun u => u.mPeerq = [1, 0] ∧ (u.peer 0).pWant = true ∧ (u.peer 1).pWant = true)
    oneSlot start (by decide +kernel)
  exact ⟨u, reached, holds, (slots_of_reachable .lazy 1 reached).2.1⟩

end Btpd.Upload
