import Btpd.Bandwidth.Budget

/-!
# The limits are kept

A call of `net_read` or `net_write` gives back the bytes that have gone, which are no more
than its argument unless that is zero.  So what has gone since the last heartbeat and what
is left make up the limit, as long as the limit is the same.
-/

namespace Btpd.Bandwidth

open Prog

variable {n n' n₀ : Net} {d : Dir} {p : Nat} {o : Outcome} {max wmax : UInt64} {peer : Peer}
  {callers : List Empty}

/-! ## What does not touch the limits -/

/-- Only the peers and the queues have changed. -/
structure Same (n n' : Net) : Prop where
  limit : n'.limit = n.limit
  budget : n'.budget = n.budget
  stage : n'.stage = n.stage
  book : n'.book = n.book

theorem Same.refl : Same n n := ⟨rfl, rfl, rfl, rfl⟩

theorem keeps_peerAt : Keeps whenReturns (Same n₀) (peerAt p) := by
  refine keeps_get fun callers n same => ?_
  split
  · exact wp_pure.mpr same
  · exact wp_fault.mpr trivial

theorem keeps_setPeer : Keeps whenReturns (Same n₀) (setPeer p peer) :=
  keeps_modify fun _ same => ⟨same.limit, same.budget, same.stage, same.book⟩

theorem keeps_unqueue : Keeps whenReturns (Same n₀) (unqueue d p) :=
  keeps_modify fun _ same => ⟨same.limit, same.budget, same.stage, same.book⟩

theorem keeps_peerKill : Keeps whenReturns (Same n₀) (peerKill p) := by
  refine keeps_seq keeps_peerAt fun peer => keeps_seq (keeps_when keeps_unqueue) fun _ => ?_
  refine keeps_seq (keeps_when keeps_unqueue) fun _ => keeps_modify fun _ same => ?_
  exact ⟨same.limit, same.budget, same.stage, same.book⟩

theorem keeps_peerSend {nb : NetBuf} : Keeps whenReturns (Same n₀) (peerSend p nb) :=
  keeps_seq keeps_peerAt fun _ => keeps_setPeer

theorem keeps_emptied : Keeps whenReturns (Same n₀) (emptied p peer) := by
  unfold emptied
  split
  · exact keeps_seq keeps_unqueue fun _ => keeps_setPeer
  · exact keeps_setPeer

theorem keeps_peerUnsend {i : Nat} : Keeps whenReturns (Same n₀) (peerUnsend p i) := by
  refine keeps_seq keeps_peerAt fun peer => keeps_when ?_
  exact keeps_seq keeps_setPeer fun _ => keeps_when keeps_emptied

theorem keeps_deed (deed : Deed) : Keeps whenReturns (Same n₀) deed.run := by
  cases deed with
  | create p =>
      refine keeps_get fun callers n same => ?_
      exact keeps_when keeps_setPeer callers n same
  | kill p => exact keeps_peerKill
  | send p nb => exact keeps_peerSend
  | unsend p i => exact keeps_peerUnsend

theorem keeps_parse {nread : UInt64} : Keeps whenReturns (Same n₀) (parse p nread o) := by
  refine keeps_seq keeps_peerAt fun peer => ?_
  split
  · exact keeps_setPeer
  · refine keeps_seq (keeps_forEach fun deed _ => keeps_deed deed) fun _ => ?_
    split
    · exact keeps_peerKill
    · exact keeps_seq keeps_peerAt fun _ => keeps_setPeer

/-! ## A transfer -/

/-- What a call of `net_read` or `net_write` with the argument `max` leaves behind. -/
structure Transferred (n : Net) (d : Dir) (max nbytes : UInt64) (n' : Net) : Prop where
  limit : n'.limit = n.limit
  budget : n'.budget = n.budget
  stage : n'.stage = n.stage
  other : ∀ d', d' ≠ d → n'.book d' = n.book d'
  book : n'.book d = ⟨(n.book d).moved + nbytes.toNat, (n.book d).fixed,
    (n.book d).unlimited || (max = 0 && n.limit d ≠ 0)⟩
  le : 0 < max → nbytes ≤ max

/-- The state after the call has been noted. -/
def Net.noted (n : Net) (d : Dir) (max : UInt64) : Net := { n with
  book := Function.update n.book d { n.book d with
    unlimited := (n.book d).unlimited || (max = 0 && n.limit d ≠ 0) } }

/-- Nothing has gone. -/
theorem Transferred.zero (same : Same (n.noted d max) n') : Transferred n d max 0 n' where
  limit := same.limit
  budget := same.budget
  stage := same.stage
  other d' ne := by
    rw [same.book]
    exact Function.update_of_ne ne ..
  book := by
    rw [same.book]
    exact Function.update_self ..
  le positive := UInt64.le_of_lt positive

/-- The state after bytes have gone. -/
def Net.recorded (n : Net) (d : Dir) (nbytes : Nat) : Net := { n with
  book := Function.update n.book d { n.book d with moved := (n.book d).moved + nbytes } }

theorem Transferred.some {nbytes : Nat} {iovs : List UInt64}
    (fits : 0 < max → (iovs.map UInt64.toNat).sum ≤ max.toNat)
    (same : Same ((n.noted d max).recorded d (transferred nbytes iovs)) n') :
    Transferred n d max (.ofNat (transferred nbytes iovs)) n' := by
  have small : transferred nbytes iovs ≤ 2 ^ 63 - 1 := Nat.min_le_right ..
  have toNat : (UInt64.ofNat (transferred nbytes iovs)).toNat = transferred nbytes iovs := by
    rw [UInt64.toNat_ofNat']
    exact Nat.mod_eq_of_lt (by omega)
  refine ⟨same.limit, same.budget, same.stage, fun d' ne => ?_, ?_, fun positive => ?_⟩
  · rw [same.book]
    exact (Function.update_of_ne ne ..).trans (Function.update_of_ne ne ..)
  · rw [same.book, toNat]
    unfold Net.recorded Net.noted
    dsimp only
    rw [Function.update_self, Function.update_self]
  · rw [UInt64.le_iff_toNat_le, toNat]
    refine Nat.le_trans ?_ (fits positive)
    exact Nat.le_trans (Nat.min_le_left ..) (Nat.min_le_right ..)

/-! ## `net_read` -/

/-- The two buffers take no more than the limit. -/
theorem Peer.readIov_le (positive : 0 < max) :
    ((peer.readIov max).map UInt64.toNat).sum ≤ max.toNat := by
  unfold readIov
  rw [if_pos positive]
  have first : (if max < peer.rest then max else peer.rest) ≤ max := by
    split
    case isTrue => exact UInt64.le_refl max
    case isFalse le => exact UInt64.not_lt.mp le
  generalize (if max < peer.rest then max else peer.rest) = used at first
  have left : (max - used).toNat = max.toNat - used.toNat := UInt64.toNat_sub_of_le _ _ first
  have second : (if max - used < grbuflen then max - used else grbuflen) ≤ max - used := by
    split
    case isTrue => exact UInt64.le_refl _
    case isFalse le => exact UInt64.not_lt.mp le
  rw [UInt64.le_iff_toNat_le] at first second
  simp only [List.map_cons, List.map_nil, List.sum_cons, List.sum_nil]
  omega

theorem Same.recorded {nbytes : Nat} (same : Same n n') :
    Same (n.recorded d nbytes) (n'.recorded d nbytes) where
  limit := same.limit
  budget := same.budget
  stage := same.stage
  book := by
    unfold Net.recorded
    rw [same.book]

/-- The peer is killed, and nothing has gone. -/
theorem killed_wp (same : Same (n.noted d max) n') :
    (do
      peerKill p
      pure 0 : NetRoutine UInt64).wp whenReturns callers (Transferred n d max) n' := by
  refine wp_seq (keeps_peerKill callers n' same) fun _ n₁ same₁ => ?_
  exact wp_pure.mpr (.zero same₁)

theorem netRead_wp : (netRead p max o).wp whenReturns callers (Transferred n .input max) n := by
  unfold netRead noteCall
  rw [wp_bind, wp_modify]
  change wp _ _ _ _ (n.noted .input max)
  refine wp_seq (keeps_peerAt callers _ .refl) fun peer n₁ same => ?_
  cases o.io with
  | again => exact wp_pure.mpr (.zero same)
  | error => exact killed_wp same
  | bytes nbytes =>
      dsimp only
      rw [wp_ite]
      split
      case isTrue => exact killed_wp same
      case isFalse =>
        unfold record
        rw [wp_bind, wp_modify]
        change wp _ _ _ _ (n₁.recorded .input (transferred nbytes (peer.readIov max)))
        refine wp_seq (keeps_parse callers _ same.recorded) fun _ n₂ same₂ => ?_
        exact wp_pure.mpr (.some Peer.readIov_le same₂)

/-! ## `net_write` -/

theorem NetBuf.iovLen_le {nb : NetBuf} {off : UInt64} : nb.iovLen off true wmax ≤ wmax := by
  unfold iovLen
  dsimp only
  split
  case isTrue => exact UInt64.le_refl wmax
  case isFalse le => exact UInt64.not_lt.mp fun more => le ⟨rfl, more⟩

/-- The buffers that are collected take no more than the limit. -/
theorem collect_le {fillFails : Bool} {room blocks : Nat} {off : UInt64} {outq outq' : List NetBuf}
    {iovs : List UInt64} (done : collect true fillFails room wmax blocks off outq = .done iovs outq') :
    (iovs.map UInt64.toNat).sum ≤ wmax.toNat := by
  induction room generalizing wmax blocks off outq outq' iovs with
  | zero =>
      unfold collect at done
      cases done
      exact Nat.zero_le _
  | succ room ih =>
      -- what one buffer takes is missing for those behind it
      have step {nb : NetBuf} {blocks : Nat} {rest : List NetBuf}
          (done : (collect true fillFails room (wmax - nb.iovLen off true wmax) blocks 0 rest).cons
            (nb.iovLen off true wmax) nb = .done iovs outq') :
          (iovs.map UInt64.toNat).sum ≤ wmax.toNat := by
        rcases collected : collect true fillFails room (wmax - nb.iovLen off true wmax) blocks 0
          rest with ⟨iovs', outq₁⟩ | _ | _
        · rw [collected] at done
          cases done
          have behind := ih collected
          have le : nb.iovLen off true wmax ≤ wmax := NetBuf.iovLen_le
          rw [UInt64.toNat_sub_of_le _ _ le] at behind
          rw [UInt64.le_iff_toNat_le] at le
          rw [List.map_cons, List.sum_cons]
          omega
        · rw [collected] at done
          cases done
        · rw [collected] at done
          cases done
      cases outq with
      | nil =>
          unfold collect at done
          cases done
          exact Nat.zero_le _
      | cons nb rest =>
          unfold collect at done
          split at done
          · cases done
            exact Nat.zero_le _
          · dsimp only at done
            rw [if_pos rfl] at done
            split at done
            · split at done
              · cases done
                exact Nat.zero_le _
              · split at done
                · cases done
                · split at done
                  · cases done
                  · exact step done
            · exact step done

theorem writeOut_wp {iovs : List UInt64} (same : Same (n.noted .output max) n')
    (fits : 0 < max → (iovs.map UInt64.toNat).sum ≤ max.toNat) (io : Io) :
    (writeOut p peer iovs io).wp whenReturns callers (Transferred n .output max) n' := by
  cases io with
  | again => exact wp_pure.mpr (.zero same)
  | error => exact killed_wp same
  | bytes nbytes =>
      unfold writeOut
      dsimp only
      rw [wp_ite]
      split
      case isTrue => exact killed_wp same
      case isFalse =>
        unfold record wrote
        rw [wp_bind, wp_modify]
        change wp _ _ _ _ (n'.recorded .output (transferred nbytes iovs))
        split
        · exact wp_fault.mpr trivial
        · refine wp_seq (keeps_setPeer callers _ same.recorded) fun _ n₂ same₂ => ?_
          exact wp_pure.mpr (.some fits same₂)

theorem netWrite_wp : (netWrite p max o).wp whenReturns callers (Transferred n .output max) n := by
  unfold netWrite noteCall
  rw [wp_bind, wp_modify]
  change wp _ _ _ _ (n.noted .output max)
  refine wp_seq (keeps_peerAt callers _ .refl) fun peer n₁ same => ?_
  split
  · exact wp_fault.mpr trivial
  · dsimp only
    split
    case h_1 => exact wp_fault.mpr trivial
    case h_2 => exact killed_wp same
    case h_3 iovs outq done =>
      refine wp_seq (keeps_setPeer callers n₁ same) fun _ n₂ same₂ => ?_
      refine writeOut_wp same₂ (fun positive => ?_) o.io
      rw [show decide (0 < max) = true from decide_eq_true positive] at done
      exact collect_le done

theorem transfer_wp : (transfer d p max o).wp whenReturns callers (Transferred n d max) n := by
  cases d with
  | input => exact netRead_wp
  | output => exact netWrite_wp

/-! ## The invariant -/

/-- No call was unlimited while there was a limit, and what has gone since the last heartbeat
and what is left make up the limit. -/
structure Net.Inv (n : Net) : Prop where
  limited : ∀ d, (n.book d).unlimited = false
  account : ∀ d, (n.book d).fixed = true → n.limit d ≠ 0 →
    (n.book d).moved + (n.budget d).toNat = (n.limit d).toNat

theorem Net.Inv.same (inv : n.Inv) (same : Same n n') : n'.Inv := by
  refine ⟨?_, ?_⟩
  · rw [same.book]
    exact inv.limited
  · rw [same.book, same.budget, same.limit]
    exact inv.account

/-- The stage does not matter. -/
theorem Net.Inv.stage {stage : Stage} (inv : n.Inv) : ({ n with stage := stage } : Net).Inv :=
  ⟨inv.limited, inv.account⟩

/-- There is no limit. -/
theorem unlimited_wp (inv : n.Inv) (none : n.limit d = 0) :
    (do let _ ← transfer d p 0 o : NetRoutine Unit).wp whenReturns callers
      (fun _ n' => n'.Inv) n := by
  refine wp_seq transfer_wp fun nbytes n' done => wp_pure.mpr ⟨fun d' => ?_, fun d' => ?_⟩
  · by_cases here : d' = d
    · subst here
      rw [done.book, none]
      simp [inv.limited]
    · rw [done.other d' here]
      exact inv.limited d'
  · rw [done.limit, done.budget]
    by_cases here : d' = d
    · subst here
      exact fun _ some => absurd none some
    · rw [done.other d' here]
      exact inv.account d'

theorem spend_wp (inv : n.Inv) (left : 0 < n.budget d) :
    (spend d p o).wp whenReturns callers (fun _ n' => n'.Inv) n := by
  unfold spend
  rw [wp_bind, wp_get]
  refine wp_seq transfer_wp fun nbytes n' done => wp_modify.mpr ⟨fun d' => ?_, fun d' => ?_⟩
  · dsimp only
    by_cases here : d' = d
    · subst here
      rw [done.book]
      have positive : ¬n.budget d' = 0 := fun zero => by
        rw [zero] at left
        exact absurd left (UInt64.lt_irrefl 0)
      simp [inv.limited, positive]
    · rw [done.other d' here]
      exact inv.limited d'
  · dsimp only
    rw [done.limit, done.budget]
    by_cases here : d' = d
    · subst here
      rw [done.book, Function.update_self]
      intro fixed some
      have le := done.le left
      have account := inv.account d' fixed some
      rw [UInt64.toNat_sub_of_le _ _ le]
      rw [UInt64.le_iff_toNat_le] at le
      dsimp only
      omega
    · rw [done.other d' here, Function.update_of_ne here]
      exact inv.account d'

theorem keeps_enqueue : Keeps whenReturns (Same n₀) (enqueue d p) := by
  refine keeps_seq keeps_peerAt fun peer => keeps_seq keeps_setPeer fun _ => ?_
  exact keeps_modify fun _ same => ⟨same.limit, same.budget, same.stage, same.book⟩

theorem keeps_dequeue {rest : List Nat} : Keeps whenReturns (Same n₀) (dequeue d p rest) := by
  refine keeps_seq (keeps_modify fun _ same => ?_) fun _ => ?_
  · exact ⟨same.limit, same.budget, same.stage, same.book⟩
  · exact keeps_seq keeps_peerAt fun _ => keeps_setPeer

theorem ioCb_wp (inv : n.Inv) :
    (ioCb d p o).wp whenReturns callers (fun _ n' => n'.Inv) n := by
  unfold ioCb
  rw [wp_bind, wp_get]
  split
  case isTrue none => exact unlimited_wp inv none
  case isFalse =>
    split
    case isTrue left => exact spend_wp inv left
    case isFalse =>
      exact wp_mono (keeps_enqueue callers n .refl) fun _ n' same => inv.same same

theorem serve_wp (inv : n.Inv) :
    (serve d o).wp whenReturns callers (fun _ n' => n'.Inv) n := by
  unfold serve
  rw [wp_bind, wp_get]
  split
  · exact wp_modify.mpr inv.stage
  · rename_i p rest queue
    split
    case isTrue none =>
      refine wp_seq (keeps_dequeue callers n .refl) fun _ n₁ same => ?_
      exact unlimited_wp (inv.same same) (same.limit ▸ none)
    case isFalse =>
      split
      case isTrue left =>
        refine wp_seq (keeps_dequeue callers n .refl) fun _ n₁ same => ?_
        exact spend_wp (inv.same same) (same.budget ▸ left)
      case isFalse => exact wp_modify.mpr inv.stage

theorem Net.Inv.refill (inv : n.Inv) : n.refill.Inv where
  limited := inv.limited
  account d _ _ := by
    unfold Net.refill
    dsimp only
    rw [UInt32.toNat_toUInt64, Nat.zero_add]

theorem Net.Inv.rate (inv : n.Inv) (up down : UInt32) : (n.rate up down).Inv where
  limited := inv.limited
  account d fixed some := by
    unfold Net.rate at fixed some ⊢
    dsimp only at fixed some ⊢
    obtain ⟨before, same⟩ := Bool.and_eq_true_iff.mp fixed
    have same := of_decide_eq_true same
    rw [← same] at some ⊢
    exact inv.account d before some

theorem netHandle_wp (inv : n.Inv) (event : NetEvent) :
    (netHandle event).wp whenReturns [] (fun _ n' => n'.Inv) n := by
  cases event with
  | ready d p o =>
      refine wp_bind.mpr (wp_get.mpr ?_)
      rw [wp_when]
      split
      · cases d with
        | input => exact ioCb_wp inv
        | output => exact ioCb_wp inv
      · exact inv
  | deeds ds =>
      refine wp_bind.mpr (wp_get.mpr ?_)
      rw [wp_when]
      split
      · refine wp_mono (keeps_forEach (fun deed _ => keeps_deed deed) [] n .refl) ?_
        exact fun _ n' same => inv.same same
      · exact inv
  | rate up down =>
      refine wp_bind.mpr (wp_get.mpr ?_)
      rw [wp_when]
      split
      · exact wp_modify.mpr (inv.rate up down)
      · exact inv
  | tick =>
      refine wp_bind.mpr (wp_get.mpr ?_)
      rw [wp_when]
      split
      · exact wp_modify.mpr inv.refill.stage
      · exact inv
  | turn o =>
      refine wp_bind.mpr (wp_get.mpr ?_)
      split
      · exact wp_pure.mpr inv
      · exact serve_wp inv

/-! ## Runs -/

theorem inv_of_netInit (init : n.Init) : n.Inv where
  limited d := by rw [init.book]
  account d _ _ := by
    rw [init.book, init.budget, UInt32.toNat_toUInt64, Nat.zero_add]

/-- In every state of a run and for both directions: `net_read` and `net_write` have never
been called without a limit while there was one, and when the limit is not zero and the same
since the last heartbeat, what has gone since then and what is left make up the limit. -/
theorem account_of_reachable (reached : limited.Reachable (fun _ => False) n) (d : Dir) :
    (n.book d).unlimited = false ∧
      ((n.book d).fixed = true → 0 < n.limit d →
        (n.book d).moved ≤ (n.limit d).toNat ∧
          (n.budget d).toNat = (n.limit d).toNat - (n.book d).moved) := by
  have inv : n.Inv := reached.invariant Net.Inv (fun _ => True) (fun _ => inv_of_netInit)
    fun n event _ inv => netHandle_wp inv event
  refine ⟨inv.limited d, fun fixed some => ?_⟩
  have account := inv.account d fixed fun none => by
    rw [none] at some
    exact absurd some (UInt32.lt_irrefl 0)
  exact ⟨by omega, by omega⟩

/-- Two peers under a limit of 100 bytes for reading. -/
def twoPeers : Net where
  peer p := if p < 2 then some {
    inBuf := false
    stBytes := 28
    off := 0
    outq := []
    outqOff := 0
    ioev := fun _ => true
    onQueue := fun _ => false } else none
  queue _ := []
  limit _ := 100
  budget _ := 100
  stage := .idle
  book _ := ⟨0, true, false⟩

theorem reachable_twoPeers : limited.Reachable (fun _ => False) twoPeers :=
  .start ⟨fun _ => rfl, fun _ => rfl, rfl, fun _ => rfl⟩

/-- A peer has sent many bytes. -/
def flooded : Outcome := ⟨.bytes 1000, [], some (false, 4, 0), false⟩

/-- The first peer uses up the limit, so that the second has to wait. -/
theorem account_of_reachable_twoPeers :
    ∃ n, limited.Reachable (fun _ => False) n ∧
      ((n.book .input).fixed = true ∧ n.limit .input = 100 ∧ n.queue .input = [1] ∧
        (n.book .input).moved = 100) ∧
      (n.budget .input).toNat = 0 := by
  obtain ⟨n, reached, fixed, limit, queue, moved⟩ := System.Reachable.of_after
    (P := fun n => (n.book .input).fixed = true ∧ n.limit .input = 100 ∧ n.queue .input = [1] ∧
      (n.book .input).moved = 100) [.ready .input 0 flooded, .ready .input 1 flooded]
    reachable_twoPeers (by decide +kernel)
  have account := (account_of_reachable reached .input).2 fixed (by rw [limit]; decide)
  refine ⟨n, reached, ⟨fixed, limit, queue, moved⟩, ?_⟩
  rw [account.2, limit, moved]
  rfl

end Btpd.Bandwidth
