import Btpd.Tracker.Postponed

/-!
# Rounds through the trackers of a tier

While its requests fail, a tier goes from one tracker that has not failed to the next one,
and begins a new round behind the last one.
-/

namespace Btpd.Tracker

open Prog

variable {n : Nat} {s s' s'' u : Trackers n} {i j : Fin n} {c x : Nat} {random : Nat}
  {res : TrResponse} {t t' : Tier} {R l : List Nat} {e : Event n}

/-- The trackers behind `c` that have not failed. -/
def Tier.behind (t : Tier) (c : Nat) : List Nat :=
  ((t.trackers.dropWhile (· != c)).drop 1).filter t.nonfailed

theorem Tier.nextNonfailed_eq : t.nextNonfailed c = (t.behind c).head? :=
  List.head?_filter.symm

theorem dropWhile_of_nodup {a b : List Nat} (nodup : (a ++ c :: b).Nodup) :
    (a ++ c :: b).dropWhile (· != c) = c :: b := by
  have other : ∀ y ∈ a, (y != c) = true := fun y mem => by
    rw [bne_iff_ne]
    rintro rfl
    have apart := (List.nodup_append'.mp nodup).2.2
    exact apart mem List.mem_cons_self
  rw [List.dropWhile_append_of_pos other, List.dropWhile_cons_of_neg (by simp)]

/-- A list of trackers around one of them. -/
theorem Tier.behind_of_split {a b : List Nat} (nodup : t.trackers.Nodup)
    (split : t.trackers = a ++ c :: b) : t.behind c = b.filter t.nonfailed := by
  unfold Tier.behind
  rw [split] at nodup ⊢
  rw [dropWhile_of_nodup nodup]
  rfl

/-- The trackers behind the next one. -/
theorem Tier.behind_next (nodup : t.trackers.Nodup) (mem : c ∈ t.trackers)
    (next : t.behind c = x :: R) : x ∈ t.trackers ∧ t.behind x = R := by
  obtain ⟨a, b, split⟩ := List.append_of_mem mem
  rw [t.behind_of_split nodup split] at next
  obtain ⟨b₁, b₂, rfl, -, -, rest⟩ := List.filter_eq_cons_iff.mp next
  have split' : t.trackers = (a ++ c :: b₁) ++ x :: b₂ := by
    rw [split, List.append_assoc, List.cons_append]
  rw [t.behind_of_split nodup split']
  refine ⟨?_, rest⟩
  rw [split']
  exact List.mem_append_right _ List.mem_cons_self

/-- The failure of `c` itself does not matter behind it. -/
theorem Tier.behind_fail {failure : Option (List UInt8)} (nodup : t.trackers.Nodup)
    (mem : c ∈ t.trackers) :
    ({ t with failure := Function.update t.failure c failure } : Tier).behind c = t.behind c := by
  obtain ⟨a, b, split⟩ := List.append_of_mem mem
  rw [t.behind_of_split nodup split]
  rw [Tier.behind_of_split (t := { t with failure := Function.update t.failure c failure })
    nodup split]
  refine List.filter_congr fun y mem' => ?_
  unfold Tier.nonfailed
  dsimp only
  rw [Function.update_of_ne]
  rintro rfl
  rw [split] at nodup
  exact (List.nodup_cons.mp (List.nodup_append'.mp nodup).2.1).1 mem'

/-! ## Failures -/

/-- The event brings no other result of the tier than a failure, and nobody stops it or tells
it that the download is complete. -/
def Event.Tries (s : Trackers n) (i : Fin n) : Event n → Prop
  | .report id r _ => ∀ treq res, s.reqs id = some treq → treq.tier = i →
      r.result treq = some res → res.type = .conn ∨ res.type = .fail
  | .timer _ | .others .. => True
  | .stop j | .complete j => j ≠ i
  | .start | .kill => False

/-- The tracker to which a step sends a request of the tier, if it sends one. -/
def contacted (t t' : Tier) : List Nat :=
  if t'.req.isSome = true ∧ t'.req ≠ t.req then t'.cur.toList else []

theorem contacted_of_free (free : t'.req = none) : contacted t t' = [] := by
  unfold contacted
  rw [free]
  exact if_neg fun some => Bool.false_ne_true some.1

/-- A stretch of a run in which the requests of the tier fail, with the trackers that it
contacts. -/
inductive Trying (i : Fin n) (s : Trackers n) : List Nat → Trackers n → Prop
  | here : Trying i s [] s
  | step {l : List Nat} {u u' : Trackers n} (e : Event n) : Trying i s l u → Aimed u e →
      e.Tries u i → (torrentTrackers n).Steps (fun _ => False) u e u' →
      Trying i s (l ++ contacted (u.tiers i) (u'.tiers i)) u'

/-- How far a tier is in the round `R` when it has contacted `l`: a request is outstanding,
or put off, or all trackers have failed. -/
inductive Phase (R l : List Nat) (t : Tier) : Prop
  | out (c : Nat) : t.req.isSome = true → t.cur = some c → c ∈ t.trackers →
      l ++ t.behind c = R → Phase R l t
  | putOff (c : Nat) : t.req = none → t.timer.isSome = true → t.cur = some c →
      c ∈ t.trackers → t.First → l ++ c :: t.behind c = R → Phase R l t
  | idle : t.active = false → l <+: R → Phase R l t

theorem Phase.fits (phase : Phase R l t) : l <+: R := by
  cases phase with
  | out c _ _ _ split => exact ⟨_, split⟩
  | putOff c _ _ _ _ _ split => exact ⟨_, split⟩
  | idle _ fits => exact fits

/-- Where a connection failure leads. -/
theorem resConn_outcome : (resConn i c random).wp whenReturns [] (fun _ s' =>
    (∃ x, (s.tiers i).nextNonfailed c = some x ∧
      Sends i (some x) (s.tiers i).event s s') ∨
    ((s.tiers i).nextNonfailed c = none ∧
      (s'.tiers i).badConns = (s.tiers i).badConns + 1 ∧
      (s'.tiers i).trackers = (s.tiers i).trackers)) s := by
  unfold resConn
  rw [wp_bind, getTier_wp]
  split
  case h_1 x next => exact wp_mono entrySend_sends fun _ s' sends => .inl ⟨x, next, sends⟩
  case h_2 next =>
    unfold outOfEntries
    rw [wp_bind, setTier_wp, wp_bind, getTier_wp]
    split
    · refine setTier_wp.mpr (.inr ⟨next, ?_, ?_⟩)
      · rw [setTier_self, setTier_self]
      · rw [setTier_self, setTier_self]
    split
    · refine wp_mono entrySend_sends fun _ s' sends => .inr ⟨next, ?_, ?_⟩
      · obtain ⟨timer, req, tier, -⟩ := sends.tier
        rw [tier, setTier_self]
      · obtain ⟨timer, req, tier, -⟩ := sends.tier
        rw [tier, setTier_self]
    split
    all_goals
      refine setTier_wp.mpr (.inr ⟨next, ?_, ?_⟩)
      · rw [setTier_self, setTier_self]
      · rw [setTier_self, setTier_self]

/-- What a failure makes of a tier that is in the round `R`: it goes on in the round, or it
has come to its end. -/
def Goes (R l : List Nat) (t t' : Tier) : Prop :=
  t'.trackers = t.trackers ∧
    ((t'.badConns = t.badConns ∧ Phase R (l ++ contacted t t') t') ∨
      (t'.badConns = t.badConns + 1 ∧ l = R))

/-- A tier that sends to the next tracker, or puts that off, goes on in the round. -/
theorem Sends.phase {ev : TrEvent} (sends : Sends i (some x) ev u s')
    (aims : u.Busy → (u.tiers i).trackers.find? (u.tiers i).nonfailed = some x)
    (mem : x ∈ (u.tiers i).trackers) (split : l ++ x :: (u.tiers i).behind x = R)
    (new : (s.tiers i).req ≠ some u.nextReq) :
    Phase R (l ++ contacted (s.tiers i) (s'.tiers i)) (s'.tiers i) := by
  obtain ⟨timer, req, tier, ⟨busy, pending, rfl, -⟩ | ⟨-, -, rfl, -⟩⟩ := sends.tier
  · have free : (s'.tiers i).req = none := by
      rw [tier]
    rw [contacted_of_free free, List.append_nil]
    refine .putOff x free ?_ ?_ ?_ (sends.first (aims busy)) ?_
    · rw [tier]
      exact pending
    · rw [tier]
    · rw [tier]
      exact mem
    · rw [tier]
      exact split
  · have sent : contacted (s.tiers i) (s'.tiers i) = [x] := by
      unfold contacted
      rw [tier]
      exact if_pos ⟨rfl, new.symm⟩
    rw [sent]
    refine .out x ?_ ?_ ?_ ?_
    · rw [tier]
      rfl
    · rw [tier]
    · rw [tier]
      exact mem
    · rw [tier, List.append_assoc]
      exact split

/-- A connection failure of the tracker that was contacted last. -/
theorem resConn_goes (clocks : u.nextReq = s.nextReq ∧ (u.Busy ↔ s.Busy))
    (tier : (u.tiers i).trackers = (s.tiers i).trackers ∧
      (u.tiers i).badConns = (s.tiers i).badConns)
    (nodup : (u.tiers i).trackers.Nodup) (mem : c ∈ (u.tiers i).trackers)
    (split : l ++ (u.tiers i).behind c = R) (aims : u.Busy → (u.tiers i).Aims c)
    (new : (s.tiers i).req ≠ some s.nextReq) :
    (resConn i c random).wp whenReturns [] (fun _ s' => Goes R l (s.tiers i) (s'.tiers i)) u := by
  refine wp_mono resConn_outcome fun _ s' outcome => ?_
  rcases outcome with ⟨x, next, sends⟩ | ⟨none, grown, same⟩
  · obtain ⟨timer, req, tier', -⟩ := sends.tier
    obtain ⟨rest, behind⟩ := List.head?_eq_some_iff.mp (Tier.nextNonfailed_eq.symm.trans next)
    obtain ⟨mem', behind'⟩ := Tier.behind_next nodup mem behind
    refine ⟨?_, .inl ⟨?_, ?_⟩⟩
    · rw [tier']
      exact tier.1
    · rw [tier']
      exact tier.2
    · refine sends.phase (fun busy => ?_) mem' ?_ (clocks.1 ▸ new)
      · have aims := aims busy
        unfold Tier.Aims at aims
        rw [next] at aims
        exact aims
      · rw [behind', ← behind]
        exact split
  · have empty := List.head?_eq_none_iff.mp (Tier.nextNonfailed_eq.symm.trans none)
    rw [empty, List.append_nil] at split
    exact ⟨same.trans tier.1, .inr ⟨tier.2 ▸ grown, split⟩⟩

/-- A failure of the tracker that was contacted last. -/
theorem trResult_goes (failed : res.type = .conn ∨ res.type = .fail)
    (nodup : (s.tiers i).trackers.Nodup) (cur : (s.tiers i).cur = some c)
    (mem : c ∈ (s.tiers i).trackers) (split : l ++ (s.tiers i).behind c = R)
    (aims : s.Busy → (s.tiers i).ResultAims res) (new : (s.tiers i).req ≠ some s.nextReq) :
    (trResult i res random).wp whenReturns [] (fun _ s' => Goes R l (s.tiers i) (s'.tiers i)) s := by
  unfold trResult
  rw [wp_bind, setTier_wp, wp_bind, getTier_wp, setTier_self]
  dsimp only
  unfold Tier.ResultAims at aims
  rw [cur] at aims
  rw [cur]
  rcases failed with type | type
  · rw [type] at aims ⊢
    refine resConn_goes ⟨rfl, .rfl⟩ ?_ ?_ ?_ ?_ ?_ new
    · rw [setTier_self]
      exact ⟨rfl, rfl⟩
    · rw [setTier_self]
      exact nodup
    · rw [setTier_self]
      exact mem
    · rw [setTier_self]
      exact split
    · rw [setTier_self]
      exact aims
  · rw [type] at aims ⊢
    dsimp only
    unfold resFail
    rw [wp_bind, setTier_wp, wp_bind, getTier_wp]
    split
    case isTrue =>
      refine setTier_wp.mpr ⟨?_, .inl ⟨?_, ?_⟩⟩
      · rw [setTier_self, setTier_self, setTier_self]
      · rw [setTier_self, setTier_self, setTier_self]
      · rw [setTier_self, setTier_self, setTier_self, contacted_of_free rfl, List.append_nil]
        exact .idle rfl ⟨_, split⟩
    case isFalse some_left =>
      rw [setTier_self, setTier_self] at some_left
      refine resConn_goes ⟨rfl, .rfl⟩ ?_ ?_ ?_ ?_ ?_ new
      · rw [setTier_self, setTier_self]
        exact ⟨rfl, rfl⟩
      · rw [setTier_self, setTier_self]
        exact nodup
      · rw [setTier_self, setTier_self]
        exact mem
      · rw [setTier_self, setTier_self]
        exact (congrArg (l ++ ·) (Tier.behind_fail (t := s.tiers i) nodup mem)).trans split
      · rw [setTier_self, setTier_self]
        exact fun busy => aims busy (Bool.not_eq_true _ ▸ some_left)

/-- A failure takes no round back. -/
theorem trResult_grows (failed : res.type = .conn ∨ res.type = .fail) :
    (trResult i res random).wp whenReturns [] (fun _ s' =>
      (s.tiers i).badConns ≤ (s'.tiers i).badConns) s := by
  have goes : ∀ (u : Trackers n) c, (u.tiers i).badConns = (s.tiers i).badConns →
      (resConn i c random).wp whenReturns [] (fun _ s' =>
        (s.tiers i).badConns ≤ (s'.tiers i).badConns) u := by
    intro u c same
    refine wp_mono resConn_outcome fun _ s' outcome => ?_
    rcases outcome with ⟨x, -, sends⟩ | ⟨-, grown, -⟩
    · obtain ⟨timer, req, tier, -⟩ := sends.tier
      rw [tier]
      exact same.ge
    · rw [grown, same]
      exact Nat.le_succ _
  unfold trResult
  rw [wp_bind, setTier_wp, wp_bind, getTier_wp]
  split
  case h_1 => exact wp_fault.mpr trivial
  case h_2 c _ =>
    rcases failed with type | type
    · rw [type]
      refine goes _ c ?_
      rw [setTier_self]
    · rw [type]
      dsimp only
      unfold resFail
      rw [wp_bind, setTier_wp, wp_bind, getTier_wp]
      split
      · refine setTier_wp.mpr (Nat.le_of_eq ?_)
        rw [setTier_self, setTier_self, setTier_self]
      · refine goes _ c ?_
        rw [setTier_self, setTier_self]

/-- The tier fails: its request has called back with the result. -/
structure Failing (e : Event n) (i : Fin n) (s s' : Trackers n) (res : TrResponse) : Prop where
  failed : res.type = .conn ∨ res.type = .fail
  out : ∃ id, (s.tiers i).req = some id
  aims : Aimed s e → s.Busy → (s.tiers i).ResultAims res
  returned : ∀ post : Tier → Prop, (∀ random, (trResult i res random).wp whenReturns []
    (fun _ s' => post (s'.tiers i)) s) → post (s'.tiers i)

/-- What a step of a stretch does to the tier: nothing, or its request fails, or its timer
fires. -/
theorem tries_cases (whole : s.Whole none) (alive : s.killed = false) (tries : e.Tries s i)
    (step : (torrentTrackers n).Steps (fun _ => False) s e s') :
    s'.tiers i = s.tiers i ∨ (∃ res, Failing e i s s' res) ∨
      ((s.tiers i).timer.isSome = true ∧
        Sends i ((s.tiers i).trackers.find? (s.tiers i).nonfailed) (s.tiers i).event s s') := by
  have apart : ∀ j, j ≠ i → Only j s s' → s'.tiers i = s.tiers i :=
    fun j ne only => only.others i (Ne.symm ne)
  cases e with
  | report id r random =>
      cases live : s.reqs id with
      | none =>
          left
          refine returned_of_steps (fun s' => s'.tiers i = s.tiers i) step alive ?_
          refine wp_bind.mpr (wp_get.mpr ?_)
          rw [live]
          exact wp_pure.mpr rfl
      | some treq =>
          by_cases here : treq.tier = i
          · cases result : r.result treq with
            | none =>
                left
                refine returned_of_steps (fun s' => s'.tiers i = s.tiers i) step alive ?_
                refine wp_bind.mpr (wp_get.mpr ?_)
                rw [live]
                exact wp_mono (report_of_none result) fun _ s' same => congrFun same.1 i
            | some res =>
                right
                left
                subst here
                refine ⟨res, tries treq res live rfl result, ⟨id, ?_⟩, fun aimed => ?_,
                  fun post met => ?_⟩
                · exact (whole.parts.live id treq live).resolve_left nofun
                · dsimp only [Aimed] at aimed
                  rw [live] at aimed
                  dsimp only at aimed
                  rw [result] at aimed
                  exact aimed alive
                · refine returned_of_steps (fun s' => post (s'.tiers treq.tier)) step alive ?_
                  refine wp_bind.mpr (wp_get.mpr ?_)
                  rw [live]
                  dsimp only
                  rw [report_of_some result]
                  refine wp_seq (met random) fun _ s₁ held => ?_
                  refine wp_mono httptrFree_effect fun _ s' same => ?_
                  rw [same.1]
                  exact held
          · left
            refine apart _ here (returned_of_steps (Only treq.tier s) step alive ?_)
            refine wp_bind.mpr (wp_get.mpr ?_)
            rw [live]
            exact wp_mono (wp_of_strict (report_wp whole live)) fun _ _ kept => kept.2
  | timer j =>
      cases pending : (s.tiers j).timer.isSome with
      | false =>
          left
          refine returned_of_steps (fun s' => s'.tiers i = s.tiers i) step alive ?_
          refine wp_bind.mpr (wp_get.mpr ?_)
          rw [wp_when, if_neg (by simp [pending])]
      | true =>
          by_cases here : j = i
          · subst here
            exact .inr (.inr ⟨pending, sends_of_timer alive pending step⟩)
          · left
            refine apart _ here (returned_of_steps (Only j s) step alive ?_)
            refine wp_bind.mpr (wp_get.mpr ?_)
            rw [wp_when, if_pos pending]
            exact wp_mono (wp_of_strict (tierTimerCb_wp whole pending)) fun _ _ kept => kept.2.1
  | start => exact tries.elim
  | stop j =>
      left
      refine apart _ tries (returned_of_steps (Only j s) step alive ?_)
      exact wp_mono (wp_of_strict (tierStop_wp whole)) fun _ _ kept => kept.2.1
  | complete j =>
      left
      refine apart _ tries (returned_of_steps (Only j s) step alive ?_)
      exact wp_mono (wp_of_strict (tierComplete_wp whole)) fun _ _ kept => kept.2.1
  | kill => exact tries.elim
  | others =>
      left
      exact returned_of_steps (fun s' => s'.tiers i = s.tiers i) step alive (wp_modify.mpr rfl)

theorem goes_of_same (phase : Phase R l t) (same : t' = t) : Goes R l t t' := by
  subst same
  have quiet : contacted t' t' = [] := if_neg fun sent => sent.2 rfl
  refine ⟨rfl, .inl ⟨rfl, ?_⟩⟩
  rw [quiet, List.append_nil]
  exact phase

/-- A step of a stretch takes the tier on in its round, or the round is complete. -/
theorem phase_step (inv : s.Inv) (nodup : (s.tiers i).trackers.Nodup)
    (phase : Phase R l (s.tiers i)) (aimed : Aimed s e) (tries : e.Tries s i)
    (step : (torrentTrackers n).Steps (fun _ => False) s e s') :
    Goes R l (s.tiers i) (s'.tiers i) := by
  cases killed : s.killed with
  | true => exact goes_of_same phase (by rw [eq_of_killed step killed])
  | false =>
      have whole := inv.whole killed
      rcases tries_cases whole killed tries step with same | ⟨res, failing⟩ | ⟨pending, sends⟩
      · exact goes_of_same phase same
      · obtain ⟨id, out⟩ := failing.out
        have active := whole.active_of_req out
        obtain ⟨-, -, treq, live, -⟩ := whole.parts.req i id out
        have new : (s.tiers i).req ≠ some s.nextReq := by
          rw [out]
          rintro ⟨⟩
          rw [whole.parts.fresh _ (Nat.le_refl _)] at live
          cases live
        cases phase with
        | out c _ cur mem split =>
            exact failing.returned (Goes R l (s.tiers i)) fun random =>
              trResult_goes failing.failed nodup cur mem split (failing.aims aimed) new
        | putOff c free =>
            rw [free] at out
            cases out
        | idle gone =>
            rw [gone] at active
            cases active
      · have active := whole.active_of_timer pending
        cases phase with
        | out c out =>
            exact absurd pending (((whole.settled i).waits active).mp out)
        | putOff c free _ cur mem first split =>
            have target : (s.tiers i).trackers.find? (s.tiers i).nonfailed = some c :=
              first.trans cur
            rw [target] at sends
            obtain ⟨timer, req, tier, -⟩ := sends.tier
            refine ⟨?_, .inl ⟨?_, sends.phase (fun _ => target) mem split ?_⟩⟩
            · rw [tier]
            · rw [tier]
            · rw [free]
              exact nofun
        | idle gone =>
            rw [gone] at active
            cases active

/-- No round is taken back. -/
theorem badConns_le (inv : s.Inv) (tries : e.Tries s i)
    (step : (torrentTrackers n).Steps (fun _ => False) s e s') :
    (s.tiers i).badConns ≤ (s'.tiers i).badConns := by
  cases killed : s.killed with
  | true => rw [eq_of_killed step killed]
  | false =>
      rcases tries_cases (inv.whole killed) killed tries step with same | ⟨res, failing⟩ | ⟨-, sends⟩
      · rw [same]
      · exact failing.returned (fun t => (s.tiers i).badConns ≤ t.badConns) fun random =>
          trResult_grows failing.failed
      · obtain ⟨timer, req, tier, -⟩ := sends.tier
        rw [tier]

/-! ## Stretches -/

theorem Trying.reachable (trying : Trying i s l s')
    (reached : (torrentTrackers n).Reachable (fun _ => False) s) :
    (torrentTrackers n).Reachable (fun _ => False) s' := by
  induction trying with
  | here => exact reached
  | step e _ _ _ step ih => exact .step ih step

/-- Along a stretch the tier is in the round that it was in at its start, or it has contacted
all trackers of the round. -/
theorem Trying.phase (trying : Trying i s l s')
    (reached : (torrentTrackers n).Reachable (fun _ => False) s)
    (nodup : (s.tiers i).trackers.Nodup) (phase : Phase R [] (s.tiers i)) :
    ((s'.tiers i).badConns = (s.tiers i).badConns ∧ Phase R l (s'.tiers i) ∧
        (s'.tiers i).trackers.Nodup) ∨
      ((s.tiers i).badConns < (s'.tiers i).badConns ∧ R <+: l) := by
  induction trying with
  | here => exact .inl ⟨rfl, phase, nodup⟩
  | @step l u u' e trying aimed tries step ih =>
      have inv := inv_of_reachable (trying.reachable reached)
      rcases ih with ⟨same, phase, nodup⟩ | ⟨more, all⟩
      · obtain ⟨trackers, ⟨kept, phase'⟩ | ⟨grown, rfl⟩⟩ :=
          phase_step inv nodup phase aimed tries step
        · exact .inl ⟨kept.trans same, phase', trackers ▸ nodup⟩
        · refine .inr ⟨?_, List.prefix_append _ _⟩
          rw [grown, same]
          exact Nat.lt_succ_self _
      · exact .inr ⟨Nat.lt_of_lt_of_le more (badConns_le inv tries step),
          all.trans (List.prefix_append _ _)⟩

/-- In a run in which no request is put off that is meant for another tracker than the first
one that has not failed: a request that is put off is made to the tracker and with the event
that it was meant for when the timer fires; and while the requests of a tier fail, the
trackers behind the one that was contacted last are contacted in their order, and no other
one before all of them have been, when `bad_conns` grows by one. -/
theorem rounds_of_within (within : (torrentTrackers n).Within Aimed s) :
    (∀ e s' i, Aimed s e → (torrentTrackers n).Steps (fun _ => False) s e s' →
      PutsOff s e s' i →
      ∀ u u' : Trackers n, u.killed = false → u.tiers i = s'.tiers i →
        (torrentTrackers n).Steps (fun _ => False) u (.timer i) u' →
        (u'.tiers i).cur = (s'.tiers i).cur ∧ (u'.tiers i).event = (s'.tiers i).event ∧
          (¬u.Busy → ∃ id, (u'.tiers i).req = some id ∧
            u'.reqs id = some ⟨i, (s'.tiers i).event, 0, false⟩)) ∧
      ∀ i c, s.killed = false → (s.tiers i).trackers.Nodup → (s.tiers i).req.isSome = true →
        (s.tiers i).cur = some c → ∀ l s', Trying i s l s' →
          ((s'.tiers i).badConns = (s.tiers i).badConns → l <+: (s.tiers i).behind c) ∧
          ((s.tiers i).badConns < (s'.tiers i).badConns → (s.tiers i).behind c <+: l) ∧
          ∀ e s'', Aimed s' e → e.Tries s' i →
            (torrentTrackers n).Steps (fun _ => False) s' e s'' →
            (s'.tiers i).badConns = (s.tiers i).badConns →
            (s''.tiers i).badConns ≠ (s.tiers i).badConns →
            l = (s.tiers i).behind c ∧ (s''.tiers i).badConns = (s.tiers i).badConns + 1 := by
  have reached := within.reachable
  constructor
  · intro e s' i aimed step off u u' alive same fired
    have first := first_of_putsOff aimed step off
    have pending : (u.tiers i).timer.isSome = true := by
      rw [same]
      exact off.pending
    have sends := sends_of_timer alive pending fired
    rw [same] at sends
    obtain ⟨timer, req, tier, sent⟩ := sends.tier
    refine ⟨?_, ?_, fun free => ?_⟩
    · rw [tier]
      exact first
    · rw [tier]
    · obtain ⟨busy, -⟩ | ⟨-, -, rfl, made, -⟩ := sent
      · exact absurd busy free
      · refine ⟨u.nextReq, ?_, made⟩
        rw [tier]
  · intro i c alive nodup out cur l s' trying
    have mem := ((inv_of_reachable reached).whole alive).parts.sane i |>.cur c cur
    have phase : Phase ((s.tiers i).behind c) [] (s.tiers i) := .out c out cur mem rfl
    have round := trying.phase reached nodup phase
    refine ⟨fun same => ?_, fun more => ?_, fun e s'' aimed tries step same changed => ?_⟩
    · rcases round with ⟨-, phase, -⟩ | ⟨more, -⟩
      · exact phase.fits
      · exact absurd same (Nat.ne_of_gt more)
    · rcases round with ⟨same, -, -⟩ | ⟨-, all⟩
      · exact absurd same (Nat.ne_of_gt more)
      · exact all
    · obtain ⟨-, phase, nodup'⟩ := round.resolve_right fun more => Nat.ne_of_gt more.1 same
      have inv := inv_of_reachable (trying.reachable reached)
      rcases (phase_step inv nodup' phase aimed tries step).2 with ⟨kept, -⟩ | ⟨grown, all⟩
      · exact absurd (kept.trans same) changed
      · exact ⟨all, same ▸ grown⟩

theorem begun_twoTrackers : (torrentTrackers 1).Within Aimed twoTrackers :=
  .start ⟨fun _ => ⟨nofun, fun _ => rfl, rfl, rfl, rfl, rfl, rfl, rfl, rfl, rfl⟩,
    fun _ => rfl, rfl, rfl⟩

/-- A connection that is refused. -/
def refused : Event 1 := .report 0 (.connect true) 0

/-- The first tracker refuses the connection ten seconds after the request was sent, and the
second one is contacted before `bad_conns` grows. -/
theorem rounds_of_within_refused : ∃ (s s' : Trackers 1) (l : List Nat),
    (torrentTrackers 1).Within Aimed s ∧ Trying 0 s l s' ∧ (s'.tiers 0).cur = some 2 ∧
      (s'.tiers 0).badConns = (s.tiers 0).badConns ∧ l <+: [2] := by
  obtain ⟨s, within, ⟨alive, nodup, out⟩, cur, behind, found⟩ :=
    System.Within.of_events (P := fun s : Trackers 1 =>
      (s.killed = false ∧ (s.tiers 0).trackers.Nodup ∧ (s.tiers 0).req.isSome = true) ∧
      (s.tiers 0).cur = some 1 ∧ (s.tiers 0).behind 1 = [2] ∧
      ((torrentTrackers 1).checked Aimed [refused] s).any (fun s' => decide
        ((s'.tiers 0).cur = some 2 ∧ (s'.tiers 0).badConns = (s.tiers 0).badConns)) = true)
      begun_twoTrackers [.start, .others 10 10 20] (by decide +kernel)
  obtain ⟨s', stepped, next⟩ := (Option.any_eq_true _ _).mp found
  obtain ⟨aimed, step⟩ := System.checked_singleton stepped
  obtain ⟨next, same⟩ := of_decide_eq_true next
  have tries : Event.Tries s 0 refused := by
    rintro treq res - - ⟨⟩
    exact .inl rfl
  have trying : Trying 0 s _ s' := Trying.here.step refused aimed tries step
  have round := ((rounds_of_within within).2 0 1 alive nodup out cur _ s' trying).1 same
  rw [behind] at round
  exact ⟨s, s', _, within, trying, next, same, round⟩

/-- The only tier has two trackers; the first one refuses the connection in the second in
which the request was sent, so that the request to the second one is put off.  When the timer
fires the first one is contacted again. -/
theorem not_same_tracker : ∃ (s s' u u' : Trackers 1),
    (torrentTrackers 1).Reachable (fun _ => False) s ∧
      (torrentTrackers 1).Steps (fun _ => False) s refused s' ∧ PutsOff s refused s' 0 ∧
      (torrentTrackers 1).Reachable (fun _ => False) u ∧ u.tiers 0 = s'.tiers 0 ∧ ¬u.Busy ∧
      (torrentTrackers 1).Steps (fun _ => False) u (.timer 0) u' ∧
      (s'.tiers 0).cur = some 2 ∧ (u'.tiers 0).cur = some 1 := by
  obtain ⟨s, s', reached, step, ⟨later, pending⟩, concerns, cur, alive, first⟩ :=
    System.Reachable.of_after_step (P := fun s s' : Trackers 1 =>
      (s.mTnextReq < s'.mTnextReq ∧ (s'.tiers 0).timer.isSome = true) ∧
      (s.reqs 0).isSome = true ∧ (s'.tiers 0).cur = some 2 ∧ s'.killed = false ∧
      (s'.tiers 0).trackers.find? (s'.tiers 0).nonfailed = some 1)
      [.start] refused begun_twoTrackers.reachable (by decide +kernel)
  obtain ⟨treq, live⟩ := Option.isSome_iff_exists.mp concerns
  -- two seconds later
  have waits : (handle (.others 10 11 12)).wp strict [] (fun _ (u : Trackers 1) => u.killed = false ∧
      u.tiers = s'.tiers ∧ ¬u.Busy) s' := by
    unfold handle
    rw [wp_bind, wp_get, wp_when, if_pos alive]
    have free : ¬(12 : Int) - reqDelay < 10 := by decide
    exact wp_modify.mpr ⟨alive, rfl, free⟩
  obtain ⟨_, u, waited, alive', tiers, free⟩ := returned_of_strict waits
  have reached' := (reached.step step).step ⟨waited, fun _ _ bad => bad⟩
  obtain ⟨_, u', fired, -⟩ := returned_of_strict (handle_wp (inv_of_reachable reached') (.timer 0))
  have sends := sends_of_timer alive' (tiers ▸ pending) ⟨fired, fun _ _ bad => bad⟩
  obtain ⟨timer, req, tier, -⟩ := sends.tier
  refine ⟨s, s', u, u', reached, step, ⟨⟨treq, live, Subsingleton.elim _ _⟩, later, pending⟩,
    reached', congrFun tiers 0, free, ⟨fired, fun _ _ bad => bad⟩, cur, ?_⟩
  rw [tier, tiers]
  exact first

end Btpd.Tracker
