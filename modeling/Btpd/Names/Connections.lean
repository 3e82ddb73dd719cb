import Btpd.Names.Steps
import Mathlib

/-!
# The steps of connections

A connection is asked for, tried with one address after the other, and given up.
-/

namespace Btpd.Names

open Prog

variable {s s' : Resolver} {i nc : Nat} {k : Contract Resolver Empty NameFault}
  {callers : List Empty}

/-! ## One index changes -/

/-- What is left to show when one lookup and its connection change. -/
theorem Inv.change (inv : Inv s) (i : Nat) (others : ∀ j, j ≠ i → SameAt s s' j)
    (asked : s'.asked = List.range s'.nextCtx) (conserved : s'.asked = s'.called ++ s'.pending)
    (nextConn : s'.nextConn = s'.nextCtx)
    (free : ∀ j, j ≠ i → s'.main.calls j = false → s.main.calls j = false)
    (calling : ∀ j ctx, j ≠ i → s'.main = .calling j ctx → s.main = .calling j ctx)
    (status : s'.main.calls i = false → Status s' i)
    (running : ∀ ctx, s'.main = .calling i ctx → Running s' i ctx)
    (once : (s'.told.map Prod.fst ++ s'.cancelled).Nodup) (owned : Owned s') : Inv s' where
  asked := asked
  conserved := conserved
  nextConn := nextConn
  status j free' := by
    by_cases here : j = i
    · subst here
      exact status free'
    · exact (inv.status j (free j here free')).of_same (others j here)
  running j ctx calls := by
    by_cases here : j = i
    · subst here
      exact running ctx calls
    · exact (inv.running j ctx (calling j ctx here calls)).of_same (others j here)
  once := once
  owned := owned

/-- The callback of one connection runs at a time. -/
theorem Main.calls_eq_true {m : Main} : m.calls i = true ↔ ∃ ctx, m = .calling i ctx := by
  cases m with
  | calling nc ctx =>
      constructor
      · intro same
        exact ⟨ctx, by rw [of_decide_eq_true same]⟩
      · rintro ⟨ctx', same⟩
        injection same with same
        exact decide_eq_true same
  | loop => exact iff_of_false Bool.false_ne_true fun ⟨_, same⟩ => nomatch same
  | splicing => exact iff_of_false Bool.false_ne_true fun ⟨_, same⟩ => nomatch same
  | running => exact iff_of_false Bool.false_ne_true fun ⟨_, same⟩ => nomatch same

theorem once_told {told : List (Nat × Told)} {cancelled : List Nat} {result : Told}
    (once : (told.map Prod.fst ++ cancelled).Nodup) (untold : i ∉ told.map Prod.fst)
    (kept : i ∉ cancelled) : ((told ++ [(i, result)]).map Prod.fst ++ cancelled).Nodup := by
  rw [List.map_append, List.append_assoc]
  apply List.nodup_middle.mpr
  apply List.nodup_cons.mpr
  constructor
  · rw [List.mem_append]
    exact not_or.mpr ⟨untold, kept⟩
  · exact once

theorem once_cancelled {told cancelled : List Nat} (once : (told ++ cancelled).Nodup)
    (untold : i ∉ told) (kept : i ∉ cancelled) : (told ++ (cancelled ++ [i])).Nodup := by
  rw [← List.append_assoc]
  apply List.nodup_middle.mpr
  apply List.nodup_cons.mpr
  rw [List.append_nil]
  constructor
  · rw [List.mem_append]
    exact not_or.mpr ⟨untold, kept⟩
  · exact once

/-! ## Descriptors -/

/-- The descriptor of a connection is closed or given away, and no longer watched. -/
theorem Owned.release {sd : Nat} (owned : Owned s) (watches : watched (s.conns i) = some sd)
    (others : ∀ j, j ≠ i → watched (s'.conns j) = watched (s.conns j))
    (here : watched (s'.conns i) = none) {v : Socket} (v_ne : v ≠ .ours)
    (sockets : s'.sockets = Function.update s.sockets sd v) (nextSd : s'.nextSd = s.nextSd) :
    Owned s' := by
  have ours : s.sockets sd = .ours := (owned.ours sd).mpr ⟨i, watches⟩
  constructor
  · intro x
    rw [sockets, Function.update_apply]
    constructor
    · intro held
      split at held
      · exact absurd held v_ne
      · rename_i other
        rcases (owned.ours x).mp held with ⟨j, found⟩
        refine ⟨j, ?_⟩
        rw [others j]
        · exact found
        · rintro rfl
          rw [watches] at found
          exact other (Option.some.inj found).symm
    · rintro ⟨j, found⟩
      by_cases same : j = i
      · rw [same, here] at found
        cases found
      · rw [others j same] at found
        have other : x ≠ sd := by
          rintro rfl
          exact same (owned.apart j i x found watches)
        rw [if_neg other]
        exact (owned.ours x).mpr ⟨j, found⟩
  · intro a b x foundA foundB
    have ne : ∀ j, watched (s'.conns j) = some x → j ≠ i := by
      rintro j found rfl
      rw [here] at found
      cases found
    rw [others a (ne a foundA)] at foundA
    rw [others b (ne b foundB)] at foundB
    exact owned.apart a b x foundA foundB
  · intro x beyond
    rw [nextSd] at beyond
    rw [sockets, Function.update_of_ne]
    · exact owned.fresh x beyond
    · rintro rfl
      rw [owned.fresh x beyond] at ours
      cases ours

/-- What has become of the addresses that were tried: the connection waits for a new descriptor,
or it is called back and every descriptor that was opened for it is closed or given away. -/
structure Attempt (nc : Nat) (ctx : Option Nat) (s : Resolver) (d d' : Nameconn)
    (sockets : Nat → Socket) (nextSd : Nat) (main : Main) (told : List (Nat × Told)) : Prop where
  aiHandle : d'.aiHandle = d.aiHandle
  aiRes : d'.aiRes = d.aiRes
  state : d'.state = d.state
  old : ∀ x < s.nextSd, sockets x = s.sockets x
  fresh : s.nextSd ≤ nextSd ∧ ∀ x, nextSd ≤ x → sockets x = .closed
  outcome : (∃ sd, s.nextSd ≤ sd ∧ d'.sd = some sd ∧ d'.writeEv = true ∧ main = s.main ∧
      told = s.told ∧ ∀ x, s.nextSd ≤ x → (sockets x = .ours ↔ x = sd)) ∨
    (d'.writeEv = false ∧ main = .calling nc ctx ∧ (∃ result, told = s.told ++ [(nc, result)]) ∧
      ∀ x, s.nextSd ≤ x → sockets x ≠ .ours)

/-- What `nc_connect` changes. -/
def Tried (nc : Nat) (ctx : Option Nat) (d : Nameconn) (s s' : Resolver) : Prop :=
  ∃ d' sockets nextSd main told, s' = { s with
      conns := Function.update s.conns nc (some d')
      sockets := sockets
      nextSd := nextSd
      main := main
      told := told } ∧ Attempt nc ctx s d d' sockets nextSd main told

theorem ncConnect_wp {ctx : Option Nat} {connects : Nat → Connect} {d : Nameconn} (left : Nat)
    (here : s.conns nc = some d) (idle : d.writeEv = false)
    (fresh : ∀ x, s.nextSd ≤ x → s.sockets x = .closed) :
    (ncConnect nc ctx connects left).wp strict callers (fun _ s' => Tried nc ctx d s s') s := by
  induction left generalizing s d with
  | zero =>
      unfold ncConnect setConn ncDone
      rw [wp_bind, wp_connAt here, wp_bind, wp_modify, wp_modify]
      refine ⟨{ d with aiCur := 0 }, s.sockets, s.nextSd, _, _, rfl, rfl, rfl, rfl,
        fun _ _ => rfl, ⟨le_rfl, fresh⟩, .inr ⟨idle, rfl, ⟨_, rfl⟩, ?_⟩⟩
      intro x beyond
      simp [fresh x beyond]
  | succ left ih =>
      unfold ncConnect setConn socket
      simp only [wp_bind, wp_connAt here, wp_get, wp_modify, wp_pure]
      have newest : ∀ (v : Socket) x, s.nextSd + 1 ≤ x →
          Function.update s.sockets s.nextSd v x = .closed := by
        intro v x beyond
        rw [Function.update_of_ne (Nat.ne_of_gt beyond)]
        exact fresh x (Nat.le_of_succ_le beyond)
      have old : ∀ (v : Socket), ∀ x < s.nextSd,
          Function.update s.sockets s.nextSd v x = s.sockets x := fun v x below =>
        Function.update_of_ne (Nat.ne_of_lt below) ..
      cases connects left with
      | done =>
          unfold ncDone
          rw [wp_modify]
          refine ⟨{ d with aiCur := left + 1, sd := some s.nextSd },
            Function.update s.sockets s.nextSd .given, s.nextSd + 1, .calling nc ctx,
            s.told ++ [(nc, .connected s.nextSd)], ?_, rfl, rfl, rfl,
            old _, ⟨Nat.le_succ _, newest _⟩, .inr ⟨idle, rfl, ⟨_, rfl⟩, ?_⟩⟩
          · simp only [Function.update_idem]
          · intro x beyond
            rw [Function.update_apply]
            split
            · simp
            · simp [fresh x beyond]
      | inProgress =>
          dsimp only
          rw [wp_modify]
          refine ⟨{ d with aiCur := left + 1, sd := some s.nextSd, writeEv := true },
            Function.update s.sockets s.nextSd .ours, s.nextSd + 1, s.main, s.told, ?_, rfl, rfl,
            rfl, old _, ⟨Nat.le_succ _, newest _⟩,
            .inl ⟨s.nextSd, le_rfl, rfl, rfl, rfl, rfl, ?_⟩⟩
          · simp only [Function.update_idem]
          · intro x beyond
            rw [Function.update_apply]
            split
            · rename_i same
              exact iff_of_true rfl same
            · rename_i other
              simp [fresh x beyond, other]
      | refused =>
          dsimp only
          have open_ : Function.update s.sockets s.nextSd .ours s.nextSd ≠ .closed := by
            simp
          rw [wp_bind, wp_close open_, Function.update_idem]
          apply wp_mono (ih (d := { d with aiCur := left + 1, sd := some s.nextSd })
            (Function.update_self ..) idle (newest _))
          rintro _ s' ⟨d', sockets, nextSd, main, told, rfl, attempt⟩
          refine ⟨d', sockets, nextSd, main, told, ?_, attempt.aiHandle, attempt.aiRes,
            attempt.state, ?_, ⟨Nat.le_of_succ_le attempt.fresh.1, attempt.fresh.2⟩, ?_⟩
          · simp only [Function.update_idem]
          · intro x below
            rw [attempt.old x (below.trans (Nat.lt_succ_self _))]
            exact old _ x below
          -- the descriptor that was refused is closed
          · have closed : sockets s.nextSd = .closed := by
              rw [attempt.old _ (Nat.lt_succ_self _)]
              exact Function.update_self ..
            rcases attempt.outcome with ⟨sd, beyond, sdEq, waits, mainEq, toldEq, ours⟩ |
              ⟨idle', mainEq, toldEq, none_⟩
            · refine .inl ⟨sd, Nat.le_of_succ_le beyond, sdEq, waits, mainEq, toldEq, ?_⟩
              intro x from_
              by_cases first : x = s.nextSd
              · simp [first, closed, Nat.ne_of_lt beyond]
              · exact ours x (Nat.lt_of_le_of_ne from_ (Ne.symm first))
            · refine .inr ⟨idle', mainEq, toldEq, fun x from_ => ?_⟩
              by_cases first : x = s.nextSd
              · simp [first, closed]
              · exact none_ x (Nat.lt_of_le_of_ne from_ (Ne.symm first))

/-- The descriptors after the addresses were tried. -/
theorem Owned.attempt {ctx : Option Nat} {d d' : Nameconn} {sockets : Nat → Socket}
    {nextSd : Nat} {main : Main} {told : List (Nat × Told)} (owned : Owned s)
    (unwatched : watched (s.conns nc) = none)
    (attempt : Attempt nc ctx s d d' sockets nextSd main told)
    (others : ∀ j, j ≠ nc → watched (s'.conns j) = watched (s.conns j))
    (here : s'.conns nc = some d') (socketsEq : s'.sockets = sockets)
    (nextEq : s'.nextSd = nextSd) : Owned s' := by
  have below : ∀ j x, watched (s.conns j) = some x → x < s.nextSd := by
    intro j x found
    by_contra beyond
    have ours := (owned.ours x).mpr ⟨j, found⟩
    rw [owned.fresh x (Nat.le_of_not_lt beyond)] at ours
    cases ours
  have ne : ∀ j x, watched (s.conns j) = some x → j ≠ nc := by
    rintro j x found rfl
    rw [unwatched] at found
    cases found
  have kept : ∀ x < s.nextSd, s'.sockets x = .ours ↔
      ∃ j, j ≠ nc ∧ watched (s'.conns j) = some x := by
    intro x old
    rw [socketsEq, attempt.old x old, owned.ours x]
    constructor
    · rintro ⟨j, found⟩
      refine ⟨j, ne j x found, ?_⟩
      rw [others j (ne j x found)]
      exact found
    · rintro ⟨j, other, found⟩
      rw [others j other] at found
      exact ⟨j, found⟩
  have fresh : ∀ x, s'.nextSd ≤ x → s'.sockets x = .closed := by
    rw [socketsEq, nextEq]
    exact attempt.fresh.2
  rcases attempt.outcome with ⟨sd, beyond, sdEq, waits, -, -, ours⟩ | ⟨idle, -, -, none_⟩
  · have watches : watched (s'.conns nc) = some sd := by
      rw [here]
      unfold watched
      cases d'
      dsimp only at sdEq waits ⊢
      rw [waits, sdEq]
    refine ⟨fun x => ?_, fun a b x foundA foundB => ?_, fresh⟩
    · by_cases old : x < s.nextSd
      · rw [kept x old]
        constructor
        · rintro ⟨j, -, found⟩
          exact ⟨j, found⟩
        · rintro ⟨j, found⟩
          refine ⟨j, ?_, found⟩
          rintro rfl
          rw [watches] at found
          cases found
          exact absurd old (Nat.not_lt.mpr beyond)
      · rw [socketsEq, ours x (Nat.le_of_not_lt old)]
        constructor
        · rintro rfl
          exact ⟨nc, watches⟩
        · rintro ⟨j, found⟩
          by_cases same : j = nc
          · rw [same, watches] at found
            exact (Option.some.inj found).symm
          · rw [others j same] at found
            exact absurd (below j x found) old
    · by_cases sameA : a = nc
      · by_cases sameB : b = nc
        · rw [sameA, sameB]
        · rw [others b sameB] at foundB
          rw [sameA, watches] at foundA
          cases foundA
          exact absurd (below b sd foundB) (Nat.not_lt.mpr beyond)
      · rw [others a sameA] at foundA
        by_cases sameB : b = nc
        · rw [sameB, watches] at foundB
          cases foundB
          exact absurd (below a sd foundA) (Nat.not_lt.mpr beyond)
        · rw [others b sameB] at foundB
          exact owned.apart a b x foundA foundB
  · have watches : watched (s'.conns nc) = none := by
      rw [here]
      unfold watched
      cases d'
      dsimp only at idle ⊢
      rw [idle]
    have other : ∀ j x, watched (s'.conns j) = some x → j ≠ nc := by
      rintro j x found rfl
      rw [watches] at found
      cases found
    refine ⟨fun x => ?_, fun a b x foundA foundB => ?_, fresh⟩
    · by_cases old : x < s.nextSd
      · rw [kept x old]
        constructor
        · rintro ⟨j, -, found⟩
          exact ⟨j, found⟩
        · rintro ⟨j, found⟩
          exact ⟨j, other j x found, found⟩
      · apply iff_of_false
        · rw [socketsEq]
          exact none_ x (Nat.le_of_not_lt old)
        · rintro ⟨j, found⟩
          rw [others j (other j x found)] at found
          exact old (below j x found)
    · rw [others a (other a x foundA)] at foundA
      rw [others b (other b x foundB)] at foundB
      exact owned.apart a b x foundA foundB

/-! ## Asking and giving up -/

theorem btpdNameConnect_inv (inv : Inv s) :
    btpdNameConnect.wp strict callers (fun _ s' => Inv s') s := by
  unfold btpdNameConnect btpdAddrinfo setConn
  simp only [wp_bind, wp_get, wp_modify, wp_pure]
  rw [inv.nextConn]
  have newest : s.nextCtx ∉ s.asked := by
    rw [inv.asked]
    exact fun mem => Nat.lt_irrefl _ (List.mem_range.mp mem)
  have unpended : s.nextCtx ∉ s.pending := fun pending =>
    Nat.lt_irrefl _ (inv.lt_of_pending pending)
  have uncalled : s.nextCtx ∉ s.called := fun called =>
    Nat.lt_irrefl _ (inv.lt_of_called called)
  have free : s.main.calls s.nextCtx = false := by
    cases calls : s.main.calls s.nextCtx with
    | false => rfl
    | true =>
        rcases Main.calls_eq_true.mp calls with ⟨ctx, calling⟩
        exact absurd (inv.running _ ctx calling).called uncalled
  rcases inv.status s.nextCtx free with ⟨-, ctx, conn, list, untold, kept⟩ |
    ⟨-, -, pending, -, -, -, -, -, -⟩ | ⟨-, -, called, -, -, -, -, -⟩ | ⟨called, -, -, -, -⟩
  · apply inv.change s.nextCtx
    · intro j other
      constructor
      · exact Function.update_of_ne other ..
      · exact Function.update_of_ne other ..
      · rfl
      · exact fun later => Nat.lt_of_le_of_ne later (Ne.symm other)
      · simp [Resolver.pending, other]
      · exact .rfl
      · exact id
      · exact .rfl
      · exact .rfl
    · show s.asked ++ [s.nextCtx] = List.range (s.nextCtx + 1)
      rw [inv.asked, List.range_succ]
    · show s.asked ++ [s.nextCtx] = s.called ++ (s.tmpq ++ s.tdCbs ++ s.worker.held ++
        (s.aiq ++ [s.nextCtx]))
      rw [inv.conserved]
      simp [Resolver.pending]
    · rfl
    · exact fun j _ => id
    · exact fun j ctx _ => id
    · intro _
      apply Status.lookup false none
      · simp [Resolver.pending]
      · exact Function.update_self ..
      · exact Function.update_self ..
      · exact list
      · apply iff_of_false Bool.false_ne_true
        intro answered
        apply unpended
        unfold Resolver.answered at answered
        unfold Resolver.pending
        rcases List.mem_append.mp answered with before | busy
        · exact List.mem_append_left _ (List.mem_append_left _ before)
        · apply List.mem_append_left
          apply List.mem_append_right
          cases here : s.worker with
          | answered ctx =>
              rw [here] at busy
              exact busy
          | posting ctx =>
              rw [here] at busy
              exact busy
          | _ =>
              rw [here] at busy
              cases busy
      · exact untold
      · exact iff_of_false kept Bool.false_ne_true
    · intro ctx calling
      exact absurd (inv.running _ ctx calling).called uncalled
    · exact inv.once
    · apply inv.owned.of_same
      · intro j
        show watched (Function.update s.conns s.nextCtx _ j) = _
        rw [Function.update_apply]
        split
        · rename_i same
          rw [same, conn]
          rfl
        · rfl
      · rfl
      · rfl
  · exact absurd pending unpended
  · exact absurd called uncalled
  · exact absurd called uncalled

/-- A lookup goes on without its connection. -/
theorem Inv.drop {answer : Option Answer} (inv : Inv s) (pending : i ∈ s.pending)
    (free : s.main.calls i = false)
    (list : s.lists i = hasList answer) (place : answer.isSome = true ↔ i ∈ s.answered)
    (untold : ¬ s.Knows i) (kept : i ∉ s.cancelled) (unwatched : watched (s.conns i) = none) :
    Inv { s with
      ctxs := Function.update s.ctxs i (some ⟨i, true, answer⟩)
      conns := Function.update s.conns i none
      cancelled := s.cancelled ++ [i] } := by
  apply inv.change i
  · intro j other
    constructor
    · exact Function.update_of_ne other ..
    · exact Function.update_of_ne other ..
    · rfl
    · exact id
    · exact .rfl
    · exact .rfl
    · exact id
    · exact .rfl
    · simp [other]
  · exact inv.asked
  · exact inv.conserved
  · exact inv.nextConn
  · exact fun j _ => id
  · exact fun j ctx _ => id
  · intro _
    apply Status.lookup true answer
    · exact pending
    · exact Function.update_self ..
    · exact Function.update_self ..
    · exact list
    · exact place
    · exact untold
    · simp
  · intro ctx calling
    rw [Main.calls_eq_true.mpr ⟨ctx, calling⟩] at free
    cases free
  · exact once_cancelled inv.once untold kept
  · apply inv.owned.of_same
    · intro j
      show watched (Function.update s.conns i none j) = _
      rw [Function.update_apply]
      split
      · rename_i same
        rw [same, unwatched]
        rfl
      · rfl
    · rfl
    · rfl

/-- A connection is closed before it is made. -/
theorem Inv.hangUp {sd : Nat} (inv : Inv s) (called : i ∈ s.called)
    (free : s.main.calls i = false) (ctx : s.ctxs i = none) (untold : ¬ s.Knows i)
    (kept : i ∉ s.cancelled) (watches : watched (s.conns i) = some sd) :
    Inv { s with
      sockets := Function.update s.sockets sd .closed
      lists := Function.update s.lists i false
      conns := Function.update s.conns i none
      cancelled := s.cancelled ++ [i] } := by
  apply inv.change i
  · intro j other
    constructor
    · rfl
    · exact Function.update_of_ne other ..
    · exact Function.update_of_ne other ..
    · exact id
    · exact .rfl
    · exact .rfl
    · exact id
    · exact .rfl
    · simp [other]
  · exact inv.asked
  · exact inv.conserved
  · exact inv.nextConn
  · exact fun j _ => id
  · exact fun j ctx _ => id
  · intro _
    apply Status.ended
    · exact called
    · exact ctx
    · exact Function.update_self ..
    · exact Function.update_self ..
    · simp
  · intro ctx calling
    rw [Main.calls_eq_true.mpr ⟨ctx, calling⟩] at free
    cases free
  · exact once_cancelled inv.once untold kept
  · apply inv.owned.release (v := .closed) watches
    · intro j other
      show watched (Function.update s.conns i none j) = _
      rw [Function.update_of_ne other]
    · show watched (Function.update s.conns i none i) = none
      rw [Function.update_self]
      rfl
    · exact nofun
    · rfl
    · rfl

theorem btpdNameConnectCancel_inv {d : Nameconn} (inv : Inv s) (here : s.conns i = some d)
    (free : s.main.calls i = false) :
    (btpdNameConnectCancel i).wp strict callers (fun _ s' => Inv s') s := by
  generalize loggedEq : ({ s with cancelled := s.cancelled ++ [i] } : Resolver) = logged
  have connsEq : logged.conns = s.conns := by rw [← loggedEq]
  have ctxsEq : logged.ctxs = s.ctxs := by rw [← loggedEq]
  unfold btpdNameConnectCancel
  rw [wp_bind, wp_connAt here, wp_bind, wp_modify, loggedEq]
  rcases inv.status i free with ⟨-, -, conn, -, -, -⟩ |
    ⟨cancel, answer, pending, ctx, conn, list, place, untold, gone⟩ |
    ⟨left, sd, called, ctx, conn, list, untold, kept⟩ | ⟨-, -, conn, -, -⟩
  · rw [conn] at here
    cases here
  · cases cancel with
    | true =>
        rw [conn] at here
        cases here
    | false =>
        have kept : i ∉ s.cancelled := fun mem => Bool.false_ne_true (gone.mp mem)
        rw [conn] at here
        cases here
        rw [← ctxsEq] at ctx
        rw [← connsEq] at conn
        dsimp only
        unfold btpdAddrinfoCancel setCtx
        rw [wp_bind, wp_bind, wp_ctxAt ctx, wp_modify]
        generalize droppedEq : ({ logged with
          ctxs := Function.update logged.ctxs i (some ⟨i, true, answer⟩) } : Resolver) = dropped
        have conn' : dropped.conns i = some ⟨i, none, 0, none, .ai, false⟩ := by
          rw [← droppedEq]
          exact conn
        unfold ncFree setConn
        rw [wp_bind, wp_connAt conn']
        dsimp only
        rw [wp_modify, ← droppedEq, ← loggedEq]
        apply inv.drop pending free list place untold kept
        rw [← connsEq, conn]
        rfl
  · rw [conn] at here
    cases here
    have watches : watched (s.conns i) = some sd := by
      rw [conn]
      rfl
    have open_ : logged.sockets sd ≠ .closed := by
      rw [← loggedEq]
      show s.sockets sd ≠ .closed
      rw [(inv.owned.ours sd).mpr ⟨i, watches⟩]
      exact nofun
    dsimp only
    rw [wp_bind, wp_close open_]
    generalize closedEq : ({ logged with
      sockets := Function.update logged.sockets sd .closed } : Resolver) = closed
    have conn' : closed.conns i = some ⟨i, some i, left, some sd, .conn, true⟩ := by
      rw [← closedEq, ← loggedEq]
      exact conn
    have list' : closed.lists i = true := by
      rw [← closedEq, ← loggedEq]
      exact list
    rw [wp_ncFree conn' (.inr ⟨rfl, list'⟩), ← closedEq, ← loggedEq]
    exact inv.hangUp called free ctx untold kept watches
  · rw [conn] at here
    cases here

end Btpd.Names
