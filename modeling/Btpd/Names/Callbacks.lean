import Btpd.Names.Connections
import Mathlib

/-!
# The steps with callbacks

The main thread calls back for the lookups that have been answered and for the descriptors that
can be written, and every step keeps the invariant.
-/

namespace Btpd.Names

open Prog

variable {s s' : Resolver} {i nc : Nat} {k : Contract Resolver Empty NameFault}
  {callers : List Empty}

/-! ## Callbacks -/

/-- A callback of a connection returns. -/
theorem ncReturn_inv {ctx : Option Nat} (inv : Inv s) (calling : s.main = .calling i ctx) :
    (ncReturn i ctx).wp strict callers (fun _ s' => Inv s') s := by
  have run := inv.running i ctx calling
  rcases run.conn with ⟨d, conn, idle, list⟩
  have after : ∀ {main : Main}, (∀ j, main.calls j = false) →
      Inv { s with
        ctxs := Function.update s.ctxs i none
        lists := Function.update s.lists i false
        conns := Function.update s.conns i none
        main := main } := by
    intro main none_
    apply inv.change i
    · intro j other
      constructor
      · exact Function.update_of_ne other ..
      · exact Function.update_of_ne other ..
      · exact Function.update_of_ne other ..
      · exact id
      · exact .rfl
      · exact .rfl
      · exact id
      · exact .rfl
      · exact .rfl
    · exact inv.asked
    · exact inv.conserved
    · exact inv.nextConn
    · intro j other _
      rw [calling]
      exact decide_eq_false fun same => other same.symm
    · intro j ctx' _ calls
      have none_ := none_ j
      rw [Main.calls_eq_true.mpr ⟨ctx', calls⟩] at none_
      cases none_
    · intro _
      apply Status.ended
      · exact run.called
      · exact Function.update_self ..
      · exact Function.update_self ..
      · exact Function.update_self ..
      · exact .inl run.told
    · intro ctx' calls
      have none_ := none_ i
      rw [Main.calls_eq_true.mpr ⟨ctx', calls⟩] at none_
      cases none_
    · exact inv.once
    · apply inv.owned.of_same
      · intro j
        show watched (Function.update s.conns i none j) = _
        rw [Function.update_apply]
        split
        · rename_i same
          rw [same, conn]
          unfold watched
          cases d
          dsimp only at idle ⊢
          rw [idle]
        · rfl
      · rfl
      · rfl
  unfold ncReturn
  rw [wp_bind, wp_ncFree conn list]
  rcases run.ctx with ⟨gone, rfl⟩ | ⟨there, rfl⟩
  · dsimp only
    rw [wp_modify]
    have result := after (fun _ => rfl : ∀ j, Main.loop.calls j = false)
    rw [← gone, Function.update_eq_self] at result
    exact result
  · generalize freedEq : ({ s with
      lists := Function.update s.lists i false
      conns := Function.update s.conns i none } : Resolver) = freed
    have there' : (freed.ctxs i).isSome = true := by
      rw [← freedEq]
      exact there
    dsimp only
    rw [wp_bind, wp_freeCtx there', wp_modify, ← freedEq]
    exact after fun _ => rfl

/-- In the middle of a step: the lookup `i` has been called back, and nothing else has changed
but its memory and its descriptor. -/
structure Between (s u : Resolver) (i : Nat) : Prop where
  others : ∀ j, j ≠ i → SameAt s u j
  asked : u.asked = List.range u.nextCtx
  conserved : u.asked = u.called ++ u.pending
  nextConn : u.nextConn = u.nextCtx
  free : ∀ j, s.main.calls j = false ∧ u.main.calls j = false
  called : i ∈ u.called
  untold : ¬ u.Knows i
  kept : i ∉ u.cancelled
  once : (u.told.map Prod.fst ++ u.cancelled).Nodup

theorem Main.not_calling {m : Main} {ctx : Option Nat} (free : ∀ j, m.calls j = false) (j : Nat) :
    m ≠ .calling j ctx := by
  intro calls
  have none_ := free j
  rw [Main.calls_eq_true.mpr ⟨ctx, calls⟩] at none_
  cases none_

/-- The callback of the connection is called. -/
theorem Between.calls {u : Resolver} {conns : Nat → Option Nameconn} {sockets : Nat → Socket}
    {nextSd : Nat} {ctx : Option Nat} {result : Told} {d : Nameconn} (inv : Inv s)
    (between : Between s u i) (others : ∀ j, j ≠ i → conns j = u.conns j)
    (here : conns i = some d) (idle : d.writeEv = false)
    (list : d.aiRes = none ∧ u.lists i = false ∨ d.aiRes = some i ∧ u.lists i = true)
    (memory : u.ctxs i = none ∧ ctx = none ∨ (u.ctxs i).isSome = true ∧ ctx = some i)
    (owned : Owned { u with conns := conns, sockets := sockets, nextSd := nextSd }) :
    Inv { u with
      conns := conns
      sockets := sockets
      nextSd := nextSd
      main := .calling i ctx
      told := u.told ++ [(i, result)] } := by
  apply inv.change i
  · intro j other
    have same := between.others j other
    constructor
    · exact same.ctxs
    · exact (others j other).trans same.conns
    · exact same.lists
    · exact same.later
    · exact same.pending
    · exact same.answered
    · exact same.called
    · rw [← same.told]
      unfold Resolver.Knows
      simp [other]
    · exact same.cancelled
  · exact between.asked
  · exact between.conserved
  · exact between.nextConn
  · exact fun j _ _ => (between.free j).1
  · intro j ctx' other calling
    injection calling with same
    exact absurd same.symm other
  · intro free
    rw [Main.calls_eq_true.mpr ⟨ctx, rfl⟩] at free
    cases free
  · intro ctx' calling
    injection calling with _ same
    rw [← same]
    constructor
    · exact between.called
    · exact memory
    · exact ⟨d, here, idle, list⟩
    · unfold Resolver.Knows
      simp
    · exact between.kept
  · exact once_told between.once between.untold between.kept
  · exact owned.of_same (fun _ => rfl) rfl rfl

/-- The connection waits for its descriptor, and its lookup is freed. -/
theorem Between.waits {u : Resolver} {conns : Nat → Option Nameconn} {sockets : Nat → Socket}
    {nextSd left sd : Nat} (inv : Inv s) (between : Between s u i)
    (others : ∀ j, j ≠ i → conns j = u.conns j)
    (here : conns i = some ⟨i, some i, left, some sd, .conn, true⟩) (list : u.lists i = true)
    (owned : Owned { u with conns := conns, sockets := sockets, nextSd := nextSd }) :
    Inv { u with
      ctxs := Function.update u.ctxs i none
      conns := conns
      sockets := sockets
      nextSd := nextSd } := by
  apply inv.change i
  · intro j other
    have same := between.others j other
    constructor
    · exact (Function.update_of_ne other ..).trans same.ctxs
    · exact (others j other).trans same.conns
    · exact same.lists
    · exact same.later
    · exact same.pending
    · exact same.answered
    · exact same.called
    · exact same.told
    · exact same.cancelled
  · exact between.asked
  · exact between.conserved
  · exact between.nextConn
  · exact fun j _ _ => (between.free j).1
  · intro j ctx _ calling
    exact absurd calling (Main.not_calling (fun j => (between.free j).2) j)
  · intro _
    apply Status.connecting left sd
    · exact between.called
    · exact Function.update_self ..
    · exact here
    · exact list
    · exact between.untold
    · exact between.kept
  · intro ctx calling
    exact absurd calling (Main.not_calling (fun j => (between.free j).2) i)
  · exact between.once
  · exact owned.of_same (fun _ => rfl) rfl rfl

/-- What `nc_connect` leaves behind: the connection waits, and only its lookup is left to be
freed, or its callback runs. -/
theorem Between.tried {u t : Resolver} {ctx : Option Nat} {d : Nameconn} (inv : Inv s)
    (between : Between s u i) (owned : Owned u) (here : u.conns i = some d)
    (conn : d.aiHandle = i ∧ d.aiRes = some i ∧ d.state = .conn ∧ d.writeEv = false)
    (list : u.lists i = true)
    (memory : u.ctxs i = none ∧ ctx = none ∨ (u.ctxs i).isSome = true ∧ ctx = some i)
    (tried : Tried i ctx d u t) :
    t.main = u.main ∧ t.ctxs = u.ctxs ∧ Inv { t with ctxs := Function.update t.ctxs i none } ∨
      (∃ ctx, t.main = .calling i ctx) ∧ Inv t := by
  rcases conn with ⟨aiHandle, aiRes, state, idle⟩
  rcases tried with ⟨d', sockets, nextSd, main, told, rfl, attempt⟩
  have unwatched : watched (u.conns i) = none := by
    rw [here]
    unfold watched
    cases d
    dsimp only at idle ⊢
    rw [idle]
  have others : ∀ j, j ≠ i → Function.update u.conns i (some d') j = u.conns j := fun j other =>
    Function.update_of_ne other ..
  have owned' : Owned { u with
      conns := Function.update u.conns i (some d')
      sockets := sockets
      nextSd := nextSd } := by
    apply owned.attempt unwatched attempt
    · intro j other
      exact congrArg watched (others j other)
    · exact Function.update_self ..
    · rfl
    · rfl
  rcases attempt.outcome with ⟨sd, -, sdEq, waits, rfl, rfl, -⟩ | ⟨idle', rfl, ⟨result, rfl⟩, -⟩
  · left
    have conn : d' = ⟨i, some i, d'.aiCur, some sd, .conn, true⟩ := by
      have h₁ := attempt.aiHandle.trans aiHandle
      have h₂ := attempt.aiRes.trans aiRes
      have h₃ := attempt.state.trans state
      cases d'
      dsimp only at h₁ h₂ h₃ sdEq waits ⊢
      rw [h₁, h₂, h₃, sdEq, waits]
    have here' : Function.update u.conns i (some d') i =
        some ⟨i, some i, d'.aiCur, some sd, .conn, true⟩ := by
      rw [Function.update_self]
      exact congrArg some conn
    exact ⟨rfl, rfl, between.waits (u := u) inv others here' list owned'⟩
  · right
    refine ⟨⟨ctx, rfl⟩, ?_⟩
    apply between.calls inv others (Function.update_self ..) idle' (.inr ⟨_, list⟩) memory owned'
    exact attempt.aiRes.trans aiRes

/-! ## The loop of td_cb -/

/-- The next lookup was taken off the queue. -/
theorem taken {rest : List Nat} (queue : s.tmpq = i :: rest) :
    s.pending = i :: ({ s with tmpq := rest } : Resolver).pending ∧
      s.answered = i :: ({ s with tmpq := rest } : Resolver).answered := by
  unfold Resolver.pending Resolver.answered
  rw [queue]
  exact ⟨rfl, rfl⟩

/-- The memory of a lookup that was given up is freed. -/
theorem Inv.freeDropped {rest : List Nat} (inv : Inv s) (idle : s.main = .running)
    (queue : s.tmpq = i :: rest) (conn : s.conns i = none) (gone : i ∈ s.cancelled) :
    Inv { s with
      ctxs := Function.update s.ctxs i none
      lists := Function.update s.lists i false
      tmpq := rest
      called := s.called ++ [i] } := by
  rcases taken queue with ⟨pending, answered⟩
  have free : ∀ j ctx, s.main ≠ .calling j ctx := by
    intro j ctx calling
    rw [idle] at calling
    cases calling
  apply inv.change i
  · intro j other
    constructor
    · exact Function.update_of_ne other ..
    · rfl
    · exact Function.update_of_ne other ..
    · exact id
    · rw [pending, List.mem_cons, or_iff_right other]
      rfl
    · rw [answered, List.mem_cons, or_iff_right other]
      rfl
    · exact List.mem_append_left _
    · exact .rfl
    · exact .rfl
  · exact inv.asked
  · show s.asked = s.called ++ [i] ++ ({ s with tmpq := rest } : Resolver).pending
    rw [inv.conserved, pending, List.append_assoc]
    rfl
  · exact inv.nextConn
  · exact fun j _ => id
  · exact fun j ctx _ calling => absurd calling (free j ctx)
  · intro _
    apply Status.ended
    · exact List.mem_append_right _ List.mem_cons_self
    · exact Function.update_self ..
    · exact conn
    · exact Function.update_self ..
    · exact .inr gone
  · exact fun ctx calling => absurd calling (free i ctx)
  · exact inv.once
  · exact inv.owned.of_same (fun _ => rfl) rfl rfl

/-- The lookup of a connection is called back. -/
theorem Inv.between {rest : List Nat} {conns : Nat → Option Nameconn} (inv : Inv s)
    (idle : s.main = .running) (queue : s.tmpq = i :: rest)
    (others : ∀ j, j ≠ i → conns j = s.conns j) (untold : ¬ s.Knows i) (kept : i ∉ s.cancelled) :
    Between s { s with conns := conns, tmpq := rest, called := s.called ++ [i] } i := by
  rcases taken queue with ⟨pending, answered⟩
  constructor
  · intro j other
    constructor
    · rfl
    · exact others j other
    · rfl
    · exact id
    · rw [pending, List.mem_cons, or_iff_right other]
      rfl
    · rw [answered, List.mem_cons, or_iff_right other]
      rfl
    · exact List.mem_append_left _
    · exact .rfl
    · exact .rfl
  · exact inv.asked
  · show s.asked = s.called ++ [i] ++ ({ s with tmpq := rest } : Resolver).pending
    rw [inv.conserved, pending, List.append_assoc]
    rfl
  · exact inv.nextConn
  · intro j
    rw [idle]
    exact ⟨rfl, rfl⟩
  · exact List.mem_append_right _ List.mem_cons_self
  · exact untold
  · exact kept
  · exact inv.once

theorem tdCbNext_inv {connects : Nat → Connect} (inv : Inv s) (idle : s.main = .running) :
    (tdCbNext connects).wp strict callers (fun _ s' => Inv s') s := by
  unfold tdCbNext
  rw [wp_bind, wp_get]
  cases queue : s.tmpq with
  | nil =>
      dsimp only
      rw [wp_modify]
      apply inv.moves
      refine ⟨rfl, rfl, rfl, rfl, ⟨rfl, rfl, rfl⟩, rfl, fun _ => .rfl, rfl, rfl, rfl, rfl, ?_, ?_⟩
      · intro i
        rw [idle]
        rfl
      · intro i ctx calling
        cases calling
  | cons i rest =>
      dsimp only
      rw [wp_bind, wp_modify]
      have pending : i ∈ s.pending := by
        rw [(taken queue).1]
        exact List.mem_cons_self
      have answered : i ∈ s.answered := by
        rw [(taken queue).2]
        exact List.mem_cons_self
      rcases inv.pending_cases pending with
        ⟨cancel, answer, ctx, conn, list, place, untold, gone⟩
      obtain ⟨answer, rfl⟩ := Option.isSome_iff_exists.mp (place.mpr answered)
      generalize takenEq : ({ s with
        tmpq := rest
        called := s.called ++ [i] } : Resolver) = u
      have idle' : u.main = .running := by
        rw [← takenEq]
        exact idle
      have ctx' : u.ctxs i = some ⟨i, cancel, some answer⟩ := by
        rw [← takenEq]
        exact ctx
      have there : (u.ctxs i).isSome = true := Option.isSome_iff_exists.mpr ⟨_, ctx'⟩
      have list' : u.lists i = hasList (some answer) := by
        rw [← takenEq]
        exact list
      unfold addrinfoTdCb
      rw [wp_bind, wp_bind, wp_ctxAt ctx']
      cases cancel with
      | true =>
          have dropped := inv.freeDropped idle queue conn (gone.mpr rfl)
          cases answer with
          | failed error =>
              have gone' : s.lists i = false := list
              dsimp only
              rw [wp_pure, wp_bind, wp_get, wp_when, if_pos idle', wp_freeCtx there, ← takenEq]
              rw [← gone', Function.update_eq_self] at dropped
              exact dropped
          | found addresses =>
              dsimp only
              rw [wp_freeaddrinfo list', wp_bind, wp_get, wp_when, if_pos idle']
              generalize freedEq : ({ u with
                lists := Function.update u.lists i false } : Resolver) = v
              have there' : (v.ctxs i).isSome = true := by
                rw [← freedEq]
                exact there
              rw [wp_freeCtx there', ← freedEq, ← takenEq]
              exact dropped
      | false =>
          have conn' : u.conns i = some ⟨i, none, 0, none, .ai, false⟩ := by
            rw [← takenEq]
            exact conn
          have kept : i ∉ s.cancelled := fun mem => Bool.false_ne_true (gone.mp mem)
          dsimp only
          unfold ncAiCb setConn
          rw [wp_bind, wp_connAt conn']
          cases answer with
          | failed error =>
              have between : Between s u i := by
                rw [← takenEq]
                exact inv.between idle queue (fun _ _ => rfl) untold kept
              have owned : Owned u := by
                rw [← takenEq]
                exact inv.owned.of_same (fun _ => rfl) rfl rfl
              dsimp only
              unfold ncDone
              rw [wp_modify, wp_bind, wp_get, wp_when, if_neg nofun]
              exact between.calls inv (fun _ _ => rfl) conn' rfl (.inl ⟨rfl, list'⟩)
                (.inr ⟨there, rfl⟩) owned
          | found addresses =>
              dsimp only
              rw [wp_bind, wp_modify]
              generalize connectingEq : ({ u with
                conns := Function.update u.conns i
                  (some ⟨i, some i, addresses, none, .conn, false⟩) } : Resolver) = v
              have conn'' : v.conns i = some ⟨i, some i, addresses, none, .conn, false⟩ := by
                rw [← connectingEq]
                exact Function.update_self ..
              have between : Between s v i := by
                rw [← connectingEq, ← takenEq]
                apply inv.between idle queue _ untold kept
                exact fun j other => Function.update_of_ne other ..
              have owned : Owned v := by
                rw [← connectingEq, ← takenEq]
                apply inv.owned.of_same
                · intro j
                  show watched (Function.update s.conns i _ j) = _
                  rw [Function.update_apply]
                  split
                  · rename_i same
                    rw [same, conn]
                    rfl
                  · rfl
                · rfl
                · rfl
              have main : v.main = u.main := by rw [← connectingEq]
              have ctxs : v.ctxs = u.ctxs := by rw [← connectingEq]
              have lists : v.lists i = true := by
                rw [← connectingEq]
                exact list'
              rw [← ctxs] at there
              apply wp_mono (ncConnect_wp addresses conn'' rfl owned.fresh)
              intro _ t tried
              rw [wp_bind, wp_get, wp_when]
              rcases between.tried inv owned conn'' ⟨rfl, rfl, rfl, rfl⟩ lists
                (.inr ⟨there, rfl⟩) tried with ⟨stays, memory, result⟩ | ⟨⟨ctx, calls⟩, result⟩
              · rw [← memory] at there
                rw [if_pos ((stays.trans main).trans idle'), wp_freeCtx there]
                exact result
              · have busy : t.main ≠ .running := by
                  rw [calls]
                  exact nofun
                rw [if_neg busy]
                exact result

/-! ## The socket -/

theorem ncWriteCb_inv {error : Bool} {connects : Nat → Connect} (inv : Inv s)
    (idle : s.main = .loop) (watches : s.watches i = true) :
    (ncWriteCb i error connects).wp strict callers (fun _ s' => Inv s') s := by
  have free : ∀ j, s.main.calls j = false := by
    intro j
    rw [idle]
    rfl
  have unwatched : ∀ {d : Option Nameconn}, s.conns i = d → d.any (·.writeEv) = true := by
    rintro d rfl
    exact watches
  rcases inv.status i (free i) with ⟨-, -, conn, -, -, -⟩ |
    ⟨cancel, answer, -, -, conn, -, -, -, -⟩ | ⟨left, sd, called, ctx, conn, list, untold, kept⟩ |
    ⟨-, -, conn, -, -⟩
  · cases unwatched conn
  · have held := unwatched conn
    cases cancel <;> cases held
  · have watched_ : watched (s.conns i) = some sd := by
      rw [conn]
      rfl
    unfold ncWriteCb setConn
    rw [wp_bind, wp_connAt conn, wp_bind, wp_modify]
    generalize droppedEq : ({ s with
      conns := Function.update s.conns i
        (some ⟨i, some i, left, some sd, .conn, false⟩) } : Resolver) = u
    have conn' : u.conns i = some ⟨i, some i, left, some sd, .conn, false⟩ := by
      rw [← droppedEq]
      exact Function.update_self ..
    have others : ∀ j, j ≠ i → u.conns j = s.conns j := by
      intro j other
      rw [← droppedEq]
      exact Function.update_of_ne other ..
    have list' : u.lists i = true := by
      rw [← droppedEq]
      exact list
    have ctx' : u.ctxs i = none := by
      rw [← droppedEq]
      exact ctx
    have between : ∀ {sockets}, Between s { u with sockets := sockets } i := by
      intro sockets
      rw [← droppedEq]
      refine ⟨fun j other => ?_, inv.asked, inv.conserved, inv.nextConn,
        fun j => ⟨free j, free j⟩, called, untold, kept, inv.once⟩
      exact ⟨rfl, Function.update_of_ne other .., rfl, id, .rfl, .rfl, id, .rfl, .rfl⟩
    have released : ∀ {v}, v ≠ Socket.ours →
        Owned { u with sockets := Function.update u.sockets sd v } := by
      intro v v_ne
      apply inv.owned.release watched_ _ _ v_ne
      · rw [← droppedEq]
      · rw [← droppedEq]
      · exact fun j other => congrArg watched (others j other)
      · show watched (u.conns i) = none
        rw [conn']
        rfl
    cases error with
    | true =>
        have open_ : u.sockets sd ≠ .closed := by
          rw [← droppedEq]
          show s.sockets sd ≠ .closed
          rw [(inv.owned.ours sd).mpr ⟨i, watched_⟩]
          exact nofun
        dsimp only
        rw [if_pos rfl, wp_bind, wp_close open_]
        have owned := released (v := .closed) nofun
        have between' : Between s { u with
            sockets := Function.update u.sockets sd .closed } i := between
        generalize closedEq : ({ u with
          sockets := Function.update u.sockets sd .closed } : Resolver) = v at owned between' ⊢
        have conn'' : v.conns i = some ⟨i, some i, left, some sd, .conn, false⟩ := by
          rw [← closedEq]
          exact conn'
        have list'' : v.lists i = true := by
          rw [← closedEq]
          exact list'
        have ctx'' : v.ctxs i = none := by
          rw [← closedEq]
          exact ctx'
        apply wp_mono (ncConnect_wp (left - 1) conn'' rfl owned.fresh)
        intro _ t tried
        rcases between'.tried inv owned conn'' ⟨rfl, rfl, rfl, rfl⟩ list'' (.inl ⟨ctx'', rfl⟩)
          tried with ⟨-, memory, result⟩ | ⟨-, result⟩
        · have gone : t.ctxs i = none := by
            rw [memory]
            exact ctx''
          rw [← gone, Function.update_eq_self] at result
          exact result
        · exact result
    | false =>
        dsimp only
        rw [if_neg Bool.false_ne_true]
        unfold ncDone
        rw [wp_modify]
        exact between.calls inv (fun _ _ => rfl) conn' rfl (.inr ⟨rfl, list'⟩)
          (.inl ⟨ctx', rfl⟩) (released (v := .given) nofun)
  · cases unwatched conn

/-! ## Every step -/

theorem nameHandle_inv (event : NameEvent) (inv : Inv s) :
    (nameHandle event).wp strict callers (fun _ s' => Inv s') s := by
  cases event with
  | connect =>
      unfold nameHandle
      rw [wp_bind, wp_get, wp_when]
      split
      · exact btpdNameConnect_inv inv
      · exact inv
  | cancel nc =>
      unfold nameHandle
      rw [wp_bind, wp_get, wp_when]
      split
      · rename_i allowed
        rcases Option.isSome_iff_exists.mp allowed.2.2.1 with ⟨d, here⟩
        exact btpdNameConnectCancel_inv inv here allowed.2.2.2
      · exact inv
  | signal =>
      unfold nameHandle
      rw [wp_bind, wp_get, wp_when]
      split
      · exact condSignal_inv inv
      · exact inv
  | read =>
      unfold nameHandle
      rw [wp_bind, wp_get, wp_when]
      split
      · rename_i allowed
        exact tdCbRead_inv inv allowed.2.1
      · exact inv
  | splice =>
      unfold nameHandle
      rw [wp_bind, wp_get, wp_when]
      split
      · rename_i allowed
        exact tdCbSplice_inv inv allowed.1
      · exact inv
  | next connects =>
      unfold nameHandle
      rw [wp_bind, wp_get, wp_when]
      split
      · rename_i running
        exact tdCbNext_inv inv running
      · exact inv
  | callbackReturns =>
      unfold nameHandle
      rw [wp_bind, wp_get]
      cases s.signalling with
      | true => exact wp_pure.mpr inv
      | false =>
          cases main : s.main with
          | calling nc ctx => exact ncReturn_inv inv main
          | loop => exact wp_pure.mpr inv
          | splicing => exact wp_pure.mpr inv
          | running => exact wp_pure.mpr inv
  | writable nc error connects =>
      unfold nameHandle
      rw [wp_bind, wp_get, wp_when]
      split
      · rename_i allowed
        exact ncWriteCb_inv inv allowed.2.1 allowed.2.2
      · exact inv
  | thread answer =>
      unfold nameHandle
      exact addrinfoTd_inv answer inv
  | spurious =>
      unfold nameHandle
      rw [wp_bind, wp_get, wp_when]
      split
      · rename_i waits
        rw [wp_modify]
        exact spurious_inv inv waits
      · exact inv

end Btpd.Names
