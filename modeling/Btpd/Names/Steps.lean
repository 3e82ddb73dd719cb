import Btpd.Names.Invariant
import Mathlib

/-!
# The steps of the threads

No step uses memory that was given back, frees a list twice or closes a descriptor twice, and
every step keeps the invariant.
-/

namespace Btpd.Names

open Prog

variable {s s' : Resolver} {i nc : Nat} {k : Contract Resolver Empty NameFault}
  {callers : List Empty}

/-! ## Memory -/

theorem wp_ctxAt {c : AiCtx} {post : AiCtx → Resolver → Prop} (here : s.ctxs i = some c) :
    (ctxAt i).wp k callers post s ↔ post c s := by
  unfold ctxAt
  rw [wp_bind, wp_get, here]
  exact wp_pure

theorem wp_connAt {d : Nameconn} {post : Nameconn → Resolver → Prop}
    (here : s.conns i = some d) : (connAt i).wp k callers post s ↔ post d s := by
  unfold connAt
  rw [wp_bind, wp_get, here]
  exact wp_pure

theorem wp_freeCtx {post : Unit → Resolver → Prop} (here : (s.ctxs i).isSome = true) :
    (freeCtx i).wp k callers post s ↔
      post () { s with ctxs := Function.update s.ctxs i none } := by
  rcases Option.isSome_iff_exists.mp here with ⟨c, found⟩
  unfold freeCtx setCtx
  rw [wp_bind, wp_ctxAt found, wp_modify]

theorem wp_freeaddrinfo {post : Unit → Resolver → Prop} (live : s.lists i = true) :
    (freeaddrinfo i).wp k callers post s ↔
      post () { s with lists := Function.update s.lists i false } := by
  unfold freeaddrinfo
  rw [wp_bind, wp_get, wp_bind, wp_assert, if_pos live, wp_modify]

theorem wp_close {sd : Nat} {post : Unit → Resolver → Prop} (open_ : s.sockets sd ≠ .closed) :
    (close sd).wp k callers post s ↔
      post () { s with sockets := Function.update s.sockets sd .closed } := by
  unfold close
  rw [wp_bind, wp_get, wp_bind, wp_assert, if_pos open_, wp_modify]

/-- A connection is freed with its list of addresses. -/
theorem wp_ncFree {d : Nameconn} {post : Unit → Resolver → Prop} (here : s.conns i = some d)
    (list : d.aiRes = none ∧ s.lists i = false ∨ d.aiRes = some i ∧ s.lists i = true) :
    (ncFree i).wp k callers post s ↔
      post () { s with
        lists := Function.update s.lists i false
        conns := Function.update s.conns i none } := by
  unfold ncFree setConn
  rw [wp_bind, wp_connAt here]
  rcases list with ⟨nothing, gone⟩ | ⟨some_, live⟩
  · rw [nothing, ← gone, Function.update_eq_self]
    simp only [wp_modify]
  · rw [some_]
    simp only [wp_bind, wp_freeaddrinfo live, wp_modify]

/-! ## The queues -/

theorem condSignal_inv (inv : Inv s) :
    condSignal.wp strict callers (fun _ s' => Inv s') s := by
  unfold condSignal
  rw [wp_modify]
  have held : (if s.worker = .waiting then Worker.locking else s.worker).held = s.worker.held ∧
      (if s.worker = .waiting then Worker.locking else s.worker).done = s.worker.done := by
    split
    · rename_i waits
      rw [waits]
      exact ⟨rfl, rfl⟩
    · exact ⟨rfl, rfl⟩
  apply inv.moves
  refine ⟨rfl, rfl, rfl, rfl, ⟨rfl, rfl, rfl⟩, ?_, ?_, rfl, rfl, rfl, rfl,
    fun _ => rfl, fun _ _ => id⟩
  · unfold Resolver.pending
    rw [held.1]
  · unfold Resolver.answered
    rw [held.2]
    exact fun _ => .rfl

theorem spurious_inv (inv : Inv s) (waits : s.worker = .waiting) :
    Inv { s with worker := .locking } := by
  apply inv.moves
  refine ⟨rfl, rfl, rfl, rfl, ⟨rfl, rfl, rfl⟩, ?_, ?_, rfl, rfl, rfl, rfl,
    fun _ => rfl, fun _ _ => id⟩
  · unfold Resolver.pending
    rw [waits]
    rfl
  · unfold Resolver.answered
    rw [waits]
    exact fun _ => .rfl

theorem tdCbRead_inv (inv : Inv s) (idle : s.main = .loop) :
    tdCbRead.wp strict callers (fun _ s' => Inv s') s := by
  unfold tdCbRead
  rw [wp_modify]
  apply inv.moves
  refine ⟨rfl, rfl, rfl, rfl, ⟨rfl, rfl, rfl⟩, rfl, fun _ => .rfl, rfl, rfl, rfl, rfl, ?_, ?_⟩
  · intro i
    rw [idle]
    rfl
  · intro i ctx calling
    cases calling

theorem tdCbSplice_inv (inv : Inv s) (splicing : s.main = .splicing) :
    tdCbSplice.wp strict callers (fun _ s' => Inv s') s := by
  unfold tdCbSplice
  rw [wp_modify]
  apply inv.moves
  refine ⟨rfl, rfl, rfl, rfl, ⟨rfl, rfl, rfl⟩, ?_, ?_, rfl, rfl, rfl, rfl, ?_, ?_⟩
  · simp [Resolver.pending]
  · intro i
    simp [Resolver.answered]
  · intro i
    rw [splicing]
    rfl
  · intro i ctx calling
    cases calling

/-- The thread writes an answer. -/
theorem resolving_inv {c : AiCtx} {answer : Answer} (inv : Inv s)
    (resolving : s.worker = .resolving i) (here : s.ctxs i = some c) :
    Inv { s with
      ctxs := Function.update s.ctxs i (some { c with answer := some answer })
      lists := match answer with
        | .found _ => Function.update s.lists i true
        | .failed _ => s.lists
      worker := .answered i } := by
  have waits : i ∈ s.pending := by
    unfold Resolver.pending
    rw [resolving]
    simp [Worker.held]
  have unanswered : i ∉ s.answered := by
    intro answered
    have nodup := (List.nodup_append.mp inv.nodup).2.1
    unfold Resolver.answered at answered
    unfold Resolver.pending at nodup
    rw [resolving] at answered nodup
    have before : i ∈ s.tmpq ++ s.tdCbs := by simpa [Worker.done] using answered
    exact (List.nodup_append.mp (List.nodup_append.mp nodup).1).2.2 i before i
      (List.mem_singleton.mpr rfl) rfl
  rcases inv.pending_cases waits with ⟨cancel, old, ctx, conn, list, place, untold, gone⟩
  rw [ctx] at here
  cases here
  have fresh : old = none := by
    cases old with
    | none => rfl
    | some _ => exact absurd (place.mp rfl) unanswered
  subst fresh
  generalize s'Eq : ({ s with
      ctxs := Function.update s.ctxs i (some ⟨i, cancel, some answer⟩)
      lists := match answer with
        | .found _ => Function.update s.lists i true
        | .failed _ => s.lists
      worker := .answered i } : Resolver) = s'
  have pending : s'.pending = s.pending := by
    rw [← s'Eq]
    unfold Resolver.pending
    rw [resolving]
    rfl
  have lists : ∀ j, s'.lists j = if j = i then hasList (some answer) else s.lists j := by
    intro j
    rw [← s'Eq]
    cases answer with
    | found addresses => exact Function.update_apply ..
    | failed error =>
        show s.lists j = _
        split
        · rename_i same
          rw [same]
          exact list
        · rfl
  have answered : ∀ j, j ∈ s'.answered ↔ j ∈ s.answered ∨ j = i := by
    intro j
    rw [← s'Eq]
    unfold Resolver.answered
    rw [resolving]
    simp [Worker.done, or_assoc]
  have same : ∀ j, j ≠ i → SameAt s s' j := by
    intro j other
    constructor
    · rw [← s'Eq]
      exact Function.update_of_ne other ..
    · rw [← s'Eq]
    · rw [lists, if_neg other]
    · rw [← s'Eq]
      exact id
    · rw [pending]
    · rw [answered]
      exact or_iff_left other
    · rw [← s'Eq]
      exact id
    · rw [← s'Eq]
      rfl
    · rw [← s'Eq]
  constructor
  · rw [← s'Eq]
    exact inv.asked
  · rw [pending, ← s'Eq]
    exact inv.conserved
  · rw [← s'Eq]
    exact inv.nextConn
  · intro j free
    by_cases here : j = i
    · subst here
      apply Status.lookup cancel (some answer)
      · rw [pending]
        exact waits
      · rw [← s'Eq]
        exact Function.update_self ..
      · rw [← s'Eq]
        exact conn
      · rw [lists, if_pos rfl]
      · rw [answered]
        simp
      · rw [← s'Eq]
        exact untold
      · rw [← s'Eq]
        exact gone
    · rw [← s'Eq] at free
      exact (inv.status j free).of_same (same j here)
  · intro j ctx' calling
    rw [← s'Eq] at calling
    have run := inv.running j ctx' calling
    apply run.of_same (same j _)
    rintro rfl
    exact untold run.told
  · rw [← s'Eq]
    exact inv.once
  · rw [← s'Eq]
    exact inv.owned.of_same (fun _ => rfl) rfl rfl

theorem addrinfoTd_inv (answer : Answer) (inv : Inv s) :
    (addrinfoTd answer).wp strict callers (fun _ s' => Inv s') s := by
  -- the thread goes on, and the lookups stay in their order
  have goes : ∀ {w : Worker} {aiq tdCbs : List Nat} {pipe : Nat},
      tdCbs ++ w.held ++ aiq = s.tdCbs ++ s.worker.held ++ s.aiq →
      (∀ i, i ∈ tdCbs ++ w.done ↔ i ∈ s.tdCbs ++ s.worker.done) →
      Inv { s with worker := w, aiq := aiq, tdCbs := tdCbs, pipe := pipe } := by
    intro w aiq tdCbs pipe pending answered
    apply inv.moves
    refine ⟨rfl, rfl, rfl, rfl, ⟨rfl, rfl, rfl⟩, ?_, ?_, rfl, rfl, rfl, rfl,
      fun _ => rfl, fun _ _ => id⟩
    · simp only [Resolver.pending, List.append_assoc] at pending ⊢
      rw [pending]
    · intro i
      have iff := answered i
      simp only [Resolver.answered, List.mem_append, or_assoc] at iff ⊢
      rw [iff]
  unfold addrinfoTd
  rw [wp_bind, wp_get]
  cases at_ : s.worker with
  | locking =>
      rw [wp_modify]
      apply goes
      · rw [at_]; rfl
      · rw [at_]; exact fun _ => .rfl
  | testing =>
      cases queue : s.aiq with
      | nil =>
          dsimp only
          rw [wp_modify]
          apply goes
          · rw [at_]; rfl
          · rw [at_]; exact fun _ => .rfl
      | cons ctx rest =>
          dsimp only
          rw [wp_modify]
          apply goes
          · rw [at_, queue]
            simp [Worker.held]
          · rw [at_]
            exact fun _ => .rfl
  | waiting => exact wp_pure.mpr inv
  | resolving ctx =>
      have waits : ctx ∈ s.pending := by
        unfold Resolver.pending
        rw [at_]
        simp [Worker.held]
      rcases inv.pending_cases waits with ⟨cancel, old, here, -⟩
      dsimp only
      unfold setCtx
      rw [wp_bind, wp_ctxAt here, wp_bind, wp_modify, wp_modify]
      exact resolving_inv inv at_ here
  | answered ctx =>
      dsimp only
      rw [wp_modify]
      apply goes
      · rw [at_]; rfl
      · rw [at_]; exact fun _ => .rfl
  | posting ctx =>
      dsimp only
      rw [wp_modify]
      apply goes
      · rw [at_]
        simp [Worker.held]
      · rw [at_]
        intro i
        simp [Worker.done]
  | posted =>
      dsimp only
      rw [wp_modify]
      apply goes
      · rw [at_]; rfl
      · rw [at_]; exact fun _ => .rfl
  | writing =>
      dsimp only
      rw [wp_when]
      split
      · rw [wp_modify]
        apply goes
        · rw [at_]; rfl
        · rw [at_]; exact fun _ => .rfl
      · exact inv

end Btpd.Names
