import Btpd.Names.Callbacks
import Mathlib

/-!
# Nothing is lost and nothing is done twice

Whatever the order of the steps of both threads, of the program and of the network.
-/

namespace Btpd.Names

variable {s : Resolver}

/-- The lookups are called back in the order in which they were asked for, every connection is
called back once, unless it was given up before, and what has come to an end leaves no memory and
no descriptor behind. -/
structure Tidy (s : Resolver) : Prop where
  inOrder : s.asked = s.called ++ s.pending
  apart : s.asked.Nodup
  once : (s.told.map Prod.fst ++ s.cancelled).Nodup
  everyone : ∀ i < s.nextConn, i ∈ s.told.map Prod.fst ∨ i ∈ s.cancelled ∨ i ∈ s.pending ∨
    ∃ sd, watched (s.conns i) = some sd
  ctxs : ∀ i, (s.ctxs i).isSome = true → i ∈ s.pending ∨ s.main = .calling i (some i)
  conns : ∀ i, (s.conns i).isSome = true →
    i ∉ s.told.map Prod.fst ∧ i ∉ s.cancelled ∨ ∃ ctx, s.main = .calling i ctx
  lists : ∀ i, s.lists i = true → (s.ctxs i).isSome = true ∨ (s.conns i).isSome = true
  sockets : ∀ sd, s.sockets sd = .ours ↔ ∃ i, watched (s.conns i) = some sd
  notShared : ∀ i j sd, watched (s.conns i) = some sd → watched (s.conns j) = some sd → i = j

theorem Inv.tidy (inv : Inv s) : Tidy s where
  inOrder := inv.conserved
  apart := by
    rw [inv.asked]
    exact List.nodup_range
  once := inv.once
  everyone i born := by
    cases calls : s.main.calls i with
    | true =>
        rcases Main.calls_eq_true.mp calls with ⟨ctx, calling⟩
        exact .inl (inv.running i ctx calling).told
    | false =>
        rw [inv.nextConn] at born
        cases inv.status i calls with
        | unborn later _ _ _ _ _ => exact absurd born (Nat.not_lt.mpr later)
        | lookup _ _ pending _ _ _ _ _ _ => exact .inr (.inr (.inl pending))
        | connecting left sd _ _ conn _ _ _ =>
            refine .inr (.inr (.inr ⟨sd, ?_⟩))
            rw [conn]
            rfl
        | ended _ _ _ _ reason =>
            rcases reason with told | gone
            · exact .inl told
            · exact .inr (.inl gone)
  ctxs i live := by
    cases calls : s.main.calls i with
    | true =>
        rcases Main.calls_eq_true.mp calls with ⟨ctx, calling⟩
        rcases (inv.running i ctx calling).ctx with ⟨gone, -⟩ | ⟨-, rfl⟩
        · rw [gone] at live
          cases live
        · exact .inr calling
    | false =>
        cases inv.status i calls with
        | unborn _ ctx _ _ _ _ =>
            rw [ctx] at live
            cases live
        | lookup _ _ pending _ _ _ _ _ _ => exact .inl pending
        | connecting _ _ _ ctx _ _ _ _ =>
            rw [ctx] at live
            cases live
        | ended _ ctx _ _ _ =>
            rw [ctx] at live
            cases live
  conns i live := by
    cases calls : s.main.calls i with
    | true => exact .inr (Main.calls_eq_true.mp calls)
    | false =>
        left
        cases inv.status i calls with
        | unborn _ _ _ _ untold kept => exact ⟨untold, kept⟩
        | lookup cancel _ _ _ conn _ _ untold gone =>
            cases cancel with
            | true =>
                rw [conn] at live
                cases live
            | false => exact ⟨untold, fun mem => Bool.false_ne_true (gone.mp mem)⟩
        | connecting _ _ _ _ _ _ untold kept => exact ⟨untold, kept⟩
        | ended _ _ conn _ _ =>
            rw [conn] at live
            cases live
  lists i live := by
    cases calls : s.main.calls i with
    | true =>
        rcases Main.calls_eq_true.mp calls with ⟨ctx, calling⟩
        rcases (inv.running i ctx calling).conn with ⟨d, conn, -, -⟩
        exact .inr (Option.isSome_iff_exists.mpr ⟨d, conn⟩)
    | false =>
        cases inv.status i calls with
        | unborn _ _ _ list _ _ =>
            rw [list] at live
            cases live
        | lookup _ _ _ ctx _ _ _ _ _ => exact .inl (Option.isSome_iff_exists.mpr ⟨_, ctx⟩)
        | connecting _ _ _ _ conn _ _ _ => exact .inr (Option.isSome_iff_exists.mpr ⟨_, conn⟩)
        | ended _ _ _ list _ =>
            rw [list] at live
            cases live
  sockets := inv.owned.ours
  notShared := inv.owned.apart

theorem inv_of_reachable (reached : names.Reachable (fun _ => False) s) : Inv s := by
  apply reached.invariant Inv (fun _ => False)
  · rintro s rfl
    exact inv_init
  · exact fun s event _ inv => nameHandle_inv event inv

/-- In every state that is reached everything is accounted for, and no step uses memory that was
given back, frees a list of addresses twice or closes a descriptor that is not open. -/
theorem tidy_of_reachable (reached : names.Reachable (fun _ => False) s) :
    Tidy s ∧ ∀ event fault, ¬ names.Faults (fun _ => False) s event fault := by
  have inv := inv_of_reachable reached
  refine ⟨inv.tidy, fun event fault faults => ?_⟩
  have met : (nameHandle event).wp Prog.strict [] (fun _ s' => Inv s') s :=
    nameHandle_inv event inv
  rcases Prog.returned_of_strict met with ⟨_, s', ok, -⟩
  have failed := faults.1
  unfold names at failed
  rw [ok] at failed
  cases failed

/-- Three names are looked up: one leads to a descriptor after a first address that fails, one is
given up before its answer comes, and one has no address. -/
def threeNames : List NameEvent := List.flatten
  [[.connect, .signal, .connect, .signal, .connect, .signal],
    List.replicate 8 (.thread (.found 2)), [.cancel 1],
    List.replicate 7 (.thread (.found 1)), List.replicate 7 (.thread (.failed 8)),
    [.read, .splice, .next fun _ => .inProgress, .next fun _ => .done, .next fun _ => .done,
      .callbackReturns, .next fun _ => .done, .writable 0 true fun _ => .done, .callbackReturns]]

theorem tidy_of_reachable_threeNames :
    ∃ s, names.Reachable (fun _ => False) s ∧
      (s.told = [(2, .failed 8), (0, .connected 1)] ∧ s.cancelled = [1] ∧
        s.called = [0, 1, 2] ∧ s.sockets 0 = .closed ∧ s.sockets 1 = .given) ∧
      Tidy s ∧ ∀ event fault, ¬ names.Faults (fun _ => False) s event fault := by
  have start : names.Reachable (fun _ => False) Resolver.init := .start rfl
  rcases start.of_after (P := fun s => s.told = [(2, .failed 8), (0, .connected 1)] ∧
      s.cancelled = [1] ∧ s.called = [0, 1, 2] ∧ s.sockets 0 = .closed ∧ s.sockets 1 = .given)
    threeNames (by decide +kernel) with ⟨s, reached, ended⟩
  exact ⟨s, reached, ended, tidy_of_reachable reached⟩

end Btpd.Names
