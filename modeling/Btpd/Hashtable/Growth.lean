import Btpd.Hashtable.Rows
import Mathlib

/-!
# Insertion and growth

Growth takes every chain out of the old buckets, reverses it in place and puts its objects
one by one into the new buckets.  Until its turn comes an old chain is not touched, as the
objects that have moved are none of its own.
-/

namespace Btpd.Hashtable

variable {Obj Key : Type} [DecidableEq Obj] {par : Params Key} {tbl tbl' tbl'' : Htbl Obj Key}
  {rs : List (List Obj)} {l l' : List Obj} {fuel : Nat} {o : Obj} {p n head : Option Obj}

/-- Only the links of `l` and the heads of the buckets have changed. -/
structure Moved (l : List Obj) (tbl tbl' : Htbl Obj Key) : Prop where
  key : tbl'.key = tbl.key
  size : tbl'.size = tbl.size
  count : tbl'.buckcnt = tbl.buckcnt
  chain : ∀ x, x ∉ l → tbl'.chain x = tbl.chain x

omit [DecidableEq Obj] in
theorem Moved.refl : Moved [] tbl tbl := ⟨rfl, rfl, rfl, fun _ _ => rfl⟩

omit [DecidableEq Obj] in
theorem Moved.trans (first : Moved l tbl tbl') (second : Moved l' tbl' tbl'') :
    Moved (l ++ l') tbl tbl'' := by
  refine ⟨second.key.trans first.key, second.size.trans first.size,
    second.count.trans first.count, fun x other => ?_⟩
  rw [List.mem_append, not_or] at other
  exact (second.chain x other.2).trans (first.chain x other.1)

omit [DecidableEq Obj] in
theorem Moved.mono (moved : Moved l tbl tbl') (sub : l ⊆ l') : Moved l' tbl tbl' :=
  ⟨moved.key, moved.size, moved.count, fun x other => moved.chain x fun mem => other (sub mem)⟩

omit [DecidableEq Obj] in
theorem Moved.linked (moved : Moved l tbl tbl') (linked : Linked tbl.chain p l')
    (apart : l.Disjoint l') : Linked tbl'.chain p l' :=
  linked.frame fun x mem => moved.chain x fun mem' => apart mem' mem

omit [DecidableEq Obj] in
theorem Moved.all {heads : List (Option Obj)} {olds : List (List Obj)}
    (moved : Moved l tbl tbl') (linked : List.Forall₂ (Linked tbl.chain) heads olds)
    (apart : l.Disjoint olds.flatten) : List.Forall₂ (Linked tbl'.chain) heads olds := by
  induction olds generalizing heads with
  | nil =>
      cases linked
      exact .nil
  | cons old olds ih =>
      rw [List.flatten_cons, List.disjoint_append_right] at apart
      cases linked with
      | cons here rest => exact .cons (moved.linked here apart.1) (ih rest apart.2)

theorem moved_setChain : Moved [o] tbl (tbl.setChain o p) :=
  ⟨rfl, rfl, rfl, fun _ other => Function.update_of_ne (List.ne_of_not_mem_cons other) ..⟩

omit [DecidableEq Obj] in
/-- The rows stay when their objects have not moved. -/
theorem Rows.moved (rows : Rows par tbl rs) (moved : Moved l tbl tbl')
    (buckets : tbl'.buckets = tbl.buckets) (apart : l.Disjoint rs.flatten) :
    Rows par tbl' rs := by
  refine ⟨rows.count.trans moved.count.symm, fun i head row bucket here => ?_,
    fun i row here o mem => ?_⟩
  · rw [buckets] at bucket
    refine moved.linked (rows.linked i head row bucket here) ?_
    exact fun x mem mem' => apart mem
      (List.mem_flatten.mpr ⟨row, List.mem_of_getElem? here, mem'⟩)
  · unfold home
    rw [moved.count, moved.key]
    exact rows.homed i row here o mem

omit [DecidableEq Obj] in
theorem Rows.forall₂ (rows : Rows par tbl rs) :
    List.Forall₂ (Linked tbl.chain) tbl.buckets rs := by
  rw [List.forall₂_iff_get]
  refine ⟨rows.count.symm, fun i lt lt' => ?_⟩
  exact rows.linked i _ _ (List.getElem?_eq_getElem lt) (List.getElem?_eq_getElem lt')

omit [DecidableEq Obj] in
theorem home_lt (key : Key) (some : 0 < tbl.buckcnt) : home par tbl key < tbl.buckcnt :=
  Nat.mod_lt _ some

theorem bucketInsert_spec (rows : Rows par tbl rs) (buckets : 0 < tbl.buckcnt)
    (new : o ∉ rs.flatten) :
    ∃ tbl' rs', bucketInsert par tbl o = some tbl' ∧ Rows par tbl' rs' ∧
      rs'.flatten.Perm (o :: rs.flatten) ∧ Moved [o] tbl tbl' := by
  obtain ⟨head, row, bucket, here, linked⟩ :=
    rows.exists_row (home_lt (tbl.key o) buckets)
  refine ⟨_, _, ?_, rows.push new bucket here rfl, ?_, rfl, rfl, List.length_set .., ?_⟩
  · unfold bucketInsert
    dsimp only
    rw [bucket]
    rfl
  · rw [flatten_set here, flatten_at here]
    exact List.perm_middle
  · exact moved_setChain.chain

/-- The chain `n` is reversed in front of the chain `p`. -/
theorem bucketRev_spec (linked : Linked tbl.chain n l) (done : Linked tbl.chain p l')
    (nodup : (l ++ l').Nodup) (enough : l.length < fuel) :
    ∃ head tbl', bucketRev fuel tbl p n = some (head, tbl') ∧
      Linked tbl'.chain head (l.reverse ++ l') ∧ Moved l tbl tbl' ∧
      tbl'.buckets = tbl.buckets := by
  induction l generalizing tbl p n l' fuel with
  | nil =>
      cases fuel with
      | zero => cases enough
      | succ fuel =>
          cases linked
          exact ⟨p, tbl, rfl, done, .refl, rfl⟩
  | cons x l ih =>
      cases fuel with
      | zero => cases enough
      | succ fuel =>
          obtain ⟨rfl, rest⟩ := linked
          rw [List.cons_append, List.nodup_cons, List.mem_append, not_or] at nodup
          obtain ⟨⟨other, other'⟩, nodup⟩ := nodup
          have apart : (l ++ x :: l').Nodup := by
            rw [List.nodup_middle, List.nodup_cons, List.mem_append, not_or]
            exact ⟨⟨other, other'⟩, nodup⟩
          have rest' : Linked (tbl.setChain x p).chain (tbl.chain x) l := rest.update other
          have done' : Linked (tbl.setChain x p).chain (some x) (x :: l') := done.cons other'
          obtain ⟨head, tbl', returned, reversed, moved, buckets⟩ :=
            ih rest' done' apart (Nat.lt_of_succ_lt_succ enough)
          refine ⟨head, tbl', returned, ?_, moved_setChain.trans moved, buckets⟩
          rw [List.reverse_cons, List.append_assoc]
          exact reversed

/-- The objects of a chain are put into the buckets. -/
theorem moveChain_spec (linked : Linked tbl.chain n l) (rows : Rows par tbl rs)
    (buckets : 0 < tbl.buckcnt) (nodup : (l ++ rs.flatten).Nodup) (enough : l.length < fuel) :
    ∃ tbl' rs', moveChain par fuel tbl n = some tbl' ∧ Rows par tbl' rs' ∧
      rs'.flatten.Perm (l ++ rs.flatten) ∧ Moved l tbl tbl' := by
  induction l generalizing tbl n rs fuel with
  | nil =>
      cases fuel with
      | zero => cases enough
      | succ fuel =>
          cases linked
          exact ⟨tbl, rs, rfl, rows, .refl _, .refl⟩
  | cons x l ih =>
      cases fuel with
      | zero => cases enough
      | succ fuel =>
          obtain ⟨rfl, rest⟩ := linked
          rw [List.cons_append, List.nodup_cons, List.mem_append, not_or] at nodup
          obtain ⟨⟨other, new⟩, nodup⟩ := nodup
          obtain ⟨mid, rs₁, inserted, rows₁, perm₁, moved₁⟩ := bucketInsert_spec rows buckets new
          have rest₁ : Linked mid.chain (tbl.chain x) l :=
            moved₁.linked rest (List.singleton_disjoint.mpr other)
          have nodup₁ : (l ++ rs₁.flatten).Nodup := by
            rw [(perm₁.append_left l).nodup_iff, List.nodup_middle, List.nodup_cons,
              List.mem_append, not_or]
            exact ⟨⟨other, new⟩, nodup⟩
          obtain ⟨tbl', rs', returned, rows', perm', moved'⟩ :=
            ih rest₁ rows₁ (moved₁.count ▸ buckets) nodup₁ (Nat.lt_of_succ_lt_succ enough)
          refine ⟨tbl', rs', ?_, rows', ?_, moved₁.trans moved'⟩
          · unfold moveChain
            dsimp only
            rw [inserted]
            exact returned
          · exact perm'.trans ((perm₁.append_left l).trans List.perm_middle)

/-- All old chains are put into the new buckets. -/
theorem moveBuckets_spec {obuckets : List (Option Obj)} {olds : List (List Obj)}
    (rows : Rows par tbl rs) (linked : List.Forall₂ (Linked tbl.chain) obuckets olds)
    (buckets : 0 < tbl.buckcnt) (nodup : (olds.flatten ++ rs.flatten).Nodup)
    (enough : olds.flatten.length < fuel) :
    ∃ tbl' rs', moveBuckets par fuel obuckets tbl = some tbl' ∧ Rows par tbl' rs' ∧
      rs'.flatten.Perm (olds.flatten ++ rs.flatten) ∧ Moved olds.flatten tbl tbl' := by
  induction olds generalizing obuckets tbl rs with
  | nil =>
      cases linked
      exact ⟨tbl, rs, rfl, rows, .refl _, .refl⟩
  | cons old olds ih =>
      obtain _ | ⟨here, rest⟩ := linked
      rw [List.flatten_cons] at nodup enough
      obtain ⟨nodupOlds, nodupRows, apartRows⟩ := List.nodup_append'.mp nodup
      obtain ⟨nodupOld, -, apartOlds⟩ := List.nodup_append'.mp nodupOlds
      obtain ⟨apartOld, apartRest⟩ := List.disjoint_append_left.mp apartRows
      rw [List.length_append] at enough
      have enoughOld : old.length < fuel := by omega
      obtain ⟨o, mid, reversed, chain, moved, same⟩ :=
        bucketRev_spec here (linked_nil.mpr rfl) (nodupOld.append List.nodup_nil
          (List.disjoint_nil_right old)) enoughOld
      rw [List.append_nil] at chain
      have perm := old.reverse_perm
      obtain ⟨mid₂, rs₂, inserted, rows₂, perm₂, moved₂⟩ :=
        moveChain_spec chain (rows.moved moved same apartOld) (moved.count ▸ buckets)
          ((perm.append_right _).nodup_iff.mpr (nodupOld.append nodupRows apartOld))
          (List.length_reverse ▸ enoughOld)
      have moved₂ := moved.trans (moved₂.mono perm.subset)
      have perm₂ := perm₂.trans (perm.append_right rs.flatten)
      have moved₂ : Moved old tbl mid₂ := moved₂.mono (by simp)
      have regroup : (olds.flatten ++ (old ++ rs.flatten)).Perm
          (old ++ olds.flatten ++ rs.flatten) := by
        rw [← List.append_assoc]
        exact List.perm_append_comm.append_right _
      have nodup₂ : (olds.flatten ++ rs₂.flatten).Nodup :=
        ((perm₂.append_left _).trans regroup).nodup_iff.mpr nodup
      obtain ⟨tbl', rs', returned, rows', perm', moved'⟩ :=
        ih rows₂ (moved₂.all rest apartOlds) (moved₂.count ▸ buckets) nodup₂ (by omega)
      refine ⟨tbl', rs', ?_, rows', ?_, moved₂.trans moved'⟩
      · unfold moveBuckets
        rw [reversed]
        dsimp only [Option.bind_eq_bind, Option.bind_some]
        rw [inserted]
        exact returned
      · exact perm'.trans ((perm₂.append_left _).trans regroup)

/-- The objects of a table: its rows hold them, no two have the same key, and they are
counted. -/
structure Holds (par : Params Key) (tbl : Htbl Obj Key) (rs : List (List Obj))
    (objs : Finset Obj) : Prop where
  rows : Rows par tbl rs
  buckets : 0 < tbl.buckcnt
  mem : ∀ o, o ∈ rs.flatten ↔ o ∈ objs
  size : tbl.size = rs.flatten.length
  distinct : ∀ x ∈ objs, ∀ y ∈ objs, par.eq (tbl.key x) (tbl.key y) = true → x = y

omit [DecidableEq Obj] in
theorem Holds.card {objs : Finset Obj} (holds : Holds par tbl rs objs) :
    rs.flatten.length = objs.card := by
  classical
  rw [← List.toFinset_card_of_nodup holds.rows.nodup]
  congr 1
  ext o
  rw [List.mem_toFinset, holds.mem]

omit [DecidableEq Obj] in
/-- A table with new buckets, in which nothing is yet. -/
theorem rows_replicate (tbl : Htbl Obj Key) (count : Nat) :
    Rows par { tbl with buckets := List.replicate count none } (List.replicate count []) := by
  refine ⟨?_, fun i head row bucket here => ?_, fun i row here o mem => ?_⟩
  · exact List.length_replicate.trans List.length_replicate.symm
  · cases List.eq_of_mem_replicate (List.mem_of_getElem? bucket)
    cases List.eq_of_mem_replicate (List.mem_of_getElem? here)
    rfl
  · cases List.eq_of_mem_replicate (List.mem_of_getElem? here)
    cases mem

/-- Growth changes no binding, whether there is memory for it or not. -/
theorem htblGrow_spec {objs : Finset Obj} (memory : Bool) (holds : Holds par tbl rs objs)
    (enough : objs.card < fuel) :
    ∃ tbl' rs', htblGrow par fuel memory tbl = some tbl' ∧ Holds par tbl' rs' objs ∧
      tbl'.key = tbl.key ∧ tbl'.size = tbl.size := by
  unfold htblGrow
  cases memory with
  | false => exact ⟨tbl, rs, rfl, holds, rfl, rfl⟩
  | true =>
      dsimp only
      rw [if_pos rfl]
      have empty : (List.replicate (2 * tbl.buckcnt + 1) ([] : List Obj)).flatten = [] := by
        simp
      have count : 0 < (List.replicate (2 * tbl.buckcnt + 1) (none : Option Obj)).length := by
        rw [List.length_replicate]
        omega
      have rows : Rows par { tbl with buckets := List.replicate (2 * tbl.buckcnt + 1) none }
          (List.replicate (2 * tbl.buckcnt + 1) []) := rows_replicate tbl _
      obtain ⟨tbl', rs', returned, rows', perm, moved⟩ := moveBuckets_spec rows holds.rows.forall₂ count
        (by rw [empty, List.append_nil]; exact holds.rows.nodup) (holds.card ▸ enough)
      rw [empty, List.append_nil] at perm
      refine ⟨tbl', rs', returned, ⟨rows', moved.count ▸ count, fun o => ?_, ?_, ?_⟩,
        moved.key, moved.size⟩
      · rw [perm.mem_iff]
        exact holds.mem o
      · rw [moved.size, perm.length_eq]
        exact holds.size
      · rw [moved.key]
        exact holds.distinct

theorem htblInsert_spec {objs : Finset Obj} (memory : Bool) (holds : Holds par tbl rs objs)
    (absent : ∀ x ∈ objs, ¬par.eq (tbl.key x) (tbl.key o) = true)
    (enough : objs.card + 1 < fuel) :
    ∃ tbl' rs', htblInsert par fuel memory tbl o = some tbl' ∧
      Holds par tbl' rs' (insert o objs) ∧ tbl'.key = tbl.key := by
  have new : o ∉ rs.flatten := fun mem =>
    absent o ((holds.mem o).mp mem) (par.equivalence.refl _)
  obtain ⟨mid, rs₁, inserted, rows₁, perm, moved⟩ := bucketInsert_spec holds.rows holds.buckets new
  have holds₁ : Holds par { mid with size := mid.size + 1 } rs₁ (insert o objs) := by
    refine ⟨⟨rows₁.count, rows₁.linked, rows₁.homed⟩, ?_, fun x => ?_, ?_, ?_⟩
    · exact moved.count ▸ holds.buckets
    · rw [perm.mem_iff, List.mem_cons, Finset.mem_insert, holds.mem]
    · rw [perm.length_eq, List.length_cons, ← holds.size, moved.size]
    · rw [moved.key]
      intro x mem y mem' same
      rcases Finset.mem_insert.mp mem with rfl | old
      · rcases Finset.mem_insert.mp mem' with rfl | old'
        · rfl
        · exact absurd (par.equivalence.symm same) (absent y old')
      · rcases Finset.mem_insert.mp mem' with rfl | old'
        · exact absurd same (absent x old)
        · exact holds.distinct x old y old' same
  have few : (insert o objs).card < fuel := Nat.lt_of_le_of_lt (Finset.card_insert_le o objs) enough
  unfold htblInsert
  rw [inserted]
  dsimp only [Option.bind_eq_bind, Option.bind_some]
  split
  · obtain ⟨tbl', rs', returned, holds', key, -⟩ := htblGrow_spec memory holds₁ few
    exact ⟨tbl', rs', returned, holds', key.trans moved.key⟩
  · exact ⟨_, rs₁, rfl, holds₁, moved.key⟩

end Btpd.Hashtable
