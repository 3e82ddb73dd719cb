import Btpd.Hashtable.Search

/-!
# The iterator

An iterator stands on an object of a chain.  The objects before it, in the order of the
buckets and within the chains, are those that it has shown and that are still there; the
count says how many they are, so that it ends where the objects end.
-/

namespace Btpd.Hashtable

variable {Obj Key : Type} {par : Params Key} {tbl tbl' : Htbl Obj Key}
  {rs : List (List Obj)} {objs : Finset Obj} {before left : List Obj} {bi cnt : Nat} {x : Obj}
  {it : Iter Obj}

/-- Where an iterator stands. -/
structure Position (rs : List (List Obj)) (it : Iter Obj) (before left : List Obj) : Prop where
  split : ∃ a b, rs[it.bi]? = some (a ++ it.obj :: b) ∧ it.ptr = slotAfter it.bi a ∧
    before = (rs.take it.bi).flatten ++ a ∧ left = b ++ (rs.drop (it.bi + 1)).flatten
  cnt : it.cnt = before.length + 1

theorem Position.flatten (pos : Position rs it before left) :
    rs.flatten = before ++ it.obj :: left := by
  obtain ⟨a, b, here, -, rfl, rfl⟩ := pos.split
  rw [flatten_at here]
  simp only [List.append_assoc, List.cons_append]

theorem Position.mem (holds : Holds par tbl rs objs) (pos : Position rs it before left) :
    it.obj ∈ objs := by
  rw [← holds.mem, pos.flatten]
  exact List.mem_append_right before List.mem_cons_self

/-- The count and the objects that are left make up the size. -/
theorem Position.size (holds : Holds par tbl rs objs) (pos : Position rs it before left) :
    tbl.size = it.cnt + left.length := by
  have whole := congrArg List.length pos.flatten
  rw [← holds.size, List.length_append, List.length_cons] at whole
  rw [pos.cnt]
  omega

/-- The first bucket with a chain. -/
theorem nextBucket_spec {next : Obj → Option Obj} {heads : List (Option Obj)}
    {rows : List (List Obj)} (linked : List.Forall₂ (Linked next) heads rows)
    (more : rows.flatten ≠ []) (bi : Nat) :
    ∃ k o b, nextBucket heads bi = some (bi + k, o) ∧ rows[k]? = some (o :: b) ∧
      (rows.take k).flatten = [] := by
  induction linked generalizing bi with
  | nil => exact absurd rfl more
  | @cons head row heads rows here rest ih =>
      cases head with
      | none =>
          cases here.of_none
          obtain ⟨k, o, b, found, there, empty⟩ := ih more (bi + 1)
          refine ⟨k + 1, o, b, ?_, there, empty⟩
          rw [Nat.add_right_comm] at found
          exact found
      | some o =>
          obtain ⟨b, rfl, -⟩ := here.of_some
          exact ⟨0, o, b, rfl, rfl, rfl⟩

/-- The iterator goes on to the next bucket that has a chain. -/
theorem iterNextBucket_spec (rows : Rows par tbl rs) (bi cnt : Nat) (left : List Obj)
    (more : (rs.drop bi).flatten = x :: left) :
    ∃ it, iterNextBucket tbl bi cnt = some it ∧ it.obj = x ∧ it.cnt = cnt ∧
      (it.cnt = (rs.take bi).flatten.length + 1 →
        Position rs it (rs.take bi).flatten left) := by
  have nonempty : (rs.drop bi).flatten ≠ [] := by
    rw [more]
    exact List.cons_ne_nil x left
  obtain ⟨k, o, b, found, here, empty⟩ :=
    nextBucket_spec (List.forall₂_drop bi rows.forall₂) nonempty bi
  rw [List.getElem?_drop] at here
  have skipped : (rs.take (bi + k)).flatten = (rs.take bi).flatten := by
    rw [List.take_add, List.flatten_append, empty, List.append_nil]
  have rest : x :: left = o :: (b ++ (rs.drop (bi + k + 1)).flatten) := by
    have whole := flatten_at here
    rw [skipped] at whole
    conv at whole => lhs; rw [← List.take_append_drop bi rs]
    rw [List.flatten_append, more] at whole
    exact List.append_cancel_left whole
  obtain ⟨rfl, rfl⟩ := List.cons.inj rest
  refine ⟨⟨bi + k, cnt, .bucket (bi + k), x⟩, ?_, rfl, rfl, fun counted => ⟨?_, counted⟩⟩
  · unfold iterNextBucket
    rw [found]
    rfl
  · refine ⟨[], b, here, rfl, ?_, rfl⟩
    rw [skipped, List.append_nil]

theorem htblIterFirst_spec (holds : Holds par tbl rs objs) :
    (objs = ∅ ∧ htblIterFirst tbl = some none) ∨
      ∃ it left, htblIterFirst tbl = some (some it) ∧ Position rs it [] left := by
  unfold htblIterFirst
  rw [holds.size, holds.card]
  cases objects : rs.flatten with
  | nil =>
      have none := holds.card
      rw [objects] at none
      left
      exact ⟨Finset.card_eq_zero.mp none.symm, if_pos none.symm⟩
  | cons x left =>
      right
      have some : ¬objs.card = 0 := by
        rw [← holds.card, objects]
        exact Nat.succ_ne_zero _
      obtain ⟨it, found, -, cnt, pos⟩ := iterNextBucket_spec holds.rows 0 1 left objects
      refine ⟨it, left, ?_, pos cnt⟩
      rw [if_neg some, found]
      rfl

/-- At the last object the iterator ends, and else it goes on to the next one. -/
theorem htblIterNext_spec (holds : Holds par tbl rs objs) (pos : Position rs it before left) :
    (left = [] ∧ htblIterNext tbl it = some none) ∨
      ∃ x left' it', left = x :: left' ∧ htblIterNext tbl it = some (some it') ∧ it'.obj = x ∧
        Position rs it' (before ++ [it.obj]) left' := by
  have size := pos.size holds
  unfold htblIterNext
  cases left with
  | nil => exact .inl ⟨rfl, if_pos size.symm⟩
  | cons x left =>
      right
      have more : ¬it.cnt = tbl.size := by
        rw [size, List.length_cons]
        omega
      rw [if_neg more]
      obtain ⟨a, b, here, ptr, rfl, rest⟩ := pos.split
      obtain ⟨head, -, linked⟩ := holds.rows.exists_head here
      have after := linked.drop
      cases b with
      | cons y b =>
          obtain ⟨rfl, rfl⟩ := List.cons.inj rest
          refine ⟨x, _, ⟨it.bi, it.cnt + 1, .chain it.obj, x⟩, rfl, by rw [after.1], rfl,
            ⟨a ++ [it.obj], b, ?_, ?_, ?_, rfl⟩, ?_⟩
          · rw [List.append_assoc]
            exact here
          · exact slotAfter_concat.symm
          · exact List.append_assoc ..
          · dsimp only
            simp only [pos.cnt, List.length_append, List.length_singleton]
      | nil =>
          obtain ⟨it', found, obj, cnt, pos'⟩ :=
            iterNextBucket_spec holds.rows (it.bi + 1) (it.cnt + 1) left rest.symm
          have passed : (rs.take (it.bi + 1)).flatten =
              (rs.take it.bi).flatten ++ a ++ [it.obj] := by
            rw [List.take_add_one, here, Option.toList_some, List.flatten_append,
              List.flatten_singleton, List.append_assoc]
          rw [passed] at pos'
          refine ⟨x, left, it', rfl, ?_, obj, pos' ?_⟩
          · rw [after, found]
            rfl
          · simp only [cnt, pos.cnt, List.length_append, List.length_singleton]

section Delete

variable [DecidableEq Obj]

/-- The object is deleted, and the iterator ends or goes on as it would have otherwise. -/
theorem htblIterDel_spec (holds : Holds par tbl rs objs) (pos : Position rs it before left) :
    ∃ tbl' rs', Holds par tbl' rs' (objs.erase it.obj) ∧ tbl'.key = tbl.key ∧
      ((left = [] ∧ htblIterDel tbl it = some (none, tbl')) ∨
        ∃ x left' it', left = x :: left' ∧ htblIterDel tbl it = some (some it', tbl') ∧
          it'.obj = x ∧ Position rs' it' before left') := by
  have size := pos.size holds
  obtain ⟨a, b, here, ptr, prior, rest⟩ := pos.split
  obtain ⟨head, -, linked⟩ := holds.rows.exists_head here
  have after := linked.drop
  have holds' := holds.unlink here
  have lt := (List.getElem?_eq_some_iff.mp here).1
  have taken : (rs.set it.bi (a ++ b)).take it.bi = rs.take it.bi :=
    List.take_set_of_le (Nat.le_refl _)
  have dropped : (rs.set it.bi (a ++ b)).drop (it.bi + 1) = rs.drop (it.bi + 1) :=
    List.drop_set_of_lt (Nat.lt_succ_self _)
  have there : (rs.set it.bi (a ++ b))[it.bi]? = some (a ++ b) := List.getElem?_set_self lt
  rw [← ptr] at holds'
  refine ⟨_, _, holds', key_write, ?_⟩
  unfold htblIterDel
  dsimp only
  cases left with
  | nil =>
      left
      obtain ⟨rfl, -⟩ := List.append_eq_nil_iff.mp rest.symm
      have last : tbl.size - 1 < it.cnt := by
        rw [size, List.length_nil, pos.cnt]
        omega
      rw [if_pos last, after, write_size]
      exact ⟨rfl, rfl⟩
  | cons x left =>
      right
      have more : ¬tbl.size - 1 < it.cnt := by
        rw [size, List.length_cons]
        omega
      rw [if_neg more]
      cases b with
      | cons y b =>
          obtain ⟨rfl, rfl⟩ := List.cons.inj rest
          rw [after.1]
          refine ⟨x, _, { it with obj := x }, rfl, ?_, rfl, ⟨a, b, there, ptr, ?_, ?_⟩, pos.cnt⟩
          · dsimp only
            rw [write_size]
          · rw [prior, taken]
          · rw [dropped]
            rfl
      | nil =>
          rw [after] at holds' ⊢
          have next : ((rs.set it.bi (a ++ [])).drop (it.bi + 1)).flatten = x :: left := by
            rw [dropped, rest]
            rfl
          obtain ⟨it', found, obj, cnt, pos'⟩ :=
            iterNextBucket_spec holds'.rows (it.bi + 1) it.cnt left next
          have passed : ((rs.set it.bi (a ++ [])).take (it.bi + 1)).flatten = before := by
            rw [List.take_add_one, taken, there, Option.toList_some, List.flatten_append,
              List.flatten_singleton, List.append_nil, prior]
          rw [passed] at pos'
          refine ⟨x, left, it', rfl, ?_, obj, pos' (cnt.trans pos.cnt)⟩
          dsimp only
          rw [write_size, found]
          rfl

end Delete

end Btpd.Hashtable
