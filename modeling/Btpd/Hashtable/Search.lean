import Btpd.Hashtable.Growth

/-!
# Searching and removing

Both walk along the chain of the key's bucket to the first object with an equal key.  As
equal keys have the same hash and no two objects have equal keys, that object is the only
one of the table.
-/

namespace Btpd.Hashtable

variable {Obj Key : Type} [DecidableEq Obj] {par : Params Key} {tbl tbl' : Htbl Obj Key}
  {rs : List (List Obj)} {objs : Finset Obj} {row a b l : List Obj} {i fuel : Nat} {o x : Obj}
  {key : Key} {p ret : Option Obj}

omit [DecidableEq Obj] in
theorem Holds.mem_of_row (holds : Holds par tbl rs objs) (here : rs[i]? = some row)
    (mem : o ∈ row) : o ∈ objs :=
  (holds.mem o).mp (List.mem_flatten.mpr ⟨row, List.mem_of_getElem? here, mem⟩)

omit [DecidableEq Obj] in
/-- No chain is longer than the number of objects. -/
theorem Holds.length_row_le (holds : Holds par tbl rs objs) (here : rs[i]? = some row) :
    row.length ≤ objs.card := by
  have whole := congrArg List.length (flatten_at here)
  rw [holds.card, List.length_append, List.length_append] at whole
  omega

omit [DecidableEq Obj] in
/-- The first object with an equal key in the chain of the key is the only one. -/
theorem Holds.found (holds : Holds par tbl rs objs) (here : rs[home par tbl key]? = some row) :
    (row.find? fun o => par.eq (tbl.key o) key) = some o ↔
      o ∈ objs ∧ par.eq (tbl.key o) key = true := by
  constructor
  · intro found
    refine ⟨holds.mem_of_row here (List.mem_of_find?_eq_some found), ?_⟩
    exact List.find?_some (p := fun o => par.eq (tbl.key o) key) found
  · rintro ⟨mem, same⟩
    have mem_row : o ∈ row := by
      refine holds.rows.mem_home ((holds.mem o).mpr mem) ?_
      unfold home
      rw [par.hash_eq _ _ same]
      exact here
    cases found : row.find? fun o => par.eq (tbl.key o) key with
    | none =>
        have none := List.find?_eq_none.mp found o mem_row
        exact absurd same none
    | some x =>
        have there := holds.mem_of_row here (List.mem_of_find?_eq_some found)
        have alike := List.find?_some (p := fun o => par.eq (tbl.key o) key) found
        have equal := par.equivalence.trans alike (par.equivalence.symm same)
        rw [holds.distinct x there o mem equal]

omit [DecidableEq Obj] in
theorem findLoop_spec (linked : Linked tbl.chain p l) (enough : l.length < fuel) :
    findLoop par tbl key fuel p = some (l.find? fun o => par.eq (tbl.key o) key) := by
  induction l generalizing p fuel with
  | nil =>
      cases fuel with
      | zero => cases enough
      | succ fuel =>
          cases linked
          rfl
  | cons x l ih =>
      cases fuel with
      | zero => cases enough
      | succ fuel =>
          obtain ⟨rfl, rest⟩ := linked
          unfold findLoop
          rw [List.find?_cons, ih rest (Nat.lt_of_succ_lt_succ enough)]
          cases par.eq (tbl.key x) key <;> rfl

omit [DecidableEq Obj] in
theorem htblFind_spec (key : Key) (holds : Holds par tbl rs objs) (enough : objs.card < fuel) :
    ∃ ret, htblFind par fuel tbl key = some ret ∧
      ∀ o, ret = some o ↔ o ∈ objs ∧ par.eq (tbl.key o) key = true := by
  obtain ⟨head, row, bucket, here, linked⟩ := holds.rows.exists_row (home_lt key holds.buckets)
  have few := Nat.lt_of_le_of_lt (holds.length_row_le here) enough
  refine ⟨row.find? fun o => par.eq (tbl.key o) key, ?_, fun o => holds.found here⟩
  unfold htblFind
  rw [bucket]
  exact findLoop_spec linked few

omit [DecidableEq Obj] in
/-- The walk to an object whose predecessors have other keys. -/
theorem removeLoop_of_found (linked : Linked tbl.chain p (b ++ o :: l))
    (others : ∀ x ∈ b, par.eq (tbl.key x) key = false) (same : par.eq (tbl.key o) key = true)
    (enough : (b ++ o :: l).length < fuel) :
    removeLoop par tbl key fuel (slotAfter i a) p = some (slotAfter i (a ++ b), some o) := by
  induction b generalizing a p fuel with
  | nil =>
      cases fuel with
      | zero => cases enough
      | succ fuel =>
          obtain ⟨rfl, -⟩ := linked
          unfold removeLoop
          rw [if_pos same, List.append_nil]
  | cons x b ih =>
      cases fuel with
      | zero => cases enough
      | succ fuel =>
          obtain ⟨rfl, rest⟩ := linked
          obtain ⟨other, others⟩ := List.forall_mem_cons.mp others
          have walked := ih (a := a ++ [x]) rest others (Nat.lt_of_succ_lt_succ enough)
          rw [slotAfter_concat, List.append_assoc] at walked
          unfold removeLoop
          rw [if_neg (Bool.eq_false_iff.mp other)]
          exact walked

omit [DecidableEq Obj] in
theorem removeLoop_of_absent (linked : Linked tbl.chain p l)
    (others : ∀ x ∈ l, par.eq (tbl.key x) key = false) (enough : l.length < fuel)
    (slot : Slot Obj) : ∃ slot', removeLoop par tbl key fuel slot p = some (slot', none) := by
  induction l generalizing p fuel slot with
  | nil =>
      cases fuel with
      | zero => cases enough
      | succ fuel =>
          cases linked
          exact ⟨slot, rfl⟩
  | cons x l ih =>
      cases fuel with
      | zero => cases enough
      | succ fuel =>
          obtain ⟨rfl, rest⟩ := linked
          obtain ⟨other, others⟩ := List.forall_mem_cons.mp others
          unfold removeLoop
          rw [if_neg (Bool.eq_false_iff.mp other)]
          exact ih rest others (Nat.lt_of_succ_lt_succ enough) _

@[simp]
theorem key_write {slot : Slot Obj} : (tbl.write p slot).key = tbl.key := by
  cases slot <;> rfl

@[simp]
theorem buckcnt_write {slot : Slot Obj} : (tbl.write p slot).buckcnt = tbl.buckcnt := by
  cases slot with
  | bucket bi => exact List.length_set ..
  | chain o => rfl

theorem write_size {slot : Slot Obj} {size : Nat} :
    ({ tbl with size := size } : Htbl Obj Key).write p slot =
      { tbl.write p slot with size := size } := by
  cases slot <;> rfl

/-- An object is taken out of its chain and is not counted any more. -/
theorem Holds.unlink (holds : Holds par tbl rs objs) (here : rs[i]? = some (a ++ o :: b)) :
    Holds par { tbl.write (tbl.chain o) (slotAfter i a) with size := tbl.size - 1 }
      (rs.set i (a ++ b)) (objs.erase o) := by
  have rows := holds.rows.unlink here
  have perm : rs.flatten.Perm (o :: (rs.set i (a ++ b)).flatten) := by
    rw [flatten_at here, flatten_set here, List.append_assoc, List.append_assoc, List.cons_append]
    exact ((List.perm_middle).append_left _).trans List.perm_middle
  have out : o ∉ (rs.set i (a ++ b)).flatten :=
    (List.nodup_cons.mp (perm.nodup_iff.mp holds.rows.nodup)).1
  refine ⟨⟨rows.count, rows.linked, rows.homed⟩, ?_, fun x => ?_, ?_, fun x mem y mem' => ?_⟩
  · have some := holds.buckets
    rw [← buckcnt_write] at some
    exact some
  · rw [Finset.mem_erase, ← holds.mem, perm.mem_iff, List.mem_cons]
    constructor
    · intro mem
      refine ⟨?_, .inr mem⟩
      rintro rfl
      exact out mem
    · rintro ⟨ne, rfl | mem⟩
      · exact absurd rfl ne
      · exact mem
  · have length := perm.length_eq
    rw [List.length_cons, ← holds.size] at length
    dsimp only
    omega
  · rw [Finset.mem_erase] at mem mem'
    dsimp only
    rw [key_write]
    exact holds.distinct x mem.2 y mem'.2

theorem htblRemove_spec (key : Key) (holds : Holds par tbl rs objs) (enough : objs.card < fuel) :
    ∃ ret tbl' rs', htblRemove par fuel tbl key = some (ret, tbl') ∧
      (∀ o, ret = some o ↔ o ∈ objs ∧ par.eq (tbl.key o) key = true) ∧
      Holds par tbl' rs' (ret.elim objs objs.erase) ∧ tbl'.key = tbl.key := by
  obtain ⟨head, row, bucket, here, linked⟩ := holds.rows.exists_row (home_lt key holds.buckets)
  have few := Nat.lt_of_le_of_lt (holds.length_row_le here) enough
  cases found : row.find? fun o => par.eq (tbl.key o) key with
  | none =>
      have others := List.find?_eq_none.mp found
      obtain ⟨slot, walked⟩ := removeLoop_of_absent linked
        (fun x mem => Bool.eq_false_iff.mpr (others x mem)) few
        (.bucket (home par tbl key))
      refine ⟨none, tbl, rs, ?_, fun o => found ▸ holds.found here, holds, rfl⟩
      unfold htblRemove
      dsimp only [Option.bind_eq_bind]
      rw [bucket, Option.bind_some, walked]
      rfl
  | some o =>
      obtain ⟨same, a, b, rfl, others⟩ := List.find?_eq_some_iff_append.mp found
      have walked := removeLoop_of_found (i := home par tbl key) (a := []) linked
        (fun x mem => by simpa using others x mem) same few
      refine ⟨some o, _, _, ?_, fun x => found ▸ holds.found here, holds.unlink here, key_write⟩
      unfold htblRemove
      dsimp only [Option.bind_eq_bind]
      rw [slotAfter_nil, List.nil_append] at walked
      rw [bucket, Option.bind_some, walked]
      rfl

end Btpd.Hashtable
