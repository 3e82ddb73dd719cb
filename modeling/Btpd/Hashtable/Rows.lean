import Btpd.Library.Linked
import Btpd.Hashtable.Table
import Mathlib

/-!
# The chains of a table

`Rows` says which objects stand in which chain and in which order.  An object stands only
in the chain of its bucket, so one chain can be changed without any effect on the others.
-/

namespace Btpd.Hashtable

variable {Obj Key : Type} {par : Params Key} {tbl tbl' : Htbl Obj Key}
  {rs : List (List Obj)} {row row' a b : List Obj} {i j fuel : Nat} {o x : Obj} {key : Key}
  {head link : Option Obj}

/-- The rows are what stands in the chains of the buckets, and every object stands in the
bucket of its key. -/
structure Rows (par : Params Key) (tbl : Htbl Obj Key) (rs : List (List Obj)) : Prop where
  count : rs.length = tbl.buckcnt
  linked : ∀ (i : Nat) head row, tbl.buckets[i]? = some head → rs[i]? = some row →
    Linked tbl.chain head row
  homed : ∀ (i : Nat) row, rs[i]? = some row → ∀ o ∈ row, home par tbl (tbl.key o) = i

/-- The link that leads to what follows `a` in the chain of a bucket. -/
def slotAfter (bi : Nat) (a : List Obj) : Slot Obj := a.getLast?.elim (.bucket bi) .chain

@[simp]
theorem slotAfter_nil : slotAfter i ([] : List Obj) = .bucket i := rfl

@[simp]
theorem slotAfter_concat : slotAfter i (a ++ [x]) = .chain x := by
  simp [slotAfter]

/-- One row of many. -/
theorem flatten_at (here : rs[i]? = some row) :
    rs.flatten = (rs.take i).flatten ++ (row ++ (rs.drop (i + 1)).flatten) := by
  obtain ⟨lt, rfl⟩ := List.getElem?_eq_some_iff.mp here
  conv_lhs => rw [← List.take_append_drop i rs, List.drop_eq_getElem_cons lt]
  rw [List.flatten_append, List.flatten_cons]

theorem flatten_set (here : rs[i]? = some row) :
    (rs.set i row').flatten = (rs.take i).flatten ++ (row' ++ (rs.drop (i + 1)).flatten) := by
  obtain ⟨lt, rfl⟩ := List.getElem?_eq_some_iff.mp here
  rw [List.set_eq_take_append_cons_drop, if_pos lt, List.flatten_append, List.flatten_cons]

namespace Rows

theorem lt_count (here : tbl.buckets[i]? = some head) : i < tbl.buckcnt :=
  (List.getElem?_eq_some_iff.mp here).1

/-- Every bucket has its chain. -/
theorem exists_row (rows : Rows par tbl rs) (lt : i < tbl.buckcnt) :
    ∃ head row, tbl.buckets[i]? = some head ∧ rs[i]? = some row ∧
      Linked tbl.chain head row := by
  have bound : i < tbl.buckets.length := lt
  have bound' : i < rs.length := by
    rw [rows.count]
    exact lt
  have bucket := List.getElem?_eq_getElem bound
  have row := List.getElem?_eq_getElem bound'
  exact ⟨_, _, bucket, row, rows.linked i _ _ bucket row⟩

theorem exists_head (rows : Rows par tbl rs) (here : rs[i]? = some row) :
    ∃ head, tbl.buckets[i]? = some head ∧ Linked tbl.chain head row := by
  obtain ⟨lt, -⟩ := List.getElem?_eq_some_iff.mp here
  obtain ⟨head, row', bucket, here', linked⟩ := rows.exists_row (rows.count ▸ lt)
  cases here.symm.trans here'
  exact ⟨head, bucket, linked⟩

/-- Two chains have no object in common. -/
theorem apart (rows : Rows par tbl rs) (here : rs[i]? = some row) (there : rs[j]? = some row')
    (mem : o ∈ row) (mem' : o ∈ row') : i = j :=
  (rows.homed i row here o mem).symm.trans (rows.homed j row' there o mem')

/-- The chain of an object is that of its key. -/
theorem mem_home (rows : Rows par tbl rs) (mem : o ∈ rs.flatten)
    (here : rs[home par tbl (tbl.key o)]? = some row) : o ∈ row := by
  obtain ⟨row', among, mem⟩ := List.mem_flatten.mp mem
  obtain ⟨j, there⟩ := List.mem_iff_getElem?.mp among
  rw [rows.homed j row' there o mem] at here
  cases here.symm.trans there
  exact mem

/-- No object stands in the table twice. -/
theorem nodup (rows : Rows par tbl rs) : rs.flatten.Nodup := by
  refine List.nodup_flatten.mpr ⟨fun row among => ?_, ?_⟩
  · obtain ⟨i, here⟩ := List.mem_iff_getElem?.mp among
    obtain ⟨head, -, linked⟩ := rows.exists_head here
    exact linked.nodup
  · rw [List.pairwise_iff_getElem]
    intro i j lt lt' less o mem mem'
    have same := rows.apart (List.getElem?_eq_getElem lt) (List.getElem?_eq_getElem lt') mem mem'
    exact absurd same (Nat.ne_of_lt less)

/-- One chain is replaced. -/
theorem replace (rows : Rows par tbl rs) (here : rs[i]? = some row)
    (count : tbl'.buckcnt = tbl.buckcnt) (keys : tbl'.key = tbl.key)
    (bucket : tbl'.buckets[i]? = some head) (linked : Linked tbl'.chain head row')
    (homed : ∀ o ∈ row', home par tbl (tbl.key o) = i)
    (buckets : ∀ j : Nat, j ≠ i → tbl'.buckets[j]? = tbl.buckets[j]?)
    (chains : ∀ (j : Nat) other, j ≠ i → rs[j]? = some other → ∀ o ∈ other,
      tbl'.chain o = tbl.chain o) :
    Rows par tbl' (rs.set i row') := by
  have homes : ∀ k, home par tbl' k = home par tbl k := fun k => by
    unfold home
    rw [count]
  obtain ⟨lt, -⟩ := List.getElem?_eq_some_iff.mp here
  refine ⟨?_, fun j head' other bucket' there => ?_, fun j other there o mem => ?_⟩
  · rw [List.length_set, rows.count, count]
  · by_cases same : i = j
    · subst same
      rw [List.getElem?_set_self lt] at there
      cases there
      cases bucket.symm.trans bucket'
      exact linked
    · rw [List.getElem?_set_ne same] at there
      rw [buckets j (Ne.symm same)] at bucket'
      exact (rows.linked j head' other bucket' there).frame (chains j other (Ne.symm same) there)
  · rw [homes, keys]
    by_cases same : i = j
    · subst same
      rw [List.getElem?_set_self lt] at there
      cases there
      exact homed o mem
    · rw [List.getElem?_set_ne same] at there
      exact rows.homed j other there o mem

section Write

variable [DecidableEq Obj]

/-- An object is put in front of a chain. -/
theorem push (rows : Rows par tbl rs) (new : o ∉ rs.flatten)
    (bucket : tbl.buckets[i]? = some head) (here : rs[i]? = some row)
    (homed : home par tbl (tbl.key o) = i) :
    Rows par ((tbl.setChain o head).setBucket i (some o)) (rs.set i (o :: row)) := by
  have outside : ∀ (j : Nat) other, rs[j]? = some other → o ∉ other := fun j other there mem =>
    new (List.mem_flatten.mpr ⟨other, List.mem_of_getElem? there, mem⟩)
  have linked := rows.linked i head row bucket here
  refine rows.replace here (List.length_set ..) rfl ?_ (linked.cons (outside i row here)) ?_ ?_ ?_
  · exact List.getElem?_set_self (lt_count bucket)
  · exact List.forall_mem_cons.mpr ⟨homed, rows.homed i row here⟩
  · exact fun j other => List.getElem?_set_ne other.symm
  · intro j other _ there x mem
    refine Function.update_of_ne ?_ ..
    rintro rfl
    exact outside j other there mem

/-- An object is taken out of its chain. -/
theorem unlink (rows : Rows par tbl rs) (here : rs[i]? = some (a ++ o :: b)) :
    Rows par (tbl.write (tbl.chain o) (slotAfter i a)) (rs.set i (a ++ b)) := by
  obtain ⟨head, bucket, linked⟩ := rows.exists_head here
  have homed : ∀ x ∈ a ++ b, home par tbl (tbl.key x) = i := fun x mem => by
    refine rows.homed i _ here x ?_
    rcases List.mem_append.mp mem with left | right
    · exact List.mem_append_left _ left
    · exact List.mem_append_right _ (List.mem_cons_of_mem o right)
  rcases List.eq_nil_or_concat a with rfl | ⟨a, y, rfl⟩
  · refine rows.replace here (List.length_set ..) rfl ?_ linked.2 homed ?_ ?_
    · exact List.getElem?_set_self (lt_count bucket)
    · exact fun j other => List.getElem?_set_ne other.symm
    · exact fun _ _ _ _ _ _ => rfl
  · rw [List.concat_eq_append] at *
    rw [slotAfter_concat]
    rw [List.append_assoc] at linked homed ⊢
    refine rows.replace here rfl rfl bucket linked.skip homed (fun _ _ => rfl) ?_
    intro j other ne there x mem
    refine Function.update_of_ne ?_ ..
    rintro rfl
    refine ne (rows.apart there here mem ?_)
    simp

end Write

end Rows

end Btpd.Hashtable
