import Btpd.Swarm.References

/-!
# The logs of pieces

A record holds its `meta_peer`, so the references to it move when a piece gets other
logs: they are pending in between.  The routines for a block, for a bad piece and a
good one, and for a torrent that stops, keep the counts.
-/

namespace Btpd.Swarm

open Prog

variable {d : Daemon} {callers : List Fn} {counted : Prop} {stopping : Option Nat}
  {pending : List Nat} {v : View} {m p n index : Nat}

/-! ## Records -/

namespace Table

/-- The `meta_peer`s that records name. -/
def named (rs : List BlogRecord) : List Nat := rs.map BlogRecord.mp

theorem countP_eq_count (rs : List BlogRecord) (m : Nat) :
    (rs.countP fun r => decide (r.mp = m)) = (named rs).count m := by
  rw [named, List.count, List.countP_map]
  exact List.countP_congr fun r _ => by simp

/-- Other logs for a piece. -/
theorem recordsOf_updatePiece {pcs : List Piece} {pc : Piece} (logs : List (List BlogRecord))
    (found : pcs.find? (fun pc => decide (pc.index = index)) = some pc) :
    (recordsOf pcs ++ logs.flatten).Perm
      (recordsOf (updatePiece index logs pcs) ++ pc.logs.flatten) := by
  induction pcs with
  | nil => cases found
  | cons pc' pcs ih =>
      unfold updatePiece
      split
      · rename_i here
        rw [List.find?_cons_of_pos (by simpa using here)] at found
        obtain rfl := Option.some.inj found
        show (pc'.logs.flatten ++ recordsOf pcs ++ logs.flatten).Perm
          (logs.flatten ++ recordsOf pcs ++ pc'.logs.flatten)
        rw [List.append_assoc, List.append_assoc]
        refine List.perm_append_comm.trans ?_
        rw [List.append_assoc]
        refine List.perm_append_comm.trans ?_
        rw [List.append_assoc]
        exact List.Perm.append_left _ List.perm_append_comm
      · rename_i other
        rw [List.find?_cons_of_neg (by simpa using other)] at found
        show (pc'.logs.flatten ++ recordsOf pcs ++ logs.flatten).Perm
          (pc'.logs.flatten ++ recordsOf (updatePiece index logs pcs) ++ pc.logs.flatten)
        rw [List.append_assoc, List.append_assoc]
        exact (ih found).append_left _

/-- The records of a piece go with it. -/
theorem recordsOf_eraseP {pcs : List Piece} {pc : Piece}
    (found : pcs.find? (fun pc => decide (pc.index = index)) = some pc) :
    (recordsOf pcs).Perm
      (pc.logs.flatten ++ recordsOf (pcs.eraseP fun pc => decide (pc.index = index))) :=
  List.Perm.flatMap_right (fun pc : Piece => pc.logs.flatten) (Count.perm_cons_eraseP found)

/-- A piece that is found is in progress. -/
theorem mem_of_found {t : Table} {pc : Piece} (found : t.dlFindPiece n index = some pc) :
    pc ∈ t.getlst n := List.mem_of_find?_eq_some found

theorem index_of_found {t : Table} {pc : Piece} (found : t.dlFindPiece n index = some pc) :
    pc.index = index := by
  simpa using List.find?_some found

theorem mem_updatePiece {pcs : List Piece} {pc : Piece} {logs : List (List BlogRecord)}
    (mem : pc ∈ updatePiece index logs pcs) : pc ∈ pcs ∨ pc.logs = logs := by
  induction pcs with
  | nil => cases mem
  | cons pc' pcs ih =>
      unfold updatePiece at mem
      split at mem
      · rcases List.mem_cons.mp mem with rfl | later
        · exact .inr rfl
        · exact .inl (List.mem_cons_of_mem _ later)
      · rcases List.mem_cons.mp mem with rfl | later
        · exact .inl List.mem_cons_self
        · exact (ih later).imp_left (List.mem_cons_of_mem _)

/-- References move between the records of a torrent and the pending ones. -/
theorem Ok.moved {t : Table} {pending' : List Nat} {pcs : List Piece}
    (ok : t.Ok counted stopping pending v)
    (perm : (named (t.records n) ++ pending).Perm (named (recordsOf pcs) ++ pending'))
    (own : counted → ∀ m ∈ named (recordsOf pcs), v.attached m = true ∧ v.n m = some n)
    (active : counted → v.active n = false → stopping ≠ some n → recordsOf pcs = []) :
    Ok { t with getlst := Function.update t.getlst n pcs } counted stopping pending' v := by
  have getlstEq : ∀ n', (Function.update t.getlst n pcs) n' = if n' = n then pcs else t.getlst n' :=
    fun n' => Function.update_apply ..
  have recordsEq : ∀ n', records { t with getlst := Function.update t.getlst n pcs } n' =
      if n' = n then recordsOf pcs else t.records n' := by
    intro n'
    show recordsOf ((Function.update t.getlst n pcs) n') = _
    rw [getlstEq]
    split <;> rfl
  refine { ok with counts := fun counting => ?_ }
  have counts := ok.counts counting
  have own := own counting
  have before : ∀ m ∈ named (t.records n), m ∈ t.mps ∧ v.n m = some n := by
    intro m mem
    obtain ⟨r, listed, rfl⟩ := List.mem_map.mp mem
    exact ⟨(counts.record n r listed).1, (counts.record n r listed).2.2⟩
  have mem_mps : ∀ m, m ∈ named (recordsOf pcs) ∨ m ∈ pending' → m ∈ t.mps := by
    intro m mem
    rcases List.mem_append.mp (perm.mem_iff.mpr (List.mem_append.mpr mem)) with mem | mem
    · exact (before m mem).1
    · exact counts.pending_mem m mem
  refine { counts with record := ?_, pending_mem := ?_, refs := ?_, quiet := ?_ }
  · intro n' r mem
    rw [recordsEq] at mem
    split at mem
    · rename_i here
      have named := List.mem_map_of_mem (f := BlogRecord.mp) mem
      exact ⟨mem_mps r.mp (.inl named), here ▸ own r.mp named⟩
    · exact counts.record n' r mem
  · exact fun m mem => mem_mps m (.inr mem)
  · intro m mem
    have refs := counts.refs m mem
    have same := perm.count_eq m
    rw [List.count_append, List.count_append] at same
    show (t.mp m).refs = _ + recordCount _ v m + _ + _
    unfold recordCount at refs ⊢
    cases belongs : v.n m with
    | none =>
        rw [belongs] at refs
        have none₁ : (named (t.records n)).count m = 0 := List.count_eq_zero.mpr fun mem => by
          cases belongs.symm.trans (before m mem).2
        have none₂ : (named (recordsOf pcs)).count m = 0 := List.count_eq_zero.mpr fun mem => by
          cases belongs.symm.trans (own m mem).2
        dsimp only at refs ⊢
        omega
    | some n' =>
        rw [belongs] at refs
        dsimp only at refs ⊢
        rw [countP_eq_count] at refs ⊢
        rw [recordsEq]
        by_cases here : n' = n
        · rw [if_pos here]
          rw [here] at refs
          omega
        · rw [if_neg here]
          have none₁ : (named (t.records n)).count m = 0 := List.count_eq_zero.mpr fun mem =>
            here (Option.some.inj (belongs.symm.trans (before m mem).2))
          have none₂ : (named (recordsOf pcs)).count m = 0 := List.count_eq_zero.mpr fun mem =>
            here (Option.some.inj (belongs.symm.trans (own m mem).2))
          omega
  · intro n' inactive running
    rw [recordsEq]
    split
    · rename_i here
      exact active counting (here ▸ inactive) (here ▸ running)
    · exact counts.quiet n' inactive running

/-- The logs that a piece gets last are its logs. -/
theorem updatePiece_updatePiece {logs logs' : List (List BlogRecord)} {pcs : List Piece} :
    updatePiece index logs' (updatePiece index logs pcs) = updatePiece index logs' pcs := by
  induction pcs with
  | nil => rfl
  | cons pc pcs ih =>
      by_cases here : pc.index = index
      · simp [updatePiece, here]
      · simp [updatePiece, here, ih]

/-- A piece is found with the logs it has got. -/
theorem dlFindPiece_setLogs {t : Table} {pc : Piece} {logs : List (List BlogRecord)}
    (found : t.dlFindPiece n index = some pc) :
    (t.setLogs n index logs).dlFindPiece n index = some { pc with logs := logs } := by
  have inList : ∀ pcs : List Piece, pcs.find? (fun pc => decide (pc.index = index)) = some pc →
      (updatePiece index logs pcs).find? (fun pc => decide (pc.index = index)) =
        some { pc with logs := logs } := by
    intro pcs found
    induction pcs with
    | nil => cases found
    | cons pc' pcs ih =>
        unfold updatePiece
        split
        · rename_i here
          rw [List.find?_cons_of_pos (by simpa using here)] at found ⊢
          rw [Option.some.inj found]
        · rename_i other
          rw [List.find?_cons_of_neg (by simpa using other)] at found ⊢
          exact ih found
  unfold dlFindPiece setLogs
  dsimp only
  rw [Function.update_self]
  exact inList _ found

/-- The records of a piece change with the references that are pending. -/
theorem Ok.setLogs {t : Table} {pending' : List Nat} {pc : Piece}
    {logs : List (List BlogRecord)} (ok : t.Ok counted stopping pending v)
    (found : t.dlFindPiece n index = some pc) (active : v.active n = true)
    (perm : (named pc.logs.flatten ++ pending).Perm (named logs.flatten ++ pending'))
    (own : counted → ∀ r ∈ logs.flatten, v.attached r.mp = true ∧ v.n r.mp = some n) :
    (t.setLogs n index logs).Ok counted stopping pending' v := by
  have changed := recordsOf_updatePiece logs found
  refine ok.moved ?_ (fun counting m mem => ?_) fun _ inactive => ?_
  · rw [List.perm_iff_count]
    intro m
    have counts := perm.count_eq m
    have moved := (changed.map BlogRecord.mp).count_eq m
    rw [List.map_append, List.map_append] at moved
    simp only [List.count_append] at counts moved ⊢
    unfold records
    unfold named at counts ⊢
    omega
  · obtain ⟨r, listed, rfl⟩ := List.mem_map.mp mem
    have before := changed.mem_iff.mpr (List.mem_append_left _ listed)
    rcases List.mem_append.mp before with old | new
    · exact ((ok.counts counting).record n r old).2
    · exact own counting r new
  · rw [active] at inactive
    cases inactive

end Table

/-! ## Freeing logs -/

/-- Every piece in progress has a log. -/
def Logged (getlst : Nat → List Piece) : Prop := ∀ n, ∀ pc ∈ getlst n, pc.logs ≠ []

theorem Logged.setLogs {t : Table} {logs : List (List BlogRecord)} (logged : Logged t.getlst)
    (some : logs ≠ []) : Logged (t.setLogs n index logs).getlst := by
  intro n' pc mem
  have mem : pc ∈ Function.update t.getlst n _ n' := mem
  rw [Function.update_apply] at mem
  split at mem
  · rcases Table.mem_updatePiece mem with old | new
    · exact logged n pc old
    · exact new ▸ some
  · exact logged n' pc mem

theorem Logged.unlinkPiece {t : Table} (logged : Logged t.getlst) :
    Logged (t.unlinkPiece n index).getlst := by
  intro n' pc mem
  have mem : pc ∈ Function.update t.getlst n _ n' := mem
  rw [Function.update_apply] at mem
  split at mem
  · exact logged n pc (List.mem_of_mem_eraseP mem)
  · exact logged n' pc mem

/-- The records of a log give their references back. -/
theorem pieceLogFree_wp {log : List BlogRecord}
    (ok : d.table.Ok counted stopping (Table.named log ++ pending) v)
    (attachedEq : ∀ m, (d.roster.peer m).attached = v.attached m)
    (own : counted → ∀ r ∈ log, v.n r.mp = some n) :
    (pieceLogFree n log).wp (contract counted) callers (fun _ d' => d.To (fun t =>
      t.Ok counted stopping pending v ∧ t.getlst = d.table.getlst) d') d := by
  unfold pieceLogFree
  refine wp_mono (wp_forEach (fun rest d' => d.To (fun t =>
    t.Ok counted stopping (Table.named rest ++ pending) v ∧ t.getlst = d.table.getlst) d')
    ?_ ⟨_, rfl, ok, rfl⟩) fun _ _ held => held
  rintro r rest _ suffix ⟨t, rfl, ok, getlst⟩
  have mem : r ∈ log := suffix.subset List.mem_cons_self
  refine wp_mono (mpDrop_wp ok (attachedEq r.mp) fun _ => ⟨n, rfl, fun counting =>
    own counting r mem⟩) ?_
  rintro _ _ ⟨t', rfl, ok, same⟩
  exact ⟨t', rfl, ok, same.trans getlst⟩

/-- A piece goes with its logs. -/
theorem pieceFree_wp (ok : d.table.Ok counted stopping [] v)
    (attachedEq : ∀ m, (d.roster.peer m).attached = v.attached m)
    (found : (d.table.dlFindPiece n index).isSome = true) :
    (pieceFree n index).wp (contract counted) callers (fun _ d' => d.To (fun t =>
      t.Ok counted stopping [] v ∧ t.getlst = (d.table.unlinkPiece n index).getlst) d') d := by
  obtain ⟨pc, found⟩ := Option.isSome_iff_exists.mp found
  have perm := Table.recordsOf_eraseP found
  have own : counted → ∀ r ∈ d.table.records n, v.attached r.mp = true ∧ v.n r.mp = some n :=
    fun counting r mem => ((ok.counts counting).record n r mem).2
  have unlinked : (d.table.unlinkPiece n index).Ok counted stopping
      (Table.named pc.logs.flatten) v := by
    refine ok.moved ?_ (fun counting m mem => ?_) fun counting inactive running => ?_
    · rw [List.append_nil]
      refine (perm.map BlogRecord.mp).trans ?_
      rw [List.map_append]
      exact List.perm_append_comm
    · obtain ⟨r, listed, rfl⟩ := List.mem_map.mp mem
      exact own counting r (perm.mem_iff.mpr (List.mem_append_right _ listed))
    · have none : d.table.records n = [] := (ok.counts counting).quiet n inactive running
      have perm : (d.table.records n).Perm _ := perm
      rw [none] at perm
      exact (List.append_eq_nil_iff.mp perm.nil_eq.symm).2
  unfold pieceFree
  rw [wp_bind, wp_get, found]
  dsimp only
  rw [wp_bind, wp_onTable]
  refine wp_mono (wp_forEach (fun rest d' => d.To (fun t =>
    t.Ok counted stopping (Table.named rest.flatten) v ∧
      t.getlst = (d.table.unlinkPiece n index).getlst) d')
    ?_ ⟨_, rfl, unlinked, rfl⟩) fun _ _ held => held
  rintro log rest _ suffix ⟨t, rfl, ok, getlst⟩
  rw [List.flatten_cons, Table.named, List.map_append] at ok
  have mem : ∀ r ∈ log, r ∈ d.table.records n := fun r mem => perm.mem_iff.mpr
    (List.mem_append_left _ (List.mem_flatten.mpr ⟨log, suffix.subset List.mem_cons_self, mem⟩))
  refine wp_mono (pieceLogFree_wp ok attachedEq fun counting r listed =>
    (own counting r (mem r listed)).2) ?_
  rintro _ _ ⟨t', rfl, ok, same⟩
  exact ⟨t', rfl, ok, same.trans getlst⟩

/-! ## Blocks -/

/-- The newest log of the piece has a record. -/
def Begun (t : Table) (n index : Nat) : Prop :=
  ∃ pc r log logs, t.dlFindPiece n index = some pc ∧ pc.logs = (r :: log) :: logs

theorem pieceLogBlock_wp {block : Nat} (ok : d.table.Ok counted stopping [] v)
    (logged : Logged d.table.getlst) (active : v.active n = true)
    (belongs : counted → p ∈ d.table.mps ∧ v.attached p = true ∧ v.n p = some n)
    (found : (d.table.dlFindPiece n index).isSome = true) :
    (pieceLogBlock n index p block).wp (contract counted) callers (fun _ d' => d.To (fun t =>
      t.Ok counted stopping [] v ∧ Logged t.getlst ∧ Begun t n index) d') d := by
  obtain ⟨pc, found⟩ := Option.isSome_iff_exists.mp found
  have own : counted → ∀ r ∈ pc.logs.flatten, v.attached r.mp = true ∧ v.n r.mp = some n := by
    intro counting r mem
    refine ((ok.counts counting).record n r ?_).2
    exact (List.mem_flatMap.mpr ⟨pc, Table.mem_of_found found, mem⟩)
  unfold pieceLogBlock
  rw [wp_bind, wp_get, found]
  dsimp only
  cases logs : pc.logs with
  | nil => exact absurd logs (logged n pc (Table.mem_of_found found))
  | cons log older =>
      rw [logs, List.flatten_cons] at own
      dsimp only
      cases record : log.find? fun r => decide (r.mp = p) with
      | none =>
          dsimp only
          rw [wp_bind]
          refine wp_mono (mpHold_wp ok fun counting => (belongs counting).1) ?_
          rintro _ _ ⟨_, rfl, held, refs, rfl⟩
          rw [wp_onTable]
          refine ⟨_, rfl, held.setLogs found active ?_ (fun counting r mem => ?_),
            logged.setLogs (List.cons_ne_nil _ _), _, _, _, _,
            Table.dlFindPiece_setLogs found, rfl⟩
          · rw [logs]
            exact List.perm_append_comm.trans (List.Perm.of_eq (by simp [Table.named]))
          · rcases List.mem_cons.mp mem with rfl | old
            · exact (belongs counting).2
            · exact own counting r old
      | some r =>
          dsimp only
          rw [wp_onTable]
          have listed : r ∈ log := List.mem_of_find?_eq_some record
          have split := Count.perm_cons_eraseP record
          refine ⟨_, rfl, ok.setLogs found active ?_ (fun counting r' mem => ?_),
            logged.setLogs (List.cons_ne_nil _ _), _, _, _, _,
            Table.dlFindPiece_setLogs found, rfl⟩
          · rw [logs, List.append_nil, List.append_nil]
            exact ((split.append_right _).map BlogRecord.mp)
          · rcases List.mem_cons.mp mem with rfl | old
            · exact own counting r (List.mem_append_left _ listed)
            · exact own counting r' ((split.append_right _).mem_iff.mpr (List.mem_cons_of_mem _ old))

/-! ## Bad pieces and good ones -/

/-- What the records of a torrent need for a ban. -/
theorem banned_wp {r : BlogRecord} (ok : d.table.Ok counted stopping [] v)
    (old : n < v.nextNet) (mem : r ∈ d.table.records n) :
    (netBanPeer n r.mp).wp (contract counted) callers (fun _ d' => d.To (fun t =>
      t.Ok counted stopping [] v ∧ t.getlst = d.table.getlst) d') d := by
  have named := fun counting => (ok.counts counting).record n r mem
  refine wp_mono (netBanPeer_wp ok (fun counting => (named counting).1)
    (fun counting => (named counting).2.1) fun counting => ⟨(named counting).2.2, old⟩) ?_
  rintro _ _ ⟨t, rfl, ok, getlst, _⟩
  exact ⟨t, rfl, ok, getlst⟩

theorem pieceLogBad_wp {pc : Piece} {r : BlogRecord} {log : List BlogRecord}
    {logs : List (List BlogRecord)} (ok : d.table.Ok counted stopping [] v)
    (logged : Logged d.table.getlst) (active : v.active n = true) (old : n < v.nextNet)
    (attachedEq : ∀ m, (d.roster.peer m).attached = v.attached m)
    (found : d.table.dlFindPiece n index = some pc) (begun : pc.logs = (r :: log) :: logs) :
    (pieceLogBad n pc).wp (contract counted) callers (fun _ d' => d.To (fun t =>
      t.Ok counted stopping [] v ∧ Logged t.getlst) d') d := by
  have indexEq := Table.index_of_found found
  have listed : ∀ r ∈ pc.logs.flatten, r ∈ d.table.records n := fun r mem =>
    List.mem_flatMap.mpr ⟨pc, Table.mem_of_found found, mem⟩
  have own : counted → ∀ r ∈ pc.logs.flatten, v.attached r.mp = true ∧ v.n r.mp = some n :=
    fun counting r mem => ((ok.counts counting).record n r (listed r mem)).2
  -- the piece gets a new log on top of the old ones
  have again : ∀ logs', logs' = pc.logs →
      d.To (fun t => t.Ok counted stopping [] v ∧ Logged t.getlst)
        { d with table := d.table.setLogs n pc.index ([] :: logs') } := by
    rintro _ rfl
    rw [indexEq]
    exact ⟨_, rfl, ok.setLogs found active (.refl _) own, logged.setLogs (List.cons_ne_nil _ _)⟩
  unfold pieceLogBad
  rw [begun]
  cases log with
  | cons r' log =>
      dsimp only
      rw [wp_onTable]
      exact again _ begun.symm
  | nil =>
      dsimp only
      rw [wp_ite]
      split
      · rw [wp_bind]
        refine wp_mono (banned_wp ok old (listed r (by rw [begun]; exact List.mem_cons_self))) ?_
        rintro _ _ ⟨t, rfl, ok, getlst⟩
        have found : t.dlFindPiece n index = some pc := by
          unfold Table.dlFindPiece
          rw [getlst]
          exact found
        have taken : (t.setLogs n pc.index logs).Ok counted stopping
            (Table.named [r] ++ []) v := by
          rw [indexEq]
          refine ok.setLogs found active ?_ fun counting r mem => own counting r ?_
          · rw [begun, List.append_nil]
            exact @List.perm_append_comm _ [r.mp] _
          · rw [begun]
            exact List.mem_cons_of_mem _ mem
        rw [wp_bind, wp_onTable, wp_bind]
        refine wp_mono (pieceLogFree_wp taken attachedEq
          fun counting r' mem => ?_) ?_
        · rw [List.mem_singleton.mp mem]
          exact (own counting r (by rw [begun]; exact List.mem_cons_self)).2
        rintro _ _ ⟨t', rfl, ok', getlst'⟩
        have found' : t'.dlFindPiece n index = some { pc with logs := logs } := by
          unfold Table.dlFindPiece
          rw [getlst']
          exact indexEq ▸ Table.dlFindPiece_setLogs (indexEq ▸ found)
        rw [wp_onTable, indexEq]
        refine ⟨_, rfl, ok'.setLogs found' active (.refl _) fun counting r mem => own counting r ?_, ?_⟩
        · rw [begun]
          exact List.mem_cons_of_mem _ mem
        · have twice : (t'.setLogs n index ([] :: logs)).getlst =
              (t.setLogs n index ([] :: logs)).getlst := by
            unfold Table.setLogs
            rw [getlst', indexEq]
            unfold Table.setLogs
            dsimp only
            rw [Function.update_self, Function.update_idem, Table.updatePiece_updatePiece]
          rw [twice]
          exact Logged.setLogs (getlst.symm ▸ logged) (List.cons_ne_nil _ _)
      · rw [wp_onTable]
        exact again _ begun.symm

theorem pieceLogGood_wp {pc : Piece} {culprit : Nat → Bool}
    (ok : d.table.Ok counted stopping [] v) (old : n < v.nextNet)
    (found : d.table.dlFindPiece n index = some pc) :
    (pieceLogGood n pc culprit).wp (contract counted) callers (fun _ d' => d.To (fun t =>
      t.Ok counted stopping [] v ∧ t.getlst = d.table.getlst) d') d := by
  refine wp_forEach_keeps (fun d' => d.To (fun t =>
    t.Ok counted stopping [] v ∧ t.getlst = d.table.getlst) d') ?_ ⟨_, rfl, ok, rfl⟩
  rintro log mem _ ⟨t, rfl, ok, getlst⟩
  refine wp_forEach_keeps (fun d' => d.To (fun t =>
    t.Ok counted stopping [] v ∧ t.getlst = d.table.getlst) d') ?_ ⟨_, rfl, ok, getlst⟩
  rintro r mem' _ ⟨t', rfl, ok', getlst'⟩
  rw [wp_when]
  split
  · have listed : r ∈ t'.records n := by
      unfold Table.records
      rw [getlst']
      exact List.mem_flatMap.mpr ⟨pc, Table.mem_of_found found,
        List.mem_flatten.mpr ⟨log, List.mem_of_mem_tail mem, mem'⟩⟩
    refine wp_mono (banned_wp ok' old listed) ?_
    rintro _ _ ⟨t'', rfl, ok'', getlst''⟩
    exact ⟨t'', rfl, ok'', getlst''.trans getlst'⟩
  · exact ⟨t', rfl, ok', getlst'⟩

theorem dlOnBadPiece_wp (ok : d.table.Ok counted stopping [] v)
    (logged : Logged d.table.getlst) (active : v.active n = true) (old : n < v.nextNet)
    (attachedEq : ∀ m, (d.roster.peer m).attached = v.attached m)
    (begun : Begun d.table n index) :
    (dlOnBadPiece n index).wp (contract counted) callers (fun _ d' => d.To (fun t =>
      t.Ok counted stopping [] v ∧ Logged t.getlst) d') d := by
  obtain ⟨pc, r, log, logs, found, begun⟩ := begun
  unfold dlOnBadPiece
  rw [wp_bind, wp_get, found]
  exact pieceLogBad_wp ok logged active old attachedEq found begun

theorem dlOnOkPiece_wp {culprit : Nat → Bool} (ok : d.table.Ok counted stopping [] v)
    (logged : Logged d.table.getlst) (old : n < v.nextNet)
    (attachedEq : ∀ m, (d.roster.peer m).attached = v.attached m)
    (begun : Begun d.table n index) :
    (dlOnOkPiece n index culprit).wp (contract counted) callers (fun _ d' => d.To (fun t =>
      t.Ok counted stopping [] v ∧ Logged t.getlst) d') d := by
  obtain ⟨pc, _, _, _, found, _⟩ := begun
  unfold dlOnOkPiece
  rw [wp_bind, wp_get, found]
  dsimp only
  rw [wp_bind]
  refine wp_mono (pieceLogGood_wp ok old found) ?_
  rintro _ _ ⟨t, rfl, ok, getlst⟩
  have found : (t.dlFindPiece n index).isSome = true := by
    unfold Table.dlFindPiece at found ⊢
    rw [getlst, found]
    rfl
  refine wp_mono (pieceFree_wp ok attachedEq found) ?_
  rintro _ _ ⟨t', rfl, ok', getlst'⟩
  exact ⟨t', rfl, ok', getlst' ▸ Logged.unlinkPiece (getlst.symm ▸ logged)⟩

/-! ## Torrents that stop -/

/-- All pieces of a torrent go. -/
theorem piecesFree_wp {fuel : Nat} (ok : d.table.Ok counted stopping [] v)
    (logged : Logged d.table.getlst)
    (attachedEq : ∀ m, (d.roster.peer m).attached = v.attached m)
    (enough : (d.table.getlst n).length < fuel) :
    (piecesFree n fuel).wp (contract counted) callers (fun _ d' => d.To (fun t =>
      t.Ok counted stopping [] v ∧ Logged t.getlst ∧ t.getlst n = []) d') d := by
  induction fuel generalizing d with
  | zero => cases enough
  | succ fuel ih =>
      unfold piecesFree
      rw [wp_bind, wp_get]
      cases pieces : d.table.getlst n with
      | nil => exact wp_pure.mpr ⟨_, rfl, ok, logged, pieces⟩
      | cons pc pcs =>
          have found : d.table.dlFindPiece n pc.index = some pc := by
            unfold Table.dlFindPiece
            rw [pieces, List.find?_cons_of_pos (by simp)]
          dsimp only
          rw [wp_bind]
          refine wp_mono (pieceFree_wp ok attachedEq (by rw [found]; rfl)) ?_
          rintro _ _ ⟨t, rfl, ok', getlst⟩
          have fewer : t.getlst n = pcs := by
            rw [getlst]
            unfold Table.unlinkPiece
            dsimp only
            rw [Function.update_self, pieces, List.eraseP_cons_of_pos (by simp)]
          rw [pieces] at enough
          refine wp_mono (ih ok' (getlst ▸ logged.unlinkPiece) attachedEq ?_) ?_
          · show (t.getlst n).length < fuel
            rw [fewer]
            exact Nat.lt_of_succ_lt_succ enough
          · rintro _ _ ⟨t', rfl, held⟩
            exact ⟨t', rfl, held⟩

end Btpd.Swarm
