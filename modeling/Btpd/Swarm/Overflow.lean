import Btpd.Swarm.Runs

/-!
# More references than 16 bits can count

Two peers send the blocks of every piece together.  One piece is bad and stays in
progress with a record of each of them, the next one is good and clears them of
suspicion, and so on.  Each bad piece leaves one reference more to both, so after
65534 of them one more block makes the count of a connected peer 0.
-/

namespace Btpd.Swarm

open Prog

variable {d : Daemon} {callers : List Fn} {x x' : Nat → Nat} {pcs : List Piece}
  {m p index block : Nat}

/-- The contract of a routine that returns. -/
def returning : Contract Daemon Fn Fault := ⟨fun _ => False, fun _ => False⟩

/-- A routine that returns whenever it is called returns from the state. -/
theorem steps_of_wp {e : Event} {post : Daemon → Prop}
    (met : (system.handle e).wp returning [] (fun _ d' => post d') d) :
    ∃ d', system.Steps (fun _ => False) d e d' ∧ post d' := by
  rcases met with ⟨_, _, bad⟩ | ended
  · exact bad.elim
  · rcases ran : (system.handle e [] d).2 with fault | ⟨⟨⟩, d'⟩
    · rw [ran] at ended
      exact ended.elim
    · rw [ran] at ended
      exact ⟨d', ⟨ran, fun _ _ bad => bad⟩, ended⟩

/-- The daemon with other counts for the two peers and other pieces in progress. -/
def counts (d : Daemon) (x : Nat → Nat) (pcs : List Piece) : Daemon :=
  { d with table := { d.table with
      mp := fun m => if m < 2 then { d.table.mp m with refs := x m } else d.table.mp m
      getlst := Function.update d.table.getlst 0 pcs } }

/-- Two peers are attached to a torrent, and bandwidth is not limited. -/
structure Paired (d : Daemon) : Prop where
  unlimited : d.bwLimitIn = 0
  live : ∀ p < 2, p ∈ d.roster.live
  reads : ∀ p < 2, (d.queues.sock p).evRead = true
  stage : ∀ p < 2, (d.roster.peer p).stage = .btpMsg
  belongs : ∀ p < 2, (d.roster.peer p).n = some 0
  active : (d.roster.net 0).active = true
  mps : ∀ p < 2, p ∈ d.table.mps

theorem counts_congr (same : ∀ m < 2, x m = x' m) : counts d x pcs = counts d x' pcs := by
  unfold counts
  dsimp only
  congr 2
  funext m
  split
  · rename_i small
    rw [same m small]
  · rfl

/-! ## Routines -/

theorem hold_wp (mem : m ∈ d.table.mps) (small : m < 2) :
    (mpHold m).wp returning callers (fun _ d' =>
      d' = counts d (Function.update x m ((x m + 1) % 2 ^ 16)) pcs) (counts d x pcs) := by
  unfold mpHold
  rw [wp_call, wp_bind, wp_get, wp_bind, wp_assert, if_pos (by exact mem), wp_onTable]
  right
  unfold counts Table.setMp
  dsimp only
  congr 2
  funext m'
  rw [if_pos small, Function.update_apply]
  split
  · rename_i here
    rw [here, if_pos small, Function.update_self]
  · rename_i other
    rw [Function.update_of_ne other]

theorem drop_wp {n : Option Nat} (mem : m ∈ d.table.mps) (small : m < 2) (more : 1 < x m) :
    (mpDrop m n).wp returning callers (fun _ d' =>
      d' = counts d (Function.update x m (x m - 1)) pcs) (counts d x pcs) := by
  have refs : ((counts d x pcs).table.mp m).refs = x m := by
    show (if m < 2 then { d.table.mp m with refs := x m } else d.table.mp m).refs = x m
    rw [if_pos small]
  unfold mpDrop
  rw [wp_bind, wp_get, wp_bind, wp_assert, if_pos (by exact mem), wp_bind, wp_assert, refs,
    if_pos (by omega), wp_bind, wp_onTable, wp_when, if_neg (by omega)]
  unfold counts Table.setMp
  dsimp only
  congr 2
  funext m'
  rw [if_pos small, Function.update_apply]
  split
  · rename_i here
    rw [here, if_pos small, Function.update_self]
  · rename_i other
    rw [Function.update_of_ne other]

/-- The piece that has been begun last is found. -/
theorem find_last (pc : Piece) (others : ∀ pc' ∈ pcs, pc'.index ≠ pc.index) :
    (counts d x (pcs ++ [pc])).table.dlFindPiece 0 pc.index = some pc := by
  unfold Table.dlFindPiece counts
  dsimp only
  rw [Function.update_self, List.find?_append, List.find?_eq_none.mpr, Option.none_or]
  · rw [List.find?_cons_of_pos (by simp)]
  · exact fun pc' mem => by simpa using others pc' mem

theorem setLogs_last (pc : Piece) {logs : List (List BlogRecord)}
    (others : ∀ pc' ∈ pcs, pc'.index ≠ pc.index) :
    { counts d x (pcs ++ [pc]) with
      table := (counts d x (pcs ++ [pc])).table.setLogs 0 pc.index logs } =
      counts d x (pcs ++ [{ pc with logs := logs }]) := by
  have updated : Table.updatePiece pc.index logs (pcs ++ [pc]) =
      pcs ++ [{ pc with logs := logs }] := by
    induction pcs with
    | nil => simp [Table.updatePiece]
    | cons pc' pcs ih =>
        obtain ⟨here, later⟩ := List.forall_mem_cons.mp others
        rw [List.cons_append, Table.updatePiece, if_neg here, ih later]
        rfl
  unfold counts Table.setLogs
  dsimp only
  rw [Function.update_self, Function.update_idem, updated]

theorem logBlock_wp {pc : Piece} {log : List BlogRecord}
    {logs : List (List BlogRecord)} (pair : Paired d) (small : p < 2)
    (others : ∀ pc' ∈ pcs, pc'.index ≠ pc.index) (pcLogs : pc.logs = log :: logs)
    (first : ∀ r ∈ log, r.mp ≠ p) :
    (pieceLogBlock 0 pc.index p block).wp returning callers (fun _ d' =>
      d' = counts d (Function.update x p ((x p + 1) % 2 ^ 16))
        (pcs ++ [{ pc with
          logs := (⟨p, Function.update (fun _ => false) block true⟩ :: log) :: logs }]))
      (counts d x (pcs ++ [pc])) := by
  have none : log.find? (fun r => decide (r.mp = p)) = none :=
    List.find?_eq_none.mpr fun r mem => by simpa using first r mem
  unfold pieceLogBlock
  rw [wp_bind, wp_get, find_last _ others]
  dsimp only
  rw [pcLogs]
  dsimp only
  rw [none]
  dsimp only
  rw [wp_bind]
  refine wp_mono (hold_wp (pair.mps p small) small) ?_
  rintro _ _ rfl
  rw [wp_onTable]
  exact setLogs_last _ others

theorem alloc_wp (pair : Paired d) (fresh : ∀ pc ∈ pcs, pc.index ≠ index) :
    (doDeeds [.alloc 0 index 2]).wp returning callers (fun _ d' =>
      d' = counts d x (pcs ++ [⟨index, 2, [[]]⟩])) (counts d x pcs) := by
  have none : (counts d x pcs).table.dlFindPiece 0 index = none := by
    unfold Table.dlFindPiece counts
    dsimp only
    rw [Function.update_self]
    exact List.find?_eq_none.mpr fun pc mem => by simpa using fresh pc mem
  unfold doDeeds forEach doDeed
  rw [wp_bind, wp_bind, wp_get, wp_when, if_pos ⟨pair.active, by rw [none]; rfl⟩, wp_onTable]
  refine wp_pure.mpr ?_
  unfold counts Table.pieceAlloc
  dsimp only
  rw [Function.update_self, Function.update_idem]

/-- A message with a block is read at once. -/
theorem readBlock_wp {deeds : List Deed} {test : Test} {post : Daemon → Prop} (pair : Paired d)
    (small : p < 2)
    (body : (doDeeds deeds).wp returning [] (fun _ d' =>
      (dlOnBlock p ⟨index, block, test⟩).wp returning [] (fun _ d'' => post d'') d')
      (counts d x pcs)) :
    (system.handle (readBlock p deeds index block test)).wp returning [] (fun _ d' => post d')
      (counts d x pcs) := by
  show (handle (.read p _)).wp returning [] _ _
  unfold handle
  rw [wp_bind, wp_get, wp_when, if_pos ⟨pair.live p small, pair.reads p small⟩]
  unfold netReadCb
  rw [wp_bind, wp_get, wp_ite, if_pos (by exact pair.unlimited)]
  unfold netRead
  dsimp only
  rw [wp_bind, wp_bind]
  unfold netStates netState
  rw [wp_bind, wp_bind, wp_get]
  have stage : ((counts d x pcs).roster.peer p).stage = .btpMsg := pair.stage p small
  rw [stage]
  dsimp only
  rw [if_pos (by rfl)]
  change wp returning [] (doDeeds deeds >>= fun _ =>
    dlOnBlock p ⟨index, block, test⟩ >>= fun _ => pure true) _ _
  rw [wp_bind]
  refine wp_mono body fun _ d' blocked => ?_
  rw [wp_bind]
  refine wp_mono blocked fun _ d'' held => ?_
  rw [wp_pure, wp_when, if_pos rfl]
  unfold netStates
  rw [wp_pure, wp_pure, wp_pure]
  exact held

/-- What becomes of a piece after a block. -/
def tested (n index : Nat) : Test → Routine Unit
  | .open_ => pure ()
  | .ok culprit => dlOnOkPiece n index culprit
  | .bad => dlOnBadPiece n index

/-- A block of the piece that has been begun last, from a peer that has sent none. -/
theorem block_wp (pc : Piece) {log : List BlogRecord} {logs : List (List BlogRecord)}
    {test : Test} {post : Daemon → Prop} (pair : Paired d) (small : p < 2)
    (others : ∀ pc' ∈ pcs, pc'.index ≠ pc.index) (pcLogs : pc.logs = log :: logs)
    (first : ∀ r ∈ log, r.mp ≠ p)
    (after : (tested 0 pc.index test).wp returning [] (fun _ d' => post d')
      (counts d (Function.update x p ((x p + 1) % 2 ^ 16)) (pcs ++ [{ pc with
        logs := (⟨p, Function.update (fun _ => false) block true⟩ :: log) :: logs }]))) :
    (dlOnBlock p ⟨pc.index, block, test⟩).wp returning [] (fun _ d' => post d')
      (counts d x (pcs ++ [pc])) := by
  have belongs : ((counts d x (pcs ++ [pc])).roster.peer p).n = some 0 := pair.belongs p small
  unfold dlOnBlock
  rw [wp_bind, wp_get, belongs]
  dsimp only
  rw [wp_when, find_last _ others, if_pos (by rfl), wp_bind]
  refine wp_mono (logBlock_wp pair small others pcLogs first) ?_
  rintro _ _ rfl
  cases test <;> exact after

/-- The first block of a new piece. -/
theorem firstBlock_wp (block : Nat) (pair : Paired d) (small : p < 2) (fresh : ∀ pc ∈ pcs, pc.index ≠ index) :
    (system.handle (readBlock p [.alloc 0 index 2] index block .open_)).wp returning []
      (fun _ d' => d' = counts d (Function.update x p ((x p + 1) % 2 ^ 16))
        (pcs ++ [⟨index, 2, [[⟨p, Function.update (fun _ => false) block true⟩]]⟩]))
      (counts d x pcs) := by
  refine readBlock_wp pair small (wp_mono (alloc_wp pair fresh) ?_)
  rintro _ _ rfl
  refine block_wp ⟨index, 2, [[]]⟩ pair small fresh rfl nofun ?_
  exact wp_pure.mpr rfl

/-- A piece with a block of the first peer. -/
def begun (index : Nat) : Piece :=
  ⟨index, 2, [[⟨0, Function.update (fun _ => false) 0 true⟩]]⟩

/-- A log with a block of each peer. -/
def both : List BlogRecord :=
  [⟨1, Function.update (fun _ => false) 1 true⟩, ⟨0, Function.update (fun _ => false) 0 true⟩]

/-- A piece with a block of each peer. -/
def full (index : Nat) : Piece := ⟨index, 2, [both]⟩

/-- A piece that was bad, with a block of each peer. -/
def spoilt (index : Nat) : Piece := ⟨index, 2, [[], both]⟩

theorem begun_first : ∀ r ∈ [BlogRecord.mk 0 (Function.update (fun _ => false) 0 true)],
    r.mp ≠ 1 := fun r mem => by
  rw [List.mem_singleton.mp mem]
  decide

theorem find_full (others : ∀ pc ∈ pcs, pc.index ≠ index) :
    (counts d x (pcs ++ [full index])).table.dlFindPiece 0 index = some (full index) :=
  find_last (full index) others

/-- The second block of a piece. -/
theorem secondBlock_wp {test : Test} {post : Daemon → Prop} (pair : Paired d)
    (others : ∀ pc ∈ pcs, pc.index ≠ index)
    (after : (tested 0 index test).wp returning [] (fun _ d' => post d')
      (counts d (Function.update x 1 ((x 1 + 1) % 2 ^ 16)) (pcs ++ [full index]))) :
    (system.handle (readBlock 1 [] index 1 test)).wp returning [] (fun _ d' => post d')
      (counts d x (pcs ++ [begun index])) := by
  refine readBlock_wp pair (by decide) (wp_pure.mpr ?_)
  exact block_wp (begun index) pair (by decide) others rfl begun_first after

/-- The second block shows that the piece is bad. -/
theorem badBlock_wp (pair : Paired d) (others : ∀ pc ∈ pcs, pc.index ≠ index) :
    (system.handle (readBlock 1 [] index 1 .bad)).wp returning []
      (fun _ d' => d' = counts d (Function.update x 1 ((x 1 + 1) % 2 ^ 16))
        (pcs ++ [spoilt index])) (counts d x (pcs ++ [begun index])) := by
  refine secondBlock_wp pair others ?_
  unfold tested dlOnBadPiece
  rw [wp_bind, wp_get, find_full others]
  change (onTable fun t => t.setLogs 0 index ([] :: both :: [])).wp _ _ _ _
  rw [wp_onTable]
  exact setLogs_last (full index) others

/-- The second block shows that the piece is good. -/
theorem goodBlock_wp (pair : Paired d) (others : ∀ pc ∈ pcs, pc.index ≠ index)
    (first : 1 < x 0) (second : 0 < x 1) (small : x 1 + 1 < 2 ^ 16) :
    (system.handle (readBlock 1 [] index 1 (.ok fun _ => false))).wp returning []
      (fun _ d' => d' = counts d (Function.update x 0 (x 0 - 1)) pcs)
      (counts d x (pcs ++ [begun index])) := by
  refine secondBlock_wp pair others ?_
  rw [Nat.mod_eq_of_lt small]
  have unlinked : ∀ x, { counts d x (pcs ++ [full index]) with
      table := (counts d x (pcs ++ [full index])).table.unlinkPiece 0 index } =
      counts d x pcs := by
    intro x
    have erased : (pcs ++ [full index]).eraseP (fun pc => decide (pc.index = index)) = pcs := by
      rw [List.eraseP_append_right _ fun pc mem => by simpa using others pc mem]
      simp [full]
    unfold counts Table.unlinkPiece
    dsimp only
    rw [Function.update_self, Function.update_idem, erased]
  unfold tested dlOnOkPiece
  rw [wp_bind, wp_get, find_full others]
  dsimp only
  rw [wp_bind]
  refine wp_pure.mpr ?_
  unfold pieceFree
  rw [wp_bind, wp_get, find_full others]
  dsimp only
  rw [wp_bind, wp_onTable, unlinked]
  change ((mpDrop 1 (some 0) >>= fun _ => mpDrop 0 (some 0) >>= fun _ => pure ()) >>= fun _ =>
    pure () : Routine Unit).wp _ _ _ _
  rw [wp_bind, wp_bind]
  refine wp_mono (drop_wp (pair.mps 1 (by decide)) (by decide) ?_) ?_
  · rw [Function.update_self]
    omega
  rintro _ _ rfl
  rw [wp_bind]
  refine wp_mono (drop_wp (pair.mps 0 (by decide)) (by decide) ?_) ?_
  · rw [Function.update_of_ne (by decide), Function.update_of_ne (by decide)]
    exact first
  rintro _ _ rfl
  refine wp_pure.mpr (wp_pure.mpr (counts_congr fun m _ => ?_))
  simp only [Function.update_apply]
  split_ifs <;> simp_all

/-! ## Rounds -/

/-- The pieces that have been bad after so many rounds. -/
def spoiltPieces (k : Nat) : List Piece := (List.range k).map fun i => spoilt (2 * i + 1)

theorem index_spoiltPieces {k i : Nat} (later : 2 * k ≤ i) :
    ∀ pc ∈ spoiltPieces k, pc.index ≠ i := by
  intro pc mem
  obtain ⟨i', small, rfl⟩ := List.mem_map.mp mem
  have small := List.mem_range.mp small
  show 2 * i' + 1 ≠ i
  omega

/-- A good piece and a bad one leave one reference more to both peers. -/
theorem reachable_round (pair : Paired d) {k : Nat} (small : k + 2 < 2 ^ 16)
    (reached : system.Reachable (fun _ => False) (counts d (fun _ => k + 1) (spoiltPieces k))) :
    system.Reachable (fun _ => False)
      (counts d (fun _ => k + 2) (spoiltPieces (k + 1))) := by
  have others : ∀ pc ∈ spoiltPieces k, pc.index ≠ 2 * k := index_spoiltPieces (Nat.le_refl _)
  have others' : ∀ pc ∈ spoiltPieces k, pc.index ≠ 2 * k + 1 :=
    index_spoiltPieces (Nat.le_succ _)
  obtain ⟨d₁, step₁, rfl⟩ := steps_of_wp (firstBlock_wp (x := fun _ => k + 1) 0 pair
    (by decide : 0 < 2) others)
  rw [Nat.mod_eq_of_lt small] at step₁
  obtain ⟨d₂, step₂, rfl⟩ := steps_of_wp (goodBlock_wp
    (x := Function.update (fun _ => k + 1) 0 (k + 2)) pair others
    (by rw [Function.update_self]; omega) (by simp) (by simpa using small))
  have back : ∀ m < 2, Function.update (Function.update (fun _ => k + 1) 0 (k + 2)) 0
      (Function.update (fun _ => k + 1) 0 (k + 2) 0 - 1) m = k + 1 := fun m _ => by
    simp [Function.update_apply]
  rw [counts_congr back] at step₂
  obtain ⟨d₃, step₃, rfl⟩ := steps_of_wp (firstBlock_wp (x := fun _ => k + 1) 0 pair
    (by decide : 0 < 2) others')
  rw [Nat.mod_eq_of_lt small] at step₃
  obtain ⟨d₄, step₄, rfl⟩ := steps_of_wp (badBlock_wp
    (x := Function.update (fun _ => k + 1) 0 (k + 2)) pair others')
  have more : ∀ m < 2, Function.update (Function.update (fun _ => k + 1) 0 (k + 2)) 1
      ((Function.update (fun _ => k + 1) 0 (k + 2) 1 + 1) % 2 ^ 16) m = k + 2 := fun m two => by
    have small : (k + 1 + 1) % 2 ^ 16 = k + 2 := Nat.mod_eq_of_lt small
    rw [Function.update_of_ne (by decide : (1 : Nat) ≠ 0), small]
    simp only [Function.update_apply]
    split_ifs <;> omega
  have pieces : spoiltPieces k ++ [spoilt (2 * k + 1)] = spoiltPieces (k + 1) := by
    unfold spoiltPieces
    rw [List.range_succ, List.map_append]
    rfl
  rw [counts_congr more, pieces] at step₄
  exact (((reached.step step₁).step step₂).step step₃).step step₄

theorem reachable_rounds (pair : Paired d) {k : Nat} (small : k + 1 < 2 ^ 16)
    (reached : system.Reachable (fun _ => False) (counts d (fun _ => 1) [])) :
    system.Reachable (fun _ => False) (counts d (fun _ => k + 1) (spoiltPieces k)) := by
  induction k with
  | zero => exact reached
  | succ k ih => exact reachable_round pair small (ih (by omega))

/-- What a daemon shows when two peers are attached to a torrent. -/
def atStart (d : Daemon) : Prop :=
  d.bwLimitIn = 0 ∧ (d.roster.net 0).active = true ∧ (d.table.getlst 0).isEmpty = true ∧
    ∀ p < 2, p ∈ d.roster.live ∧ (d.queues.sock p).evRead = true ∧
      (d.roster.peer p).stage = .btpMsg ∧ (d.roster.peer p).n = some 0 ∧ p ∈ d.table.mps ∧
      (d.table.mp p).p = true ∧ (d.table.mp p).banned = false ∧ (d.table.mp p).refs = 1

instance : DecidablePred atStart := fun d => by
  unfold atStart
  infer_instance

theorem paired_atStart (start : atStart d) : Paired d where
  unlimited := start.1
  active := start.2.1
  live p two := (start.2.2.2 p two).1
  reads p two := (start.2.2.2 p two).2.1
  stage p two := (start.2.2.2 p two).2.2.1
  belongs p two := (start.2.2.2 p two).2.2.2.1
  mps p two := (start.2.2.2 p two).2.2.2.2.1

theorem counts_atStart (start : atStart d) : counts d (fun _ => 1) [] = d := by
  obtain ⟨-, -, empty, each⟩ := start
  have mp : (fun m => if m < 2 then { d.table.mp m with refs := 1 } else d.table.mp m) =
      d.table.mp := by
    funext m
    split
    · rename_i two
      obtain ⟨-, -, -, -, -, -, -, refs⟩ := each m two
      rw [← refs]
    · rfl
  have getlst : Function.update d.table.getlst 0 [] = d.table.getlst := by
    rw [← List.isEmpty_iff.mp empty, Function.update_eq_self]
  unfold counts
  rw [mp, getlst]

/-- The counts are not right in every state: the count of a connected peer becomes 0
with the first block after 65534 bad pieces. -/
theorem not_accounted_of_reachable :
    ¬∀ d, system.Reachable (fun _ => False) d → d.Accounted := by
  intro accounted
  have begins : system.Reachable (fun _ => False) (Daemon.create 8 0 0 [2]) :=
    .start ⟨8, 0, 0, [2], rfl⟩
  obtain ⟨d, reached, start⟩ := System.Reachable.of_after twoPeers begins
    (by decide +kernel : (system.after (fun _ => False) twoPeers (Daemon.create 8 0 0 [2])).any
      (fun d => decide (atStart d)) = true)
  have pair := paired_atStart start
  obtain ⟨k, all⟩ : ∃ k, k + 2 = 2 ^ 16 := ⟨65534, rfl⟩
  have rounds := reachable_rounds (k := k) pair (by omega) ((counts_atStart start).symm ▸ reached)
  obtain ⟨d', step, rfl⟩ := steps_of_wp (firstBlock_wp (x := fun _ => k + 1) 0 pair
    (by decide : 0 < 2) (index_spoiltPieces (Nat.le_refl (2 * k))))
  have refs := (accounted _ (rounds.step step)).refs 0 (pair.mps 0 (by decide))
  have live : 0 ∈ d.roster.live := pair.live 0 (by decide)
  have zero : (k + 1 + 1) % 2 ^ 16 = 0 := by omega
  rw [if_pos (by exact live)] at refs
  have count : (k + 1 + 1) % 2 ^ 16 = 1 + _ + _ := refs
  omega

end Btpd.Swarm
