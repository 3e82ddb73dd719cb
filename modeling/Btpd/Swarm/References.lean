import Btpd.Swarm.Table

/-!
# The references are counted

As long as no `meta_peer` gets one more reference than 16 bits can count, the count
of each is the number of its references: its connection, the records that name it
and its ban.  So a `meta_peer` is freed exactly when the last of them goes.

What the lists need of the table holds without that condition, since `mp_drop`
checks that a `meta_peer` without references has no connection.
-/

namespace Btpd.Swarm

open Prog

/-- A `meta_peer` with as many references as 16 bits can count gets one more. -/
def overflow (c : Call Daemon Fn) : Prop :=
  match c.fn with
  | .mpHold m => (c.entry.table.mp m).refs = 2 ^ 16 - 1

instance : DecidablePred overflow := fun c => by
  unfold overflow
  infer_instance

/-- The faults of wrong counts. -/
def countFaults : List Fault := [.freed, .mpRefs, .mpAlive, .mptblRemove]

/-- The contract with or without the condition on the counts. -/
def contract (counted : Prop) : Contract Daemon Fn Fault where
  bad c := counted ∧ overflow c
  allowed e := e = .torrentFreed ∨ ¬counted ∧ e ∈ countFaults

namespace Table

variable (t : Table)

/-- The records of all logs of the pieces in progress. -/
def recordsOf (pcs : List Piece) : List BlogRecord := pcs.flatMap fun pc => pc.logs.flatten

/-- The records of a torrent. -/
def records (n : Nat) : List BlogRecord := recordsOf (t.getlst n)

/-- How many records of the torrent of a `meta_peer` name it. -/
def recordCount (v : View) (m : Nat) : Nat :=
  match v.n m with
  | none => 0
  | some n => (t.records n).countP fun r => decide (r.mp = m)

/-- The references to each `meta_peer` are counted.  The references `pending` are
held but noted nowhere. -/
structure Counted (stopping : Option Nat) (pending : List Nat) (v : View) : Prop where
  dead : ∀ m ∈ t.mps, (t.mp m).p = true → m ∈ v.live
  mem_mptbl : ∀ n m, m ∈ t.mps → v.attached m = true → v.n m = some n → m ∈ t.mptbl n
  mptbl_mem : ∀ n, ∀ m ∈ t.mptbl n, m ∈ t.mps
  mptbl_nodup : ∀ n, (t.mptbl n).Nodup
  id_inj : ∀ n, ∀ m ∈ t.mptbl n, ∀ m' ∈ t.mptbl n, (t.mp m).id = (t.mp m').id → m = m'
  id_own : ∀ n, ∀ m ∈ t.mptbl n, (t.mp m).id ≠ t.peerId
  record : ∀ n, ∀ r ∈ t.records n, r.mp ∈ t.mps ∧ v.attached r.mp = true ∧ v.n r.mp = some n
  pending_mem : ∀ m ∈ pending, m ∈ t.mps
  refs : ∀ m ∈ t.mps, (t.mp m).refs = (if (t.mp m).p then 1 else 0) + t.recordCount v m +
    (if (t.mp m).banned then 1 else 0) + pending.count m
  some : ∀ m ∈ t.mps, 0 < (t.mp m).refs
  small : ∀ m ∈ t.mps, (t.mp m).refs < 2 ^ 16
  banned_attached : ∀ m ∈ t.mps, (t.mp m).banned = true → v.attached m = true
  quiet : ∀ n, v.active n = false → stopping ≠ Option.some n → t.records n = []
  banned_mark : ∀ n id, .banned n id ∈ t.history → n < v.nextNet ∧
    (n ∈ v.torrents → ∃ m ∈ t.mptbl n, (t.mp m).id = id ∧ (t.mp m).banned = true)
  no_return : t.history.Pairwise fun later earlier =>
    ∀ n id, earlier = .banned n id → later ≠ .attached n id

/-- Connections have their `meta_peer`, and the table of a torrent holds what is
attached to it. -/
structure Ok (counted : Prop) (stopping : Option Nat) (pending : List Nat) (v : View) : Prop where
  alive : ∀ p ∈ v.live, p ∈ t.mps ∧ (t.mp p).p = true
  in_table : ∀ n, ∀ m ∈ t.mptbl n, v.attached m = true ∧ v.n m = some n
  mps_nodup : t.mps.Nodup
  mps_lt : ∀ m ∈ t.mps, m < v.nextPeer
  mptbl_lt : ∀ n, ∀ m ∈ t.mptbl n, m < v.nextPeer
  counts : counted → t.Counted stopping pending v

end Table

namespace Table

variable {t t' : Table} {counted : Prop} {stopping : Option Nat} {pending : List Nat}
  {v : View} {m n index : Nat}

@[simp]
theorem setMp_mp {mp : MetaPeer} (m' : Nat) :
    (t.setMp m mp).mp m' = if m' = m then mp else t.mp m' := by
  simp [setMp, Function.update_apply]

@[simp] theorem setMp_mps {mp : MetaPeer} : (t.setMp m mp).mps = t.mps := rfl
@[simp] theorem setMp_mptbl {mp : MetaPeer} : (t.setMp m mp).mptbl = t.mptbl := rfl
@[simp] theorem setMp_getlst {mp : MetaPeer} : (t.setMp m mp).getlst = t.getlst := rfl

/-- A change of a count changes nothing else. -/
theorem setMp_refs (refs m' : Nat) :
    ((t.setMp m { t.mp m with refs := refs }).mp m').p = (t.mp m').p ∧
      ((t.setMp m { t.mp m with refs := refs }).mp m').id = (t.mp m').id ∧
      ((t.setMp m { t.mp m with refs := refs }).mp m').banned = (t.mp m').banned := by
  rw [setMp_mp]
  split
  · rename_i here
    rw [here]
    exact ⟨rfl, rfl, rfl⟩
  · exact ⟨rfl, rfl, rfl⟩

/-- A `meta_peer` has got a reference more. -/
theorem Ok.hold {refs : Nat} (ok : t.Ok counted stopping pending v) (mem : counted → m ∈ t.mps)
    (small : counted → (t.mp m).refs ≠ 2 ^ 16 - 1) (refsEq : refs = ((t.mp m).refs + 1) % 2 ^ 16) :
    (t.setMp m { t.mp m with refs := refs }).Ok counted stopping (m :: pending) v := by
  have same := setMp_refs (t := t) (m := m) refs
  refine { ok with alive := ?_, counts := fun counting => ?_ }
  · intro p live
    rw [(same p).1]
    exact ok.alive p live
  have counts := ok.counts counting
  have grown : refs = (t.mp m).refs + 1 := by
    have := counts.small m (mem counting)
    have := small counting
    omega
  refine { counts with
    dead := ?_, id_inj := ?_, id_own := ?_, pending_mem := ?_, refs := ?_, some := ?_
    small := ?_, banned_attached := ?_, banned_mark := ?_ }
  · intro m' mem' alive
    exact counts.dead m' mem' ((same m').1 ▸ alive)
  · intro n' m₁ mem₁ m₂ mem₂ ids
    rw [(same m₁).2.1, (same m₂).2.1] at ids
    exact counts.id_inj n' m₁ mem₁ m₂ mem₂ ids
  · intro n' m' mem'
    rw [(same m').2.1]
    exact counts.id_own n' m' mem'
  · exact List.forall_mem_cons.mpr ⟨mem counting, counts.pending_mem⟩
  · intro m' mem'
    have before := counts.refs m' mem'
    rw [(same m').1, (same m').2.2, List.count_cons, setMp_mp]
    by_cases here : m' = m
    · rw [if_pos here]
      show refs = _ + t.recordCount v m' + _ + _
      rw [grown, ← here, before, if_pos (beq_self_eq_true m')]
      omega
    · have other : (m == m') = false := beq_eq_false_iff_ne.mpr (Ne.symm here)
      rw [if_neg here, other]
      exact before
  · intro m' mem'
    rw [setMp_mp]
    split
    · show 0 < refs
      omega
    · exact counts.some m' mem'
  · intro m' mem'
    rw [setMp_mp]
    split
    · show refs < 2 ^ 16
      omega
    · exact counts.small m' mem'
  · intro m' mem'
    rw [(same m').2.2]
    exact counts.banned_attached m' mem'
  · intro n' id mark
    refine (counts.banned_mark n' id mark).imp_right fun kept active => ?_
    obtain ⟨m', mem', idEq, banned⟩ := kept active
    exact ⟨m', mem', (same m').2.1.trans idEq, (same m').2.2.trans banned⟩

/-- A `meta_peer` has lost a reference that is not its last. -/
theorem Ok.dropSome (ok : t.Ok counted stopping (m :: pending) v)
    (more : (t.mp m).refs - 1 ≠ 0) :
    (t.setMp m { t.mp m with refs := (t.mp m).refs - 1 }).Ok counted stopping pending v := by
  have same := setMp_refs (t := t) (m := m) ((t.mp m).refs - 1)
  refine { ok with alive := ?_, counts := fun counting => ?_ }
  · intro p live
    rw [(same p).1]
    exact ok.alive p live
  have counts := ok.counts counting
  refine { counts with
    dead := ?_, id_inj := ?_, id_own := ?_, pending_mem := ?_, refs := ?_, some := ?_
    small := ?_, banned_attached := ?_, banned_mark := ?_ }
  · intro m' mem' alive
    exact counts.dead m' mem' ((same m').1 ▸ alive)
  · intro n' m₁ mem₁ m₂ mem₂ ids
    rw [(same m₁).2.1, (same m₂).2.1] at ids
    exact counts.id_inj n' m₁ mem₁ m₂ mem₂ ids
  · intro n' m' mem'
    rw [(same m').2.1]
    exact counts.id_own n' m' mem'
  · exact (List.forall_mem_cons.mp counts.pending_mem).2
  · intro m' mem'
    have before := counts.refs m' mem'
    rw [List.count_cons] at before
    rw [(same m').1, (same m').2.2, setMp_mp]
    by_cases here : m' = m
    · rw [if_pos (beq_iff_eq.mpr here.symm)] at before
      rw [if_pos here]
      show (t.mp m).refs - 1 = _ + t.recordCount v m' + _ + _
      rw [← here, before]
      omega
    · have other : (m == m') = false := beq_eq_false_iff_ne.mpr (Ne.symm here)
      rw [other] at before
      rw [if_neg here]
      exact before
  · intro m' mem'
    rw [setMp_mp]
    split
    · exact Nat.pos_of_ne_zero more
    · exact counts.some m' mem'
  · intro m' mem'
    rw [setMp_mp]
    split
    · rename_i here
      exact Nat.lt_of_le_of_lt (Nat.sub_le _ _) (counts.small m (here ▸ mem'))
    · exact counts.small m' mem'
  · intro m' mem'
    rw [(same m').2.2]
    exact counts.banned_attached m' mem'
  · intro n' id mark
    refine (counts.banned_mark n' id mark).imp_right fun kept active => ?_
    obtain ⟨m', mem', idEq, banned⟩ := kept active
    exact ⟨m', mem', (same m').2.1.trans idEq, (same m').2.2.trans banned⟩

/-- The table without a `meta_peer`. -/
def without (t : Table) (m : Nat) : Table :=
  { t with mptbl := fun n => (t.mptbl n).erase m, mps := t.mps.erase m }

/-- A `meta_peer` that has lost its last reference goes. -/
theorem Ok.dropLast (refs : Nat) (ok : t.Ok counted stopping (m :: pending) v)
    (last : (t.mp m).refs - 1 = 0) (dead : (t.mp m).p = false) :
    ((t.setMp m { t.mp m with refs := refs }).without m).Ok counted stopping pending v := by
  have same := setMp_refs (t := t) (m := m) refs
  have notLive : ∀ p ∈ v.live, p ≠ m := fun p live here => by
    rw [here] at live
    rw [(ok.alive m live).2] at dead
    cases dead
  have mem_mps : ∀ m', m' ∈ t.mps.erase m ↔ m' ≠ m ∧ m' ∈ t.mps := fun m' =>
    ok.mps_nodup.mem_erase_iff
  refine
    { alive := fun p live => ⟨(mem_mps p).mpr ⟨notLive p live, (ok.alive p live).1⟩,
        (same p).1.trans (ok.alive p live).2⟩
      in_table := fun n' m' mem' => ok.in_table n' m' (List.mem_of_mem_erase mem')
      mps_nodup := ok.mps_nodup.erase m
      mps_lt := fun m' mem' => ok.mps_lt m' (List.mem_of_mem_erase mem')
      mptbl_lt := fun n' m' mem' => ok.mptbl_lt n' m' (List.mem_of_mem_erase mem')
      counts := fun counting => ?_ }
  have counts := ok.counts counting
  -- nothing refers to it any more
  have mem := counts.pending_mem m List.mem_cons_self
  have none := counts.refs m mem
  rw [List.count_cons_self, dead] at none
  have some := counts.some m mem
  have noRecord : t.recordCount v m = 0 := by omega
  have notBanned : (t.mp m).banned = false := by
    cases banned : (t.mp m).banned with
    | false => rfl
    | true =>
        rw [banned, if_pos rfl] at none
        omega
  have notPending : m ∉ pending := List.count_eq_zero.mp (by omega)
  have mem_mptbl : ∀ n' m', m' ∈ (t.mptbl n').erase m ↔ m' ≠ m ∧ m' ∈ t.mptbl n' := fun n' m' =>
    (counts.mptbl_nodup n').mem_erase_iff
  exact
    { dead := fun m' mem' alive =>
        counts.dead m' (List.mem_of_mem_erase mem') ((same m').1 ▸ alive)
      mem_mptbl := fun n' m' mem' attached belongs =>
        (mem_mptbl n' m').mpr ⟨((mem_mps m').mp mem').1,
          counts.mem_mptbl n' m' ((mem_mps m').mp mem').2 attached belongs⟩
      mptbl_mem := fun n' m' mem' =>
        (mem_mps m').mpr ⟨((mem_mptbl n' m').mp mem').1,
          counts.mptbl_mem n' m' ((mem_mptbl n' m').mp mem').2⟩
      mptbl_nodup := fun n' => (counts.mptbl_nodup n').erase m
      id_inj := fun n' m₁ mem₁ m₂ mem₂ ids => by
        refine counts.id_inj n' m₁ (List.mem_of_mem_erase mem₁) m₂ (List.mem_of_mem_erase mem₂) ?_
        exact (same m₁).2.1.symm.trans (ids.trans (same m₂).2.1)
      id_own := fun n' m' mem' => by
        show ((t.setMp m _).mp m').id ≠ _
        rw [(same m').2.1]
        exact counts.id_own n' m' (List.mem_of_mem_erase mem')
      record := fun n' r mem' => by
        obtain ⟨inMps, attached, belongs⟩ := counts.record n' r mem'
        refine ⟨(mem_mps r.mp).mpr ⟨fun here => ?_, inMps⟩, attached, belongs⟩
        rw [here] at belongs
        unfold recordCount at noRecord
        rw [belongs] at noRecord
        exact absurd (List.countP_eq_zero.mp noRecord r mem') (by simpa using here)
      pending_mem := fun m' mem' => (mem_mps m').mpr
        ⟨fun here => notPending (here ▸ mem'), counts.pending_mem m' (List.mem_cons_of_mem _ mem')⟩
      refs := fun m' mem' => by
        obtain ⟨other, mem'⟩ := (mem_mps m').mp mem'
        have before := counts.refs m' mem'
        have notHere : (m == m') = false := beq_eq_false_iff_ne.mpr (Ne.symm other)
        rw [List.count_cons, notHere] at before
        show ((t.setMp m _).mp m').refs = (if ((t.setMp m _).mp m').p = true then 1 else 0) +
          t.recordCount v m' + (if ((t.setMp m _).mp m').banned = true then 1 else 0) + _
        rw [(same m').1, (same m').2.2, setMp_mp, if_neg other]
        exact before
      some := fun m' mem' => by
        obtain ⟨other, mem'⟩ := (mem_mps m').mp mem'
        show 0 < ((t.setMp m _).mp m').refs
        rw [setMp_mp, if_neg other]
        exact counts.some m' mem'
      small := fun m' mem' => by
        obtain ⟨other, mem'⟩ := (mem_mps m').mp mem'
        show ((t.setMp m _).mp m').refs < _
        rw [setMp_mp, if_neg other]
        exact counts.small m' mem'
      banned_attached := fun m' mem' banned =>
        counts.banned_attached m' (List.mem_of_mem_erase mem') ((same m').2.2 ▸ banned)
      quiet := counts.quiet
      banned_mark := fun n' id mark => by
        refine (counts.banned_mark n' id mark).imp_right fun kept active => ?_
        obtain ⟨m', mem', idEq, banned⟩ := kept active
        have other : m' ≠ m := fun here => by
          rw [here, notBanned] at banned
          cases banned
        exact ⟨m', (mem_mptbl n' m').mpr ⟨other, mem'⟩, (same m').2.1.trans idEq,
          (same m').2.2.trans banned⟩
      no_return := counts.no_return }

theorem Ok.mptblFind (ok : t.Ok counted stopping pending v) (counting : counted)
    (mem : m ∈ t.mps) (attached : v.attached m = true) (belongs : v.n m = some n) :
    t.mptblFind n (t.mp m).id = some m := by
  have counts := ok.counts counting
  have listed := counts.mem_mptbl n m mem attached belongs
  unfold Table.mptblFind
  obtain ⟨m', found⟩ : ∃ m', (t.mptbl n).find? (fun m' => decide ((t.mp m').id = (t.mp m).id)) =
      some m' := by
    rw [← Option.isSome_iff_exists, List.find?_isSome]
    exact ⟨m, listed, decide_eq_true rfl⟩
  rw [found]
  have ids : (t.mp m').id = (t.mp m).id := by simpa using List.find?_some found
  exact congrArg some (counts.id_inj n m' (List.mem_of_find?_eq_some found) m listed ids)

end Table

/-! ## Taking and giving references -/

variable {d : Daemon} {callers : List Fn} {counted : Prop} {stopping : Option Nat}
  {pending : List Nat} {v : View} {m p n index : Nat}

/-- Only the table has changed. -/
def Daemon.To (d : Daemon) (post : Table → Prop) (d' : Daemon) : Prop :=
  ∃ t, d' = { d with table := t } ∧ post t

theorem mpHold_wp (ok : d.table.Ok counted stopping pending v)
    (mem : counted → m ∈ d.table.mps) :
    (mpHold m).wp (contract counted) callers (fun _ d' => d.To (fun t =>
      t.Ok counted stopping (m :: pending) v ∧
        ∃ refs, t = d.table.setMp m { d.table.mp m with refs := refs }) d') d := by
  unfold mpHold
  rw [wp_call]
  by_cases full : counted ∧ (d.table.mp m).refs = 2 ^ 16 - 1
  · exact .inl full
  right
  rw [wp_bind, wp_get, wp_bind, wp_assert]
  split
  · rename_i there
    rw [wp_onTable]
    exact ⟨_, rfl, ok.hold mem (fun counting same => full ⟨counting, same⟩) rfl, _, rfl⟩
  · rename_i freed
    exact .inr ⟨fun counting => freed (mem counting), by decide⟩

/-- The last reference of a `meta_peer` has gone. -/
theorem mpGone_wp {t : Table} {refs : Nat} {n : Option Nat}
    (ok : t.Ok counted stopping (m :: pending) v)
    (attachedEq : (d.roster.peer m).attached = v.attached m)
    (table : d.table = t.setMp m { t.mp m with refs := refs })
    (mem : m ∈ t.mps) (last : (t.mp m).refs - 1 = 0)
    (belongs : v.attached m = true →
      ∃ n', n = some n' ∧ (counted → v.n m = some n')) :
    (mpGone m n).wp (contract counted) callers (fun _ d' => d.To (fun t' =>
      t'.Ok counted stopping pending v ∧ t'.getlst = t.getlst) d') d := by
  have same := Table.setMp_refs (t := t) (m := m) refs
  unfold mpGone
  rw [wp_bind, wp_get, wp_bind, wp_assert, table, (same m).1, (same m).2.1]
  by_cases dead : (t.mp m).p = false
  · rw [if_pos dead]
    have gone := ok.dropLast refs last dead
    -- the tables of other torrents do not have it
    have elsewhere : ∀ n', v.n m ≠ some n' → m ∉ t.mptbl n' := fun n' other mem =>
      other (ok.in_table n' m mem).2
    have kill : ∀ d' : Daemon, d' = { d with table :=
        { t.setMp m { t.mp m with refs := refs } with
          mptbl := fun n => (t.mptbl n).erase m } } →
        (mpKill m).wp (contract counted) callers (fun _ d' => d.To (fun t' =>
          t'.Ok counted stopping pending v ∧ t'.getlst = t.getlst) d') d' := by
      rintro _ rfl
      unfold mpKill
      rw [wp_bind, wp_get, wp_bind, wp_assert, if_pos (by exact mem), wp_onTable]
      exact ⟨_, rfl, gone, rfl⟩
    rw [wp_bind, wp_when]
    rw [attachedEq]
    split
    · rename_i attached
      obtain ⟨n', rfl, own⟩ := belongs attached
      dsimp only
      rw [wp_bind, wp_assert]
      split
      · rename_i found
        rw [wp_onTable]
        have listed : m ∈ t.mptbl n' := List.mem_of_find?_eq_some found
        have here := (ok.in_table n' m listed).2
        refine kill _ ?_
        rw [table]
        unfold Table.mptblRemove
        congr 1
        congr 1
        funext n''
        rw [Function.update_apply]
        split
        · rename_i same
          rw [same]
          rfl
        · rename_i other
          refine (List.erase_of_not_mem (elsewhere n'' fun there => other ?_)).symm
          exact Option.some.inj (there.symm.trans here)
      · rename_i lost
        refine .inr ⟨fun counting => lost ?_, by decide⟩
        have found := ok.mptblFind counting mem attached (own counting)
        unfold Table.mptblFind at found ⊢
        simp only [(same _).2.1]
        exact found
    · rename_i detached
      refine kill _ ?_
      have none : ∀ n', m ∉ t.mptbl n' := fun n' mem =>
        detached (ok.in_table n' m mem).1
      have unchanged : (fun n => (t.mptbl n).erase m) = t.mptbl :=
        funext fun n' => List.erase_of_not_mem (none n')
      have mptbl : d.table.mptbl = t.mptbl := by
        rw [table]
        rfl
      rw [unchanged, ← table, ← mptbl]
  · rw [if_neg dead]
    refine .inr ⟨fun counting => dead ?_, by decide⟩
    have counts := ok.counts counting
    have refsEq := counts.refs m mem
    rw [List.count_cons_self] at refsEq
    cases alive : (t.mp m).p with
    | false => rfl
    | true =>
        rw [alive, if_pos rfl] at refsEq
        omega

theorem mpDrop_wp {n : Option Nat}
    (ok : d.table.Ok counted stopping (m :: pending) v)
    (attachedEq : (d.roster.peer m).attached = v.attached m)
    (belongs : v.attached m = true →
      ∃ n', n = some n' ∧ (counted → v.n m = some n')) :
    (mpDrop m n).wp (contract counted) callers (fun _ d' => d.To (fun t =>
      t.Ok counted stopping pending v ∧ t.getlst = d.table.getlst) d') d := by
  unfold mpDrop
  rw [wp_bind, wp_get, wp_bind, wp_assert]
  split
  · rename_i mem
    rw [wp_bind, wp_assert]
    split
    · rw [wp_bind, wp_onTable, wp_when]
      split
      · rename_i last
        refine wp_mono (mpGone_wp ok attachedEq rfl mem last belongs) ?_
        rintro _ _ ⟨t, rfl, held⟩
        exact ⟨t, rfl, held⟩
      · rename_i more
        exact ⟨_, rfl, ok.dropSome more, rfl⟩
    · rename_i none
      exact .inr ⟨fun counting => none ((ok.counts counting).some m mem), by decide⟩
  · rename_i freed
    refine .inr ⟨fun counting => freed ?_, by decide⟩
    exact (ok.counts counting).pending_mem m List.mem_cons_self

namespace Table

variable {t : Table}

/-- A pending reference becomes a ban. -/
theorem Ok.ban (ok : t.Ok counted stopping (m :: pending) v)
    (fresh : counted → (t.mp m).banned = false) (attached : counted → v.attached m = true)
    (belongs : counted → v.n m = some n ∧ n < v.nextNet) :
    Ok { t.setMp m { t.mp m with banned := true } with
      history := .banned n (t.mp m).id :: t.history } counted stopping pending v := by
  have same : ∀ m', ((t.setMp m { t.mp m with banned := true }).mp m').p = (t.mp m').p ∧
      ((t.setMp m { t.mp m with banned := true }).mp m').id = (t.mp m').id ∧
      ((t.setMp m { t.mp m with banned := true }).mp m').refs = (t.mp m').refs := by
    intro m'
    rw [setMp_mp]
    split
    · rename_i here
      rw [here]
      exact ⟨rfl, rfl, rfl⟩
    · exact ⟨rfl, rfl, rfl⟩
  refine { ok with alive := ?_, counts := fun counting => ?_ }
  · intro p live
    exact ⟨(ok.alive p live).1, (same p).1.trans (ok.alive p live).2⟩
  have counts := ok.counts counting
  have mem := counts.pending_mem m List.mem_cons_self
  obtain ⟨belongs, old⟩ := belongs counting
  refine { counts with
    dead := ?_, id_inj := ?_, id_own := ?_, pending_mem := ?_, refs := ?_, some := ?_
    small := ?_, banned_attached := ?_, banned_mark := ?_, no_return := ?_ }
  · exact fun m' mem' alive => counts.dead m' mem' ((same m').1 ▸ alive)
  · intro n' m₁ mem₁ m₂ mem₂ ids
    refine counts.id_inj n' m₁ mem₁ m₂ mem₂ ?_
    exact (same m₁).2.1.symm.trans (ids.trans (same m₂).2.1)
  · intro n' m' mem' own
    exact counts.id_own n' m' mem' ((same m').2.1.symm.trans own)
  · exact (List.forall_mem_cons.mp counts.pending_mem).2
  · intro m' mem'
    have before := counts.refs m' mem'
    rw [List.count_cons] at before
    show ((t.setMp m _).mp m').refs = (if ((t.setMp m _).mp m').p = true then 1 else 0) +
      t.recordCount v m' + (if ((t.setMp m _).mp m').banned = true then 1 else 0) + _
    rw [(same m').1, (same m').2.2, setMp_mp]
    by_cases here : m' = m
    · rw [here, fresh counting, if_pos (beq_self_eq_true m)] at before
      rw [here, if_pos rfl, before]
      simp only [Bool.false_eq_true, if_false, if_true]
      omega
    · have other : (m == m') = false := beq_eq_false_iff_ne.mpr (Ne.symm here)
      rw [other] at before
      rw [if_neg here]
      exact before
  · exact fun m' mem' => (same m').2.2 ▸ counts.some m' mem'
  · exact fun m' mem' => (same m').2.2 ▸ counts.small m' mem'
  · intro m' mem' banned
    by_cases here : m' = m
    · rw [here]
      exact attached counting
    · refine counts.banned_attached m' mem' ?_
      have banned : ((t.setMp m { t.mp m with banned := true }).mp m').banned = true := banned
      rw [setMp_mp, if_neg here] at banned
      exact banned
  · intro n' id mark
    have keeps : ∀ m', (t.mp m').banned = true →
        ((t.setMp m { t.mp m with banned := true }).mp m').banned = true := by
      intro m' banned
      rw [setMp_mp]
      split
      · rfl
      · exact banned
    rcases List.mem_cons.mp mark with here | before
    · obtain ⟨rfl, rfl⟩ := Mark.banned.inj here
      refine ⟨old, fun _ => ⟨m, counts.mem_mptbl n' m mem (attached counting) belongs,
        (same m).2.1, ?_⟩⟩
      show ((t.setMp m { t.mp m with banned := true }).mp m).banned = true
      rw [setMp_mp, if_pos rfl]
    · refine (counts.banned_mark n' id before).imp_right fun kept active => ?_
      obtain ⟨m', mem', idEq, banned⟩ := kept active
      exact ⟨m', mem', (same m').2.1.trans idEq, keeps m' banned⟩
  · refine List.pairwise_cons.mpr ⟨fun earlier _ n' id _ returned => ?_, counts.no_return⟩
    cases returned

end Table

theorem netBanPeer_wp (ok : d.table.Ok counted stopping pending v)
    (mem : counted → m ∈ d.table.mps) (attached : counted → v.attached m = true)
    (belongs : counted → v.n m = some n ∧ n < v.nextNet) :
    (netBanPeer n m).wp (contract counted) callers (fun _ d' => d.To (fun t =>
      t.Ok counted stopping pending v ∧ t.getlst = d.table.getlst ∧
        t.mps = d.table.mps) d') d := by
  unfold netBanPeer
  rw [wp_bind, wp_get, wp_when]
  split
  · rename_i fresh
    rw [wp_bind]
    refine wp_mono (mpHold_wp ok mem) ?_
    rintro _ _ ⟨_, rfl, held, refs, rfl⟩
    rw [wp_onTable]
    refine ⟨_, rfl, held.ban (fun _ => ?_) attached belongs, rfl, rfl⟩
    rw [(Table.setMp_refs refs m).2.2, fresh]
  · exact ⟨d.table, rfl, ok, rfl, rfl⟩

end Btpd.Swarm
