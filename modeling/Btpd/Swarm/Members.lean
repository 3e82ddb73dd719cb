import Btpd.Swarm.Logs

/-!
# What the lists mean for the references

A connection is created with its `meta_peer` and gives it back when it ends; in
between it is attached to a torrent, which may become active, stop and go.  The
counts follow each of these changes of the lists.
-/

namespace Btpd.Swarm

open Prog

variable {d : Daemon} {callers : List Fn} {counted : Prop} {stopping stopping' : Option Nat}
  {v v' : View} {p n index : Nat}

namespace Table

variable {t : Table}

/-- A `meta_peer` that is not attached has no records. -/
theorem Counted.recordCount_eq_zero {pending : List Nat} {m : Nat}
    (counts : t.Counted stopping pending v) (detached : v.attached m = false) (v' : View) :
    t.recordCount v' m = 0 := by
  unfold recordCount
  split
  · rfl
  · refine List.countP_eq_zero.mpr fun r mem here => ?_
    have attached := (counts.record _ r mem).2.1
    rw [of_decide_eq_true here, detached] at attached
    cases attached

/-- What the lists say of other connections than the attached ones, and of torrents
without records, does not matter. -/
theorem Ok.congr (ok : t.Ok counted stopping [] v) (live : v'.live = v.live)
    (attached : v'.attached = v.attached) (nextPeer : v'.nextPeer = v.nextPeer)
    (belongs : ∀ m, v'.n m = v.n m ∨ v.attached m = false)
    (torrents : ∀ n ∈ v'.torrents, n ∈ v.torrents ∨ v.nextNet ≤ n)
    (nextNet : v.nextNet ≤ v'.nextNet)
    (quiet : counted → ∀ n, v'.active n = false → stopping' ≠ some n → t.records n = []) :
    t.Ok counted stopping' [] v' := by
  have same : ∀ m, v.attached m = true → v'.n m = v.n m := fun m on =>
    (belongs m).resolve_right fun off => by
      rw [off] at on
      cases on
  refine
    { alive := fun p mem => ok.alive p (live ▸ mem)
      in_table := fun n m mem => ?_
      mps_nodup := ok.mps_nodup
      mps_lt := fun m mem => nextPeer ▸ ok.mps_lt m mem
      mptbl_lt := fun n m mem => nextPeer ▸ ok.mptbl_lt n m mem
      counts := fun counting => ?_ }
  · obtain ⟨on, belongs⟩ := ok.in_table n m mem
    exact ⟨attached ▸ on, (same m on).trans belongs⟩
  have counts := ok.counts counting
  refine { counts with
    dead := fun m mem alive => live ▸ counts.dead m mem alive
    mem_mptbl := fun n m mem on belongs => ?_
    record := fun n r mem => ?_
    refs := fun m mem => ?_
    banned_attached := fun m mem banned => attached ▸ counts.banned_attached m mem banned
    quiet := quiet counting
    banned_mark := fun n id mark => ?_ }
  · rw [attached] at on
    exact counts.mem_mptbl n m mem on ((same m on).symm.trans belongs)
  · obtain ⟨inMps, on, belongs⟩ := counts.record n r mem
    exact ⟨inMps, attached ▸ on, (same _ on).trans belongs⟩
  · refine (counts.refs m mem).trans ?_
    have sameCount : t.recordCount v m = t.recordCount v' m := by
      rcases belongs m with eq | off
      · unfold recordCount
        rw [eq]
      · rw [counts.recordCount_eq_zero off, counts.recordCount_eq_zero off]
    rw [sameCount]
  · obtain ⟨old, kept⟩ := counts.banned_mark n id mark
    exact ⟨Nat.lt_of_lt_of_le old nextNet, fun mem => kept
      ((torrents n mem).resolve_right (Nat.not_le.mpr old))⟩

/-- A new piece has no records. -/
theorem Ok.pieceAlloc {nblocks : Nat} (ok : t.Ok counted stopping [] v) :
    (t.pieceAlloc n index nblocks).Ok counted stopping [] v := by
  have same : recordsOf (t.getlst n ++ [⟨index, nblocks, [[]]⟩]) = t.records n := by
    simp [recordsOf, records]
  refine ok.moved (by rw [same]) (fun counting m mem => ?_) fun counting inactive running => ?_
  · rw [same] at mem
    obtain ⟨r, listed, rfl⟩ := List.mem_map.mp mem
    exact ((ok.counts counting).record n r listed).2
  · rw [same]
    exact (ok.counts counting).quiet n inactive running

/-- A new connection has a new `meta_peer`. -/
theorem Ok.mpCreate (belongs : Option Nat) (ok : t.Ok counted stopping [] v)
    (live : v'.live = v.nextPeer :: v.live) (nextPeer : v'.nextPeer = v.nextPeer + 1)
    (n : v'.n = Function.update v.n v.nextPeer belongs)
    (attached : v'.attached = Function.update v.attached v.nextPeer false)
    (active : v'.active = v.active) (torrents : v'.torrents = v.torrents)
    (nextNet : v'.nextNet = v.nextNet) :
    (t.mpCreate v.nextPeer).Ok counted stopping [] v' := by
  have mpEq : ∀ m ≠ v.nextPeer, (t.mpCreate v.nextPeer).mp m = t.mp m := fun m other =>
    Function.update_of_ne other ..
  have newEq : (t.mpCreate v.nextPeer).mp v.nextPeer = ⟨true, 1, List.replicate 20 0, false⟩ :=
    Function.update_self ..
  have nEq : ∀ m ≠ v.nextPeer, v'.n m = v.n m := fun m other => by
    rw [n, Function.update_of_ne other]
  have attachedEq : ∀ m ≠ v.nextPeer, v'.attached m = v.attached m := fun m other => by
    rw [attached, Function.update_of_ne other]
  have detached : v'.attached v.nextPeer = false := by
    rw [attached, Function.update_self]
  have old : ∀ m ∈ t.mps, m ≠ v.nextPeer := fun m mem => Nat.ne_of_lt (ok.mps_lt m mem)
  have listed : ∀ n, ∀ m ∈ t.mptbl n, m ≠ v.nextPeer := fun n m mem =>
    Nat.ne_of_lt (ok.mptbl_lt n m mem)
  refine
    { alive := ?_, in_table := fun n' m mem => ?_
      mps_nodup := List.nodup_cons.mpr ⟨fun mem => old _ mem rfl, ok.mps_nodup⟩
      mps_lt := ?_, mptbl_lt := ?_, counts := fun counting => ?_ }
  · rw [live]
    refine List.forall_mem_cons.mpr ⟨⟨List.mem_cons_self, by rw [newEq]⟩, fun p mem => ?_⟩
    have mem := ok.alive p mem
    exact ⟨List.mem_cons_of_mem _ mem.1, by rw [mpEq p (old p mem.1), mem.2]⟩
  · have other := listed n' m mem
    rw [attachedEq m other, nEq m other]
    exact ok.in_table n' m mem
  · rw [nextPeer]
    exact List.forall_mem_cons.mpr ⟨Nat.lt_succ_self _, fun m mem =>
      Nat.lt_succ_of_lt (ok.mps_lt m mem)⟩
  · rw [nextPeer]
    exact fun n' m mem => Nat.lt_succ_of_lt (ok.mptbl_lt n' m mem)
  have counts := ok.counts counting
  have fresh : t.recordCount v' v.nextPeer = 0 := by
    unfold recordCount
    split
    · rfl
    · refine List.countP_eq_zero.mpr fun r mem here => ?_
      exact old r.mp (counts.record _ r mem).1 (of_decide_eq_true here)
  have sameCount : ∀ m ∈ t.mps, t.recordCount v' m = t.recordCount v m := fun m mem => by
    unfold recordCount
    rw [nEq m (old m mem)]
  exact
    { dead := by
        refine List.forall_mem_cons.mpr ⟨fun _ => live ▸ List.mem_cons_self, fun m mem alive => ?_⟩
        rw [mpEq m (old m mem)] at alive
        exact live ▸ List.mem_cons_of_mem _ (counts.dead m mem alive)
      mem_mptbl := by
        refine fun n' => List.forall_mem_cons.mpr ⟨fun on => ?_, fun m mem on belongs => ?_⟩
        · rw [detached] at on
          cases on
        · rw [attachedEq m (old m mem)] at on
          rw [nEq m (old m mem)] at belongs
          exact counts.mem_mptbl n' m mem on belongs
      mptbl_mem := fun n' m mem => List.mem_cons_of_mem _ (counts.mptbl_mem n' m mem)
      mptbl_nodup := counts.mptbl_nodup
      id_inj := fun n' m₁ mem₁ m₂ mem₂ => by
        rw [mpEq m₁ (listed n' m₁ mem₁), mpEq m₂ (listed n' m₂ mem₂)]
        exact counts.id_inj n' m₁ mem₁ m₂ mem₂
      id_own := fun n' m mem => by
        rw [mpEq m (listed n' m mem)]
        exact counts.id_own n' m mem
      record := fun n' r mem => by
        obtain ⟨inMps, on, belongs⟩ := counts.record n' r mem
        rw [attachedEq _ (old _ inMps), nEq _ (old _ inMps)]
        exact ⟨List.mem_cons_of_mem _ inMps, on, belongs⟩
      pending_mem := fun m mem => nomatch mem
      refs := by
        refine List.forall_mem_cons.mpr ⟨?_, fun m mem => ?_⟩
        · rw [newEq]
          show 1 = 1 + t.recordCount v' v.nextPeer + 0 + 0
          rw [fresh]
        · rw [mpEq m (old m mem)]
          show _ = _ + t.recordCount v' m + _ + _
          rw [sameCount m mem]
          exact counts.refs m mem
      some := by
        refine List.forall_mem_cons.mpr ⟨by rw [newEq]; exact Nat.one_pos, fun m mem => ?_⟩
        rw [mpEq m (old m mem)]
        exact counts.some m mem
      small := by
        refine List.forall_mem_cons.mpr ⟨by rw [newEq]; decide, fun m mem => ?_⟩
        rw [mpEq m (old m mem)]
        exact counts.small m mem
      banned_attached := by
        refine List.forall_mem_cons.mpr ⟨fun banned => ?_, fun m mem => ?_⟩
        · rw [newEq] at banned
          cases banned
        · rw [mpEq m (old m mem), attachedEq m (old m mem)]
          exact counts.banned_attached m mem
      quiet := fun n' inactive => counts.quiet n' (active ▸ inactive)
      banned_mark := fun n' id mark => by
        obtain ⟨past, kept⟩ := counts.banned_mark n' id mark
        refine ⟨nextNet ▸ past, fun mem => ?_⟩
        obtain ⟨m, mem, held⟩ := kept (torrents ▸ mem)
        exact ⟨m, mem, by rw [mpEq m (listed n' m mem)]; exact held⟩
      no_return := counts.no_return }

/-- A connection is attached with an id that the table does not have. -/
theorem Ok.mptblInsert {id : List UInt8} (ok : t.Ok counted stopping [] v) (mem : p ∈ v.live)
    (detached : v.attached p = false) (belongs : v.n p = some n) (tracked : n ∈ v.torrents)
    (free : t.mptblFind n id = none) (other : id ≠ t.peerId) :
    (t.mptblInsert n p id).Ok counted stopping []
      { v with attached := Function.update v.attached p true } := by
  have mpEq : ∀ m ≠ p, (t.mptblInsert n p id).mp m = t.mp m := fun m other =>
    Function.update_of_ne other ..
  have newEq : (t.mptblInsert n p id).mp p = { t.mp p with id := id } :=
    Function.update_self ..
  have same : ∀ m, ((t.mptblInsert n p id).mp m).p = (t.mp m).p ∧
      ((t.mptblInsert n p id).mp m).refs = (t.mp m).refs ∧
      ((t.mptblInsert n p id).mp m).banned = (t.mp m).banned := fun m => by
    by_cases here : m = p
    · rw [here, newEq]
      exact ⟨rfl, rfl, rfl⟩
    · rw [mpEq m here]
      exact ⟨rfl, rfl, rfl⟩
  have attachedEq : ∀ m, Function.update v.attached p true m = if m = p then true else v.attached m :=
    fun m => Function.update_apply ..
  have mptblEq : ∀ n', (t.mptblInsert n p id).mptbl n' =
      if n' = n then p :: t.mptbl n else t.mptbl n' := fun n' => Function.update_apply ..
  have kept : ∀ n', ∀ m ∈ t.mptbl n', m ∈ (t.mptblInsert n p id).mptbl n' := fun n' m mem => by
    rw [mptblEq]
    split
    · rename_i here
      exact List.mem_cons_of_mem _ (here ▸ mem)
    · exact mem
  have listed : ∀ n', ∀ m ∈ (t.mptblInsert n p id).mptbl n',
      n' = n ∧ m = p ∨ m ∈ t.mptbl n' := fun n' m mem => by
    rw [mptblEq] at mem
    split at mem
    · rename_i here
      exact (List.mem_cons.mp mem).imp (fun new => ⟨here, new⟩) fun old => here ▸ old
    · exact .inr mem
  -- it has not been in a table
  have notListed : ∀ n', ∀ m ∈ t.mptbl n', m ≠ p := fun n' m mem here => by
    have on := (ok.in_table n' m mem).1
    rw [here, detached] at on
    cases on
  have stays : ∀ m, v.attached m = true → Function.update v.attached p true m = true :=
    fun m on => by
      rw [attachedEq]
      split
      · rfl
      · exact on
  have free : ∀ m ∈ t.mptbl n, (t.mp m).id ≠ id := fun m mem here => by
    unfold Table.mptblFind at free
    exact List.find?_eq_none.mp free m mem (decide_eq_true here)
  refine
    { alive := fun p' mem => ⟨(ok.alive p' mem).1, (same p').1.trans (ok.alive p' mem).2⟩
      in_table := fun n' m mem' => ?_
      mps_nodup := ok.mps_nodup
      mps_lt := ok.mps_lt
      mptbl_lt := fun n' m mem' => ?_
      counts := fun counting => ?_ }
  · rcases listed n' m mem' with ⟨rfl, rfl⟩ | mem'
    · exact ⟨Function.update_self .., belongs⟩
    · exact (ok.in_table n' m mem').imp_left (stays m)
  · rcases listed n' m mem' with ⟨rfl, rfl⟩ | mem'
    · exact ok.mps_lt m (ok.alive m mem).1
    · exact ok.mptbl_lt n' m mem'
  have counts := ok.counts counting
  refine { counts with
    dead := fun m mem' alive => counts.dead m mem' ((same m).1 ▸ alive)
    mem_mptbl := fun n' m mem' on belongs' => ?_
    mptbl_mem := fun n' m mem' => ?_
    mptbl_nodup := fun n' => ?_
    id_inj := fun n' m₁ mem₁ m₂ mem₂ ids => ?_
    id_own := fun n' m mem' => ?_
    record := fun n' r mem' => ?_
    refs := fun m mem' => ?_
    some := fun m mem' => (same m).2.1 ▸ counts.some m mem'
    small := fun m mem' => (same m).2.1 ▸ counts.small m mem'
    banned_attached := fun m mem' banned => ?_
    banned_mark := fun n' id' mark => ?_
    no_return := ?_ }
  · by_cases here : m = p
    · obtain rfl : n = n' := Option.some.inj (belongs.symm.trans (here ▸ belongs'))
      rw [mptblEq, if_pos rfl, here]
      exact List.mem_cons_self
    · refine kept n' m (counts.mem_mptbl n' m mem' ?_ belongs')
      have on : Function.update v.attached p true m = true := on
      rwa [attachedEq, if_neg here] at on
  · rcases listed n' m mem' with ⟨rfl, rfl⟩ | mem'
    · exact (ok.alive m mem).1
    · exact counts.mptbl_mem n' m mem'
  · rw [mptblEq]
    split
    · exact List.nodup_cons.mpr ⟨fun mem => notListed n p mem rfl, counts.mptbl_nodup n⟩
    · exact counts.mptbl_nodup n'
  · rcases listed n' m₁ mem₁ with ⟨here₁, rfl⟩ | old₁ <;>
      rcases listed n' m₂ mem₂ with ⟨here₂, new₂⟩ | old₂
    · exact new₂.symm
    · rw [newEq, mpEq m₂ (notListed n' m₂ old₂)] at ids
      exact absurd ids.symm (free m₂ (here₁ ▸ old₂))
    · rw [new₂, newEq, mpEq m₁ (notListed n' m₁ old₁)] at ids
      exact absurd ids (free m₁ (here₂ ▸ old₁))
    · rw [mpEq m₁ (notListed n' m₁ old₁), mpEq m₂ (notListed n' m₂ old₂)] at ids
      exact counts.id_inj n' m₁ old₁ m₂ old₂ ids
  · rcases listed n' m mem' with ⟨rfl, rfl⟩ | mem'
    · rw [newEq]
      exact other
    · rw [mpEq m (notListed n' m mem')]
      exact counts.id_own n' m mem'
  · exact (counts.record n' r mem').imp_right (And.imp_left (stays r.mp))
  · rw [(same m).1, (same m).2.1, (same m).2.2]
    exact counts.refs m mem'
  · rw [(same m).2.2] at banned
    exact stays m (counts.banned_attached m mem' banned)
  · have before := counts.banned_mark n' id' ((List.mem_cons.mp mark).resolve_left nofun)
    refine before.imp_right fun still tracked => ?_
    obtain ⟨m, mem', idEq, banned⟩ := still tracked
    exact ⟨m, kept n' m mem', by rw [mpEq m (notListed n' m mem'), idEq], (same m).2.2.trans banned⟩
  · refine List.pairwise_cons.mpr ⟨fun earlier mem' n' id' ban attaches => ?_, counts.no_return⟩
    obtain ⟨rfl, rfl⟩ := Mark.attached.inj attaches
    obtain ⟨m, mem', idEq, _⟩ := (counts.banned_mark n id (ban ▸ mem')).2 tracked
    exact free m mem' idEq

/-- A connection gives its `meta_peer` back. -/
theorem Ok.release (ok : t.Ok counted stopping [] v) (mem : p ∈ v.live) (nodup : v.live.Nodup) :
    (t.setMp p { t.mp p with p := false }).Ok counted stopping [p]
      { v with live := v.live.erase p } := by
  have same : ∀ m, ((t.setMp p { t.mp p with p := false }).mp m).id = (t.mp m).id ∧
      ((t.setMp p { t.mp p with p := false }).mp m).refs = (t.mp m).refs ∧
      ((t.setMp p { t.mp p with p := false }).mp m).banned = (t.mp m).banned := fun m => by
    rw [setMp_mp]
    split
    · rename_i here
      rw [here]
      exact ⟨rfl, rfl, rfl⟩
    · exact ⟨rfl, rfl, rfl⟩
  have pEq : ∀ m ≠ p, ((t.setMp p { t.mp p with p := false }).mp m).p = (t.mp m).p :=
    fun m other => by rw [setMp_mp, if_neg other]
  have freed : ((t.setMp p { t.mp p with p := false }).mp p).p = false := by
    rw [setMp_mp, if_pos rfl]
  have mem_live : ∀ m, m ∈ v.live.erase p ↔ m ≠ p ∧ m ∈ v.live := fun m =>
    nodup.mem_erase_iff
  refine { ok with alive := fun p' mem' => ?_, counts := fun counting => ?_ }
  · obtain ⟨other, mem'⟩ := (mem_live p').mp mem'
    exact ⟨(ok.alive p' mem').1, (pEq p' other).trans (ok.alive p' mem').2⟩
  have counts := ok.counts counting
  have held := ok.alive p mem
  refine { counts with
    dead := fun m mem' alive => ?_
    id_inj := fun n' m₁ mem₁ m₂ mem₂ ids => ?_
    id_own := fun n' m mem' => (same m).1 ▸ counts.id_own n' m mem'
    pending_mem := fun m mem' => List.mem_singleton.mp mem' ▸ held.1
    refs := fun m mem' => ?_
    some := fun m mem' => (same m).2.1 ▸ counts.some m mem'
    small := fun m mem' => (same m).2.1 ▸ counts.small m mem'
    banned_attached := fun m mem' banned => counts.banned_attached m mem' ((same m).2.2 ▸ banned)
    banned_mark := fun n' id mark => ?_ }
  · have other : m ≠ p := fun here => by
      rw [here, freed] at alive
      cases alive
    exact (mem_live m).mpr ⟨other, counts.dead m mem' (pEq m other ▸ alive)⟩
  · rw [(same m₁).1, (same m₂).1] at ids
    exact counts.id_inj n' m₁ mem₁ m₂ mem₂ ids
  · have before := counts.refs m mem'
    rw [(same m).2.1, (same m).2.2]
    show _ = _ + t.recordCount v m + _ + _
    by_cases here : m = p
    · rw [here, freed, List.count_cons_self, List.count_nil]
      rw [here, held.2, if_pos rfl, List.count_nil] at before
      simp only [Bool.false_eq_true, if_false]
      omega
    · rw [pEq m here, List.count_cons_of_ne (Ne.symm here)]
      exact before
  · refine (counts.banned_mark n' id mark).imp_right fun still tracked => ?_
    obtain ⟨m, mem', idEq, banned⟩ := still tracked
    exact ⟨m, mem', (same m).1.trans idEq, (same m).2.2.trans banned⟩

/-- The table of a torrent that is gone loses a `meta_peer`. -/
theorem Ok.kill {m : Nat} (rest : List Nat) (ok : t.Ok counted stopping [] v)
    (first : t.mptbl n = m :: rest) (gone : n ∉ v.torrents)
    (quiet : ∀ p ∈ v.live, v.n p ≠ some n) (silent : counted → t.records n = []) :
    Ok { t with mps := t.mps.erase m, mptbl := Function.update t.mptbl n rest }
      counted stopping [] v := by
  have mem_mps : ∀ m', m' ∈ t.mps.erase m ↔ m' ≠ m ∧ m' ∈ t.mps := fun m' =>
    ok.mps_nodup.mem_erase_iff
  have mptblEq : ∀ n', Function.update t.mptbl n rest n' = if n' = n then rest else t.mptbl n' :=
    fun n' => Function.update_apply ..
  have old : ∀ n', ∀ m' ∈ Function.update t.mptbl n rest n', m' ∈ t.mptbl n' := fun n' m' mem => by
    rw [mptblEq] at mem
    split at mem
    · rename_i here
      rw [here, first]
      exact List.mem_cons_of_mem _ mem
    · exact mem
  have listed := ok.in_table n m (first ▸ List.mem_cons_self)
  refine
    { alive := fun p mem => ⟨(mem_mps p).mpr ⟨fun here => quiet p mem (here ▸ listed.2),
        (ok.alive p mem).1⟩, (ok.alive p mem).2⟩
      in_table := fun n' m' mem => ok.in_table n' m' (old n' m' mem)
      mps_nodup := ok.mps_nodup.erase m
      mps_lt := fun m' mem => ok.mps_lt m' (List.mem_of_mem_erase mem)
      mptbl_lt := fun n' m' mem => ok.mptbl_lt n' m' (old n' m' mem)
      counts := fun counting => ?_ }
  have counts := ok.counts counting
  have nodup := counts.mptbl_nodup n
  rw [first] at nodup
  obtain ⟨notLater, nodup⟩ := List.nodup_cons.mp nodup
  have others : ∀ n', ∀ m' ∈ Function.update t.mptbl n rest n', m' ≠ m := fun n' m' mem here => by
    have same : n' = n := Option.some.inj
      ((ok.in_table n' m' (old n' m' mem)).2.symm.trans (here ▸ listed.2))
    rw [mptblEq, if_pos same] at mem
    exact notLater (here ▸ mem)
  exact
    { dead := fun m' mem => counts.dead m' (List.mem_of_mem_erase mem)
      mem_mptbl := fun n' m' mem on belongs => by
        obtain ⟨other, mem⟩ := (mem_mps m').mp mem
        have mem := counts.mem_mptbl n' m' mem on belongs
        show m' ∈ Function.update t.mptbl n rest n'
        rw [mptblEq]
        split
        · rename_i here
          rw [here, first] at mem
          exact (List.mem_cons.mp mem).resolve_left other
        · exact mem
      mptbl_mem := fun n' m' mem => (mem_mps m').mpr
        ⟨others n' m' mem, counts.mptbl_mem n' m' (old n' m' mem)⟩
      mptbl_nodup := fun n' => by
        show (Function.update t.mptbl n rest n').Nodup
        rw [mptblEq]
        split
        · exact nodup
        · exact counts.mptbl_nodup n'
      id_inj := fun n' m₁ mem₁ m₂ mem₂ =>
        counts.id_inj n' m₁ (old n' m₁ mem₁) m₂ (old n' m₂ mem₂)
      id_own := fun n' m' mem => counts.id_own n' m' (old n' m' mem)
      record := fun n' r mem => by
        obtain ⟨inMps, on, belongs⟩ := counts.record n' r mem
        refine ⟨(mem_mps r.mp).mpr ⟨fun here => ?_, inMps⟩, on, belongs⟩
        have same : n' = n := Option.some.inj (belongs.symm.trans (here ▸ listed.2))
        have none := silent counting
        rw [← same] at none
        exact List.not_mem_nil (none ▸ mem)
      pending_mem := fun m' mem => nomatch mem
      refs := fun m' mem => counts.refs m' (List.mem_of_mem_erase mem)
      some := fun m' mem => counts.some m' (List.mem_of_mem_erase mem)
      small := fun m' mem => counts.small m' (List.mem_of_mem_erase mem)
      banned_attached := fun m' mem => counts.banned_attached m' (List.mem_of_mem_erase mem)
      quiet := counts.quiet
      banned_mark := fun n' id mark => by
        refine (counts.banned_mark n' id mark).imp_right fun still tracked => ?_
        have other : n' ≠ n := fun here => gone (here ▸ tracked)
        obtain ⟨m', mem, held⟩ := still tracked
        refine ⟨m', ?_, held⟩
        show m' ∈ Function.update t.mptbl n rest n'
        rw [mptblEq, if_neg other]
        exact mem
      no_return := counts.no_return }

end Table

theorem Logged.pieceAlloc {t : Table} {nblocks : Nat} (logged : Logged t.getlst) :
    Logged (t.pieceAlloc n index nblocks).getlst := by
  intro n' pc mem
  have mem : pc ∈ Function.update t.getlst n _ n' := mem
  rw [Function.update_apply] at mem
  split at mem
  · rcases List.mem_append.mp mem with old | new
    · exact logged n pc old
    · rw [List.mem_singleton.mp new]
      exact List.cons_ne_nil _ _
  · exact logged n' pc mem

/-- The table of a torrent that is gone is freed. -/
theorem mpsKill_wp (ok : d.table.Ok counted stopping [] v) (gone : n ∉ v.torrents)
    (quiet : ∀ p ∈ v.live, v.n p ≠ some n) (silent : counted → d.table.records n = []) :
    (mpsKill n).wp (contract counted) callers (fun _ d' => d.To (fun t =>
      t.Ok counted stopping [] v ∧ t.getlst = d.table.getlst) d') d := by
  unfold mpsKill
  rw [wp_bind, wp_get, wp_bind]
  refine wp_mono (wp_forEach (fun rest d' => d.To (fun t => t.getlst = d.table.getlst ∧
    Table.Ok { t with mptbl := Function.update t.mptbl n rest } counted stopping [] v) d')
    ?_ ⟨_, rfl, rfl, ?_⟩) ?_
  · rintro m rest _ _ ⟨t, rfl, getlst, ok⟩
    unfold mpKill
    rw [wp_bind, wp_get, wp_bind, wp_assert]
    split
    · rw [wp_onTable]
      refine ⟨_, rfl, getlst, ?_⟩
      have killed := ok.kill rest (Function.update_self ..) gone quiet fun counting => by
        rw [← silent counting]
        unfold Table.records
        rw [← getlst]
      dsimp only at killed
      rwa [Function.update_idem] at killed
    · rename_i freed
      refine .inr ⟨fun counting => freed ?_, by decide⟩
      refine (ok.counts counting).mptbl_mem n m ?_
      show m ∈ Function.update t.mptbl n (m :: rest) n
      rw [Function.update_self]
      exact List.mem_cons_self
  · rw [Function.update_eq_self]
    exact ok
  · rintro _ _ ⟨t, rfl, getlst, ok⟩
    rw [wp_onTable]
    exact ⟨_, rfl, ok, getlst⟩

end Btpd.Swarm
