import Btpd.Swarm.Daemon
import Btpd.Swarm.Members

/-!
# The lists, the masks and the references over whole runs

Each routine of the daemon keeps the queues, the lists and the table together; the
bounds `r` and `w` on the queues of the limiter show that its loops end.  With
`counted` the references are counted as well, on the runs in which none of them is
one too many for 16 bits.
-/

namespace Btpd.Swarm

open Prog

variable {d : Daemon} {callers : List Fn} {counted : Prop} {stopping : Option Nat}
  {p n r w : Nat}

/-- The queues and the table are right for the lists. -/
structure Parts (counted : Prop) (r w : Nat) (stopping : Option Nat) (d : Daemon) : Prop where
  queues : d.queues.Ok r w d.roster.live
  table : d.table.Ok counted stopping [] d.roster.view
  logged : Logged d.table.getlst

/-- The queues, the lists and the table are right, and one torrent may be stopping. -/
structure Inv (counted : Prop) (r w : Nat) (stopping : Option Nat) (d : Daemon) : Prop
    extends Parts counted r w stopping d where
  roster : d.roster.Ok stopping

/-! ## Buffers -/

theorem peerSend_wp {len : Nat} (ok : d.queues.Ok r w d.roster.live)
    (mem : p ∈ d.roster.live) :
    (peerSend p len).wp (contract counted) callers (fun _ d' =>
      ∃ q, d' = { d with queues := q } ∧ q.Ok r w d.roster.live) d := by
  unfold peerSend
  rw [wp_onQueues]
  exact ends_mono (ok.peerSend mem) fun q held => ⟨q, rfl, held⟩

theorem doDeed_wp {deed : Deed} (parts : Parts counted r w stopping d) :
    (doDeed deed).wp (contract counted) callers (fun _ d' =>
      Parts counted r w stopping d' ∧ d'.roster = d.roster) d := by
  cases deed with
  | send p len =>
      unfold doDeed
      rw [wp_bind, wp_get, wp_when]
      split
      · rename_i mem
        refine wp_mono (peerSend_wp parts.queues mem) ?_
        rintro _ _ ⟨q, rfl, held⟩
        exact ⟨{ parts with queues := held }, rfl⟩
      · exact ⟨parts, rfl⟩
  | unsend p i =>
      unfold doDeed
      rw [wp_bind, wp_get, wp_when]
      split
      · rename_i there
        unfold peerUnsend
        rw [wp_onQueues]
        refine ends_mono (parts.queues.peerUnsend there.1) fun q held => ?_
        exact ⟨{ parts with queues := held }, rfl⟩
      · exact ⟨parts, rfl⟩
  | alloc n index nblocks =>
      unfold doDeed
      rw [wp_bind, wp_get, wp_when]
      split
      · rw [wp_onTable]
        exact ⟨{ parts with table := parts.table.pieceAlloc, logged := parts.logged.pieceAlloc },
          rfl⟩
      · exact ⟨parts, rfl⟩

theorem doDeeds_wp {deeds : List Deed} (parts : Parts counted r w stopping d) :
    (doDeeds deeds).wp (contract counted) callers (fun _ d' =>
      Parts counted r w stopping d' ∧ d'.roster = d.roster) d := by
  refine wp_forEach_keeps (fun d' => Parts counted r w stopping d' ∧ d'.roster = d.roster) ?_
    ⟨parts, rfl⟩
  rintro deed _ d' ⟨parts, same⟩
  refine wp_mono (doDeed_wp parts) ?_
  rintro _ d'' ⟨parts, same'⟩
  exact ⟨parts, same'.trans same⟩

/-! ## Connections that come and go -/

theorem peerCreateCommon_wp {n : Option Nat} (inv : Inv counted r w stopping d)
    (room : d.roster.netNpeers < d.roster.netMaxPeers)
    (active : ∀ n', n = some n' → (d.roster.net n').active = true) :
    (peerCreateCommon n).wp (contract counted) callers (fun p d' =>
      Inv counted r w stopping d' ∧ p ∈ d'.roster.live ∧ d'.roster.net = d.roster.net) d := by
  unfold peerCreateCommon
  rw [wp_bind, wp_get]
  dsimp only
  rw [wp_bind, wp_onTable, wp_bind, wp_onQueues, ends_ok, wp_bind, wp_onRoster, ends_ok, wp_pure]
  have created := inv.roster.peerCreate room active
  refine ⟨⟨⟨inv.queues.open_ inv.roster.fresh, ?_, inv.logged⟩, created⟩, List.mem_cons_self, rfl⟩
  refine inv.table.mpCreate n rfl rfl ?_ ?_ rfl rfl rfl
  · funext p
    show (Function.update d.roster.peer d.roster.nextPeer _ p).n =
      Function.update (fun p => (d.roster.peer p).n) d.roster.nextPeer n p
    rw [Function.update_apply, Function.update_apply]
    split <;> rfl
  · funext p
    show (Function.update d.roster.peer d.roster.nextPeer _ p).attached =
      Function.update (fun p => (d.roster.peer p).attached) d.roster.nextPeer false p
    rw [Function.update_apply, Function.update_apply]
    split <;> rfl

/-- `peer_kill` takes a connection off all lists. -/
theorem peerKill_wp {lost : List Deed} (inv : Inv counted r w stopping d)
    (mem : p ∈ d.roster.live) :
    (peerKill p lost).wp (contract counted) callers (fun _ d' =>
      Inv counted r w stopping d' ∧ d.roster.Without p d'.roster ∧
        (lost = [] → d'.table.getlst = d.table.getlst)) d := by
  unfold peerKill
  rw [wp_bind, wp_get, wp_bind, wp_onRoster]
  refine ends_mono (inv.roster.lose mem) ?_
  rintro roster ⟨view, gone⟩
  have live : roster.live = d.roster.live := congrArg View.live view
  have parts : Parts counted r w stopping { d with roster := roster } :=
    ⟨live ▸ inv.queues, view ▸ inv.table, inv.logged⟩
  refine wp_between (fun _ d' => Parts counted r w stopping d' ∧ d'.roster = roster ∧
    (lost = [] → d'.table.getlst = d.table.getlst)) ?_ ?_
  · rw [wp_when]
    split
    · cases lost with
      | nil => exact wp_pure.mpr ⟨parts, rfl, fun _ => rfl⟩
      | cons deed lost =>
          refine wp_mono (doDeeds_wp parts) ?_
          rintro _ _ ⟨parts, same⟩
          exact ⟨parts, same, nofun⟩
    · exact ⟨parts, rfl, fun _ => rfl⟩
  rintro _ d' ⟨parts, same, getlst⟩
  have mem' : p ∈ d'.roster.live := by
    rw [same, live]
    exact mem
  have nodup : d'.roster.live.Nodup := by
    rw [same, live]
    exact inv.roster.live_nodup
  have viewEq : d'.roster.view = d.roster.view := by
    rw [same]
    exact view
  rw [wp_bind, wp_onQueues]
  refine ends_mono (parts.queues.drop mem' nodup) fun q dropped => ?_
  rw [wp_bind, wp_onTable]
  refine wp_between _ (mpDrop_wp (parts.table.release mem' nodup) rfl fun attached => ?_) ?_
  · have attached : d'.roster.view.attached p = true := attached
    rw [viewEq] at attached
    obtain ⟨n, belongs⟩ := Option.isSome_iff_exists.mp (inv.roster.attached_n p mem attached)
    refine ⟨n, belongs, fun _ => ?_⟩
    show d'.roster.view.n p = some n
    rw [viewEq]
    exact belongs
  rintro _ _ ⟨t, rfl, ok, same'⟩
  rw [wp_onRoster, ends_ok]
  have without : d.roster.Without p (d'.roster.free p) := same ▸ gone
  exact ⟨⟨⟨dropped, ok, same' ▸ parts.logged⟩, inv.roster.without mem without⟩, without,
    fun none => same'.trans (getlst none)⟩

/-! ## Reading -/

/-- The handshake of a connection goes on. -/
theorem setPeer_wp {peer : Peer} (inv : Inv counted r w none d)
    (attached : peer.attached = (d.roster.peer p).attached)
    (same : peer.attached = true → peer.n = (d.roster.peer p).n)
    (belongs : ∀ n, peer.n = some n → (d.roster.net n).active = true)
    (stage_attached : peer.stage = .btpMsg ↔ peer.attached = true)
    (stage_n : peer.n = none ↔ peer.incoming = true ∧
      (peer.stage = .shakePstr ∨ peer.stage = .shakeInfo)) :
    Inv counted r w none { d with roster := d.roster.setPeer p peer } := by
  have attachedEq : (d.roster.setPeer p peer).view.attached = d.roster.view.attached := by
    funext p'
    show ((d.roster.setPeer p peer).peer p').attached = (d.roster.peer p').attached
    rw [Roster.setPeer_peer]
    split
    · rename_i here
      rw [here, attached]
    · rfl
  refine ⟨⟨inv.queues, ?_, inv.logged⟩, inv.roster.setPeer attached same
    (fun n eq => .inl (belongs n eq)) stage_attached stage_n⟩
  refine inv.table.congr rfl attachedEq rfl (fun m => ?_) (fun _ mem => .inl mem) (Nat.le_refl _)
    fun counting => (inv.table.counts counting).quiet
  show ((d.roster.setPeer p peer).peer m).n = (d.roster.peer m).n ∨
    (d.roster.peer m).attached = false
  rw [Roster.setPeer_peer]
  split
  · rename_i here
    rw [here, ← attached]
    cases on : peer.attached with
    | false => exact .inr rfl
    | true => exact .inl (same on)
  · exact .inl rfl

/-- A connection goes on, or it is gone. -/
def Goes (counted : Prop) (r w p : Nat) (good : Bool) (d : Daemon) : Prop :=
  Inv counted r w none d ∧ (good = true → p ∈ d.roster.live)

theorem badData_wp {u : Input} (inv : Inv counted r w none d) (mem : p ∈ d.roster.live) :
    (badData p u).wp (contract counted) callers (Goes counted r w p) d := by
  unfold badData
  rw [wp_bind]
  refine wp_mono (peerKill_wp inv mem) ?_
  rintro _ d' ⟨inv, -⟩
  exact wp_pure.mpr ⟨inv, nofun⟩

theorem dlOnBlock_wp {b : Block} (inv : Inv counted r w none d) (mem : p ∈ d.roster.live)
    (attached : (d.roster.peer p).attached = true) :
    (dlOnBlock p b).wp (contract counted) callers (fun _ d' =>
      Inv counted r w none d' ∧ d'.roster = d.roster) d := by
  obtain ⟨n, belongs⟩ := Option.isSome_iff_exists.mp (inv.roster.attached_n p mem attached)
  have active : (d.roster.net n).active = true :=
    (inv.roster.belongs p mem n belongs).resolve_right nofun
  have old : n < d.roster.view.nextNet := inv.roster.torrents_lt n (inv.roster.active_mem n active)
  unfold dlOnBlock
  rw [wp_bind, wp_get, belongs]
  dsimp only
  rw [wp_when]
  split
  · rename_i found
    rw [wp_bind]
    refine wp_mono (pieceLogBlock_wp inv.table inv.logged active (fun _ =>
      ⟨(inv.table.alive p mem).1, attached, belongs⟩) found) ?_
    rintro _ _ ⟨t, rfl, ok, logged, begun⟩
    cases b.test with
    | open_ => exact wp_pure.mpr ⟨⟨⟨inv.queues, ok, logged⟩, inv.roster⟩, rfl⟩
    | ok culprit =>
        refine wp_mono (dlOnOkPiece_wp ok logged old (fun _ => rfl) begun) ?_
        rintro _ _ ⟨t, rfl, ok, logged⟩
        exact ⟨⟨⟨inv.queues, ok, logged⟩, inv.roster⟩, rfl⟩
    | bad =>
        refine wp_mono (dlOnBadPiece_wp ok logged active old (fun _ => rfl) begun) ?_
        rintro _ _ ⟨t, rfl, ok, logged⟩
        exact ⟨⟨⟨inv.queues, ok, logged⟩, inv.roster⟩, rfl⟩
  · exact ⟨inv, rfl⟩

/-- `peer_on_shake` attaches a connection to its torrent. -/
theorem peerOnShake_wp {u : Input} (inv : Inv counted r w none d) (mem : p ∈ d.roster.live)
    (stage : (d.roster.peer p).stage = .shakeId) (belongs : (d.roster.peer p).n = some n)
    (free : d.table.mptblFind n u.id = none) (other : u.id ≠ d.table.peerId) :
    (peerOnShake p n u >>= fun _ => peerSetInState p .btpMsg).wp (contract counted) callers
      (fun _ d' => Inv counted r w none d' ∧ p ∈ d'.roster.live) d := by
  have active : (d.roster.net n).active = true :=
    (inv.roster.belongs p mem n belongs).resolve_right nofun
  have detached : (d.roster.peer p).attached = false := by
    refine Bool.eq_false_iff.mpr fun on => ?_
    have late := (inv.roster.stage_attached p mem).mpr on
    rw [stage] at late
    cases late
  unfold peerOnShake
  rw [wp_bind, wp_bind]
  refine wp_mono (wp_forEach_keeps (fun d' =>
    ∃ q, d' = { d with queues := q } ∧ q.Ok r w d.roster.live) ?_ ⟨_, rfl, inv.queues⟩) ?_
  · rintro len _ _ ⟨q, rfl, ok⟩
    refine wp_mono (peerSend_wp (d := { d with queues := q }) ok mem) ?_
    rintro _ _ ⟨q', rfl, ok'⟩
    exact ⟨q', rfl, ok'⟩
  rintro _ _ ⟨q, rfl, ok⟩
  rw [wp_bind, wp_onTable, wp_bind, wp_onRoster]
  refine ends_mono (inv.roster.attach mem detached belongs active) ?_
  rintro roster ⟨attached, view⟩
  have live : roster.live = d.roster.live := congrArg View.live view
  have inserted := inv.table.mptblInsert mem detached belongs (inv.roster.active_mem n active)
    free other
  have between : Parts counted r w none
      ⟨q, roster, d.table.mptblInsert n p u.id, d.bwLimitIn, d.bwLimitOut, d.bwBytesIn,
        d.bwBytesOut⟩ := ⟨live ▸ ok, view ▸ inserted, inv.logged⟩
  refine wp_mono (doDeeds_wp between) ?_
  rintro _ d' ⟨parts, same⟩
  unfold peerSetInState
  rw [wp_onRoster, ends_ok]
  refine ⟨⟨⟨parts.queues, ?_, parts.logged⟩, ?_⟩, ?_⟩
  · show d'.table.Ok counted none [] (Roster.view _)
    rw [Roster.view_setStage]
    exact parts.table
  · rw [same]
    exact attached
  · show p ∈ d'.roster.live
    rw [same, live]
    exact mem

/-- `net_state` with a unit. -/
theorem netState_wp {u : Input} (inv : Inv counted r w none d) (mem : p ∈ d.roster.live) :
    (netState p u).wp (contract counted) callers (Goes counted r w p) d := by
  have belongs : ∀ n, (d.roster.peer p).n = some n → (d.roster.net n).active = true :=
    fun n eq => (inv.roster.belongs p mem n eq).resolve_right nofun
  have attached := inv.roster.stage_attached p mem
  have known := inv.roster.stage_n p mem
  unfold netState
  rw [wp_bind, wp_get]
  cases stage : (d.roster.peer p).stage with
  | shakePstr =>
      rw [stage] at attached known
      dsimp only
      rw [wp_ite]
      split
      · unfold peerSetInState
        rw [wp_bind, wp_onRoster, ends_ok, wp_pure]
        refine ⟨setPeer_wp inv rfl (fun _ => rfl) belongs ?_ ?_, fun _ => mem⟩
        · exact ⟨nofun, fun on => nomatch attached.mpr on⟩
        · exact known.trans (and_congr_right fun _ => iff_of_true (.inl rfl) (.inr rfl))
      · exact badData_wp inv mem
  | shakeInfo =>
      rw [stage] at attached known
      dsimp only
      rw [wp_ite]
      split
      · rename_i incoming
        cases found : d.roster.torrentByHash u.torrent with
        | none => exact badData_wp inv mem
        | some n =>
            have activeNew : (d.roster.net n).active = true := by
              unfold Roster.torrentByHash at found
              split at found
              · split at found
                · rename_i both
                  exact Option.some.inj found ▸ both.2
                · cases found
              · cases found
            dsimp only
            rw [wp_bind, wp_onRoster, ends_ok, wp_bind]
            refine wp_mono (peerSend_wp inv.queues mem) ?_
            rintro _ _ ⟨q, rfl, ok⟩
            unfold peerSetInState
            rw [wp_bind, wp_onRoster, ends_ok, wp_pure]
            dsimp only
            rw [Roster.setPeer_setPeer, Roster.setPeer_peer, if_pos rfl]
            have next : Inv counted r w none { d with queues := q } :=
              ⟨⟨ok, inv.table, inv.logged⟩, inv.roster⟩
            refine ⟨setPeer_wp next rfl (fun on => nomatch attached.mpr on) ?_ ?_ ?_,
              fun _ => mem⟩
            · exact fun n' eq => Option.some.inj eq ▸ activeNew
            · exact ⟨nofun, fun on => nomatch attached.mpr on⟩
            · exact iff_of_false nofun fun both => both.2.elim nofun nofun
      · rename_i outgoing
        rw [wp_ite]
        split
        · unfold peerSetInState
          rw [wp_bind, wp_onRoster, ends_ok, wp_pure]
          refine ⟨setPeer_wp inv rfl (fun _ => rfl) belongs ?_ ?_, fun _ => mem⟩
          · exact ⟨nofun, fun on => nomatch attached.mpr on⟩
          · exact known.trans (iff_of_false (fun both => outgoing both.1) fun both =>
              outgoing both.1)
        · exact badData_wp inv mem
  | shakeId =>
      rw [stage] at attached known
      dsimp only
      cases eq : (d.roster.peer p).n with
      | none => exact nomatch (known.mp eq).2
      | some n =>
          dsimp only
          rw [wp_ite]
          split
          · exact badData_wp inv mem
          · rename_i fresh
            obtain ⟨free, other⟩ := not_or.mp fresh
            have free : d.table.mptblFind n u.id = none :=
              Option.isNone_iff_eq_none.mp (Option.not_isSome_iff_eq_none.mp free ▸ rfl)
            have shaken : (peerOnShake p n u >>= fun _ => peerSetInState p .btpMsg).wp
                (contract counted) callers _ d := peerOnShake_wp inv mem stage eq free other
            rw [wp_bind] at shaken ⊢
            refine wp_mono shaken fun _ d' attaches => ?_
            rw [wp_bind]
            exact wp_mono attaches fun _ _ both => wp_pure.mpr ⟨both.1, fun _ => both.2⟩
  | btpMsg =>
      rw [stage] at attached
      have on := attached.mp rfl
      dsimp only
      rw [wp_ite]
      split
      · rw [wp_bind]
        refine wp_mono (doDeeds_wp inv.toParts) ?_
        rintro _ d' ⟨parts, same⟩
        have inv' : Inv counted r w none d' := ⟨parts, same ▸ inv.roster⟩
        have mem' : p ∈ d'.roster.live := same ▸ mem
        cases u.block with
        | none => exact wp_pure.mpr ⟨inv', fun _ => mem'⟩
        | some b =>
            dsimp only
            rw [wp_bind]
            refine wp_mono (dlOnBlock_wp inv' mem' (same ▸ on)) ?_
            rintro _ d'' ⟨inv'', same'⟩
            exact wp_pure.mpr ⟨inv'', fun _ => same' ▸ mem'⟩
      · exact badData_wp inv mem

theorem netStates_wp {us : List Input} (inv : Inv counted r w none d)
    (mem : p ∈ d.roster.live) :
    (netStates p us).wp (contract counted) callers (fun _ => Inv counted r w none) d := by
  induction us generalizing d with
  | nil => exact wp_pure.mpr inv
  | cons u us ih =>
      unfold netStates
      rw [wp_bind]
      refine wp_mono (netState_wp inv mem) fun good d' goes => ?_
      rw [wp_when]
      split
      · rename_i good
        exact ih goes.1 (goes.2 good)
      · exact goes.1

theorem netRead_wp {rmax : Nat} {o : ReadResult} (inv : Inv counted r w none d)
    (mem : p ∈ d.roster.live) :
    (netRead p rmax o).wp (contract counted) callers (fun _ => Inv counted r w none) d := by
  unfold netRead
  cases o.got with
  | again => exact wp_pure.mpr inv
  | closed =>
      dsimp only
      rw [wp_bind]
      exact wp_mono (peerKill_wp inv mem) fun _ _ held => wp_pure.mpr held.1
  | bytes nread units =>
      dsimp only
      rw [wp_bind]
      exact wp_mono (netStates_wp inv mem) fun _ _ held => wp_pure.mpr held

/-! ## Writing -/

/-- `net_write` is entered when there is something to write. -/
theorem netWrite_wp {wmax : Nat} {o : WriteResult} (inv : Inv counted r w none d)
    (mem : p ∈ d.roster.live) (enabled : (d.queues.sock p).evWrite = true) :
    (netWrite p wmax o).wp (contract counted) callers (fun _ => Inv counted r w none) d := by
  have some : (d.queues.sock p).outq ≠ [] :=
    ((inv.queues.sock p mem).evWrite.mp enabled).1
  have kill : ∀ lost, (peerKill p lost >>= fun _ => pure 0 : Routine Nat).wp (contract counted)
      callers (fun _ => Inv counted r w none) d := fun lost => by
    rw [wp_bind]
    exact wp_mono (peerKill_wp inv mem) fun _ _ held => wp_pure.mpr held.1
  unfold netWrite
  rw [wp_bind, wp_get, wp_bind, wp_assert, if_pos some]
  cases o.put with
  | unfilled => exact kill o.lost
  | again => exact wp_pure.mpr inv
  | closed => exact kill o.lost
  | bytes nwritten =>
      dsimp only
      generalize ite (0 < wmax) _ _ = written
      rw [wp_ite]
      split
      · exact kill o.lost
      · rw [wp_bind, wp_onQueues, ends_ok, wp_pure]
        exact ⟨⟨inv.queues.afterWrite mem enabled, inv.table, inv.logged⟩, inv.roster⟩

/-! ## Callbacks -/

/-- The invariant with some bounds on the queues of the limiter. -/
def Held (counted : Prop) (d : Daemon) : Prop := ∃ r w, Inv counted r w none d

theorem netReadCb_wp {o : ReadResult} (inv : Inv counted r w none d) (mem : p ∈ d.roster.live)
    (enabled : (d.queues.sock p).evRead = true) :
    (netReadCb p o).wp (contract counted) callers (fun _ => Held counted) d := by
  unfold netReadCb
  rw [wp_bind, wp_get, wp_ite]
  split
  · rw [wp_bind]
    exact wp_mono (netRead_wp inv mem) fun _ _ held => wp_pure.mpr ⟨r, w, held⟩
  rw [wp_ite]
  split
  · rw [wp_bind]
    refine wp_mono (netRead_wp inv mem) fun nread d' held => ?_
    rw [wp_modify]
    exact ⟨r, w, ⟨held.queues, held.table, held.logged⟩, held.roster⟩
  · rw [wp_onQueues, ends_ok]
    exact ⟨r + 1, w, ⟨inv.queues.waitRead mem enabled, inv.table, inv.logged⟩, inv.roster⟩

theorem netWriteCb_wp {o : WriteResult} (inv : Inv counted r w none d) (mem : p ∈ d.roster.live)
    (enabled : (d.queues.sock p).evWrite = true) :
    (netWriteCb p o).wp (contract counted) callers (fun _ => Held counted) d := by
  unfold netWriteCb
  rw [wp_bind, wp_get, wp_ite]
  split
  · rw [wp_bind]
    exact wp_mono (netWrite_wp inv mem enabled) fun _ _ held => wp_pure.mpr ⟨r, w, held⟩
  rw [wp_ite]
  split
  · rw [wp_bind]
    refine wp_mono (netWrite_wp inv mem enabled) fun nwritten d' held => ?_
    rw [wp_modify]
    exact ⟨r, w, ⟨held.queues, held.table, held.logged⟩, held.roster⟩
  · rw [wp_onQueues, ends_ok]
    exact ⟨r, w + 1, ⟨inv.queues.waitWrite mem enabled, inv.table, inv.logged⟩, inv.roster⟩

/-! ## The heartbeat -/

/-- Other connections than the one that a routine is for go on. -/
def Others (p : Nat) (d d' : Daemon) : Prop :=
  ∀ p' ∈ d.roster.live, p' ≠ p → p' ∈ d'.roster.live

theorem others_without {d' : Daemon} (nodup : d.roster.live.Nodup)
    (gone : d.roster.Without p d'.roster) : Others p d d' := fun p' mem other => by
  rw [gone.live, nodup.mem_erase_iff]
  exact ⟨other, mem⟩

theorem peerKill_others {lost : List Deed} (inv : Inv counted r w none d)
    (mem : p ∈ d.roster.live) :
    (peerKill p lost).wp (contract counted) callers (fun _ d' =>
      Inv counted r w none d' ∧ Others p d d') d :=
  wp_mono (peerKill_wp inv mem) fun _ _ held =>
    ⟨held.1, others_without inv.roster.live_nodup held.2.1⟩

theorem peerOnTick_wp {s : Second} (inv : Inv counted r w none d) (mem : p ∈ d.roster.live) :
    (peerOnTick s p).wp (contract counted) callers (fun _ d' =>
      Inv counted r w none d' ∧ Others p d d') d := by
  have same : Inv counted r w none d ∧ Others p d d := ⟨inv, fun _ mem _ => mem⟩
  have killIf : ∀ (c : Prop) [Decidable c], (when c (peerKill p (s.lost p))).wp
      (contract counted) callers (fun _ d' => Inv counted r w none d' ∧ Others p d d') d := by
    intro c _
    rw [wp_when]
    split
    · exact peerKill_others inv mem
    · exact same
  unfold peerOnTick
  rw [wp_bind, wp_get, wp_ite]
  split
  · exact peerKill_others inv mem
  rw [wp_ite]
  split
  · rw [wp_ite]
    split
    · refine wp_between (fun _ d' => ∃ q, d' = { d with queues := q } ∧ q.Ok r w d.roster.live)
        ?_ ?_
      · rw [wp_when]
        split
        · exact peerSend_wp inv.queues mem
        · exact ⟨_, rfl, inv.queues⟩
      · rintro _ _ ⟨q, rfl, ok⟩
        have inv' : Inv counted r w none { d with queues := q } :=
          ⟨⟨ok, inv.table, inv.logged⟩, inv.roster⟩
        rw [wp_when]
        split
        · exact peerKill_others inv' mem
        · exact ⟨inv', fun _ mem _ => mem⟩
    · exact killIf _
  · exact killIf _

/-- A loop over connections, each of which may end its own. -/
theorem forEachPeer_wp {f : Nat → Routine Unit} {ps : List Nat} (inv : Inv counted r w none d)
    (nodup : ps.Nodup) (live : ∀ p ∈ ps, p ∈ d.roster.live)
    (turn : ∀ p d, Inv counted r w none d → p ∈ d.roster.live →
      (f p).wp (contract counted) callers (fun _ d' =>
        Inv counted r w none d' ∧ Others p d d') d) :
    (forEach ps f).wp (contract counted) callers (fun _ => Inv counted r w none) d := by
  refine wp_mono (wp_forEach (fun rest d' => Inv counted r w none d' ∧ rest.Nodup ∧
    ∀ p ∈ rest, p ∈ d'.roster.live) ?_ ⟨inv, nodup, live⟩) fun _ _ held => held.1
  rintro p rest d' - ⟨inv, nodup, live⟩
  obtain ⟨notLater, nodup⟩ := List.nodup_cons.mp nodup
  obtain ⟨here, later⟩ := List.forall_mem_cons.mp live
  refine wp_mono (turn p d' inv here) ?_
  rintro _ d'' ⟨inv, others⟩
  exact ⟨inv, nodup, fun p' mem => others p' (later p' mem) fun same => notLater (same ▸ mem)⟩

theorem runPeerTicks_wp {s : Second} (inv : Inv counted r w none d) :
    (runPeerTicks s).wp (contract counted) callers (fun _ => Inv counted r w none) d := by
  unfold runPeerTicks
  rw [wp_bind, wp_get, wp_bind]
  refine wp_mono (forEachPeer_wp inv inv.roster.unattached_nodup
    (fun p mem => ((inv.roster.mem_unattached p).mp mem).1)
    fun p d inv mem => peerOnTick_wp inv mem) fun _ d' inv => ?_
  refine wp_forEach_keeps _ (fun n _ d inv => ?_) inv
  rw [wp_bind, wp_get]
  exact forEachPeer_wp inv (inv.roster.peers_nodup n)
    (fun p mem => ((inv.roster.mem_peers n p).mp mem).1) fun p d inv mem => peerOnTick_wp inv mem

/-- The loop over `net_bw_readq` ends, since each turn takes a connection off it. -/
theorem readTick_wp {s : Second} {fuel : Nat} (inv : Inv counted r w none d) (enough : r < fuel) :
    (readTick s fuel).wp (contract counted) callers (fun _ d' =>
      ∃ r', Inv counted r' w none d') d := by
  induction fuel generalizing d r with
  | zero => cases enough
  | succ fuel ih =>
      unfold readTick
      rw [wp_bind, wp_get]
      cases first : d.queues.readq with
      | nil => exact wp_pure.mpr ⟨r, inv⟩
      | cons p rest =>
          dsimp only
          rw [wp_when]
          split
          · have mem := ((inv.queues.mem_readq p).mp (first ▸ List.mem_cons_self)).1
            have shorter := inv.queues.readq_le
            rw [first, List.length_cons] at shorter
            rw [wp_bind, wp_onQueues]
            refine ends_mono (inv.queues.wakeRead first) fun q woken => ?_
            have inv' : Inv counted rest.length w none { d with queues := q } :=
              ⟨⟨woken, inv.table, inv.logged⟩, inv.roster⟩
            rw [wp_bind]
            refine wp_mono (netRead_wp inv' mem) fun nread d' held => ?_
            rw [wp_bind, wp_modify]
            exact ih ⟨⟨held.queues, held.table, held.logged⟩, held.roster⟩ (by omega)
          · exact ⟨r, inv⟩

theorem writeTick_wp {s : Second} {fuel : Nat} (inv : Inv counted r w none d) (enough : w < fuel) :
    (writeTick s fuel).wp (contract counted) callers (fun _ d' =>
      ∃ w', Inv counted r w' none d') d := by
  induction fuel generalizing d w with
  | zero => cases enough
  | succ fuel ih =>
      unfold writeTick
      rw [wp_bind, wp_get]
      cases first : d.queues.writeq with
      | nil => exact wp_pure.mpr ⟨w, inv⟩
      | cons p rest =>
          dsimp only
          rw [wp_when]
          split
          · have mem := ((inv.queues.mem_writeq p).mp (first ▸ List.mem_cons_self)).1
            have shorter := inv.queues.writeq_le
            rw [first, List.length_cons] at shorter
            rw [wp_bind, wp_onQueues]
            refine ends_mono (inv.queues.wakeWrite first) fun q woken => ?_
            have inv' : Inv counted r rest.length none { d with queues := q } :=
              ⟨⟨woken.1, inv.table, inv.logged⟩, inv.roster⟩
            rw [wp_bind]
            refine wp_mono (netWrite_wp inv' mem woken.2) fun nwritten d' held => ?_
            rw [wp_bind, wp_modify]
            exact ih ⟨⟨held.queues, held.table, held.logged⟩, held.roster⟩ (by omega)
          · exact ⟨w, inv⟩

theorem netBwTick_wp {s : Second} (inv : Inv counted r w none d) :
    (netBwTick s).wp (contract counted) callers (fun _ => Held counted) d := by
  unfold netBwTick
  rw [wp_bind, wp_modify, wp_bind, wp_get, wp_bind]
  have start : Inv counted d.queues.readq.length w none
      { d with bwBytesOut := d.bwLimitOut, bwBytesIn := d.bwLimitIn } :=
    ⟨⟨{ inv.queues with readq_le := Nat.le_refl _ }, inv.table, inv.logged⟩, inv.roster⟩
  refine wp_mono (readTick_wp start (Nat.lt_succ_self _)) ?_
  rintro _ d' ⟨r', inv⟩
  rw [wp_bind, wp_get]
  have start' : Inv counted r' d'.queues.writeq.length none d' :=
    ⟨⟨{ inv.queues with writeq_le := Nat.le_refl _ }, inv.table, inv.logged⟩, inv.roster⟩
  refine wp_mono (writeTick_wp start' (Nat.lt_succ_self _)) ?_
  rintro _ d'' ⟨w', inv⟩
  exact ⟨r', w', inv⟩

/-! ## Torrents -/

/-- No connection is for the torrent, which has no pieces in progress. -/
structure Quiet (counted : Prop) (n : Nat) (d : Daemon) : Prop where
  peers : ∀ p ∈ d.roster.live, (d.roster.peer p).n ≠ some n
  inactive : (d.roster.net n).active = false
  records : counted → d.table.records n = []

/-- While a torrent loses its connections, those that are due are in the rest of the
list that a loop goes through. -/
structure Clearing (counted : Prop) (r w n : Nat) (due : Peer → Prop) (rest : List Nat)
    (d : Daemon) : Prop extends Inv counted r w (some n) d where
  pieces : d.table.getlst n = []
  inactive : (d.roster.net n).active = false
  nodup : rest.Nodup
  alive : ∀ p ∈ rest, p ∈ d.roster.live
  left : ∀ p ∈ d.roster.live, due (d.roster.peer p) → (d.roster.peer p).n = some n → p ∈ rest

theorem Clearing.kill_wp {due : Peer → Prop} {rest : List Nat}
    (clearing : Clearing counted r w n due (p :: rest) d) :
    (peerKill p []).wp (contract counted) callers (fun _ =>
      Clearing counted r w n due rest) d := by
  have mem := clearing.alive p List.mem_cons_self
  obtain ⟨notLater, nodup⟩ := List.nodup_cons.mp clearing.nodup
  refine wp_mono (peerKill_wp clearing.toInv mem) ?_
  rintro _ d' ⟨inv, gone, getlst⟩
  have mem_live : ∀ p', p' ∈ d'.roster.live ↔ p' ≠ p ∧ p' ∈ d.roster.live := fun p' => by
    rw [gone.live, clearing.roster.live_nodup.mem_erase_iff]
  refine ⟨inv, ?_, (gone.active n).trans clearing.inactive, nodup, fun p' mem' => ?_,
    fun p' mem' => ?_⟩
  · rw [getlst rfl]
    exact clearing.pieces
  · exact (mem_live p').mpr ⟨fun same => notLater (same ▸ mem'),
      clearing.alive p' (List.mem_cons_of_mem _ mem')⟩
  · obtain ⟨other, mem'⟩ := (mem_live p').mp mem'
    rw [gone.peer]
    intro isDue belongs
    exact (List.mem_cons.mp (clearing.left p' mem' isDue belongs)).resolve_left other

theorem netStop_wp {choke : List Deed} (inv : Inv counted r w (some n) d)
    (active : (d.roster.net n).active = true) :
    (netStop n choke).wp (contract counted) callers (fun _ d' =>
      Inv counted r w (some n) d' ∧ Quiet counted n d') d := by
  unfold netStop
  rw [wp_bind, wp_onRoster]
  refine ends_mono (inv.roster.deactivate active) ?_
  rintro roster ⟨ok, view, -, -⟩
  have live : roster.live = d.roster.live := congrArg View.live view
  have inactive : (roster.net n).active = false := by
    refine (congrFun (congrArg View.active view) n).trans ?_
    exact Function.update_self ..
  have table : d.table.Ok counted (some n) [] roster.view := by
    rw [view]
    refine inv.table.congr rfl rfl rfl (fun _ => .inl rfl) (fun _ mem => .inl mem)
      (Nat.le_refl _) fun counting n' off running => ?_
    have other : n' ≠ n := fun same => running (congrArg some same.symm)
    have off : Function.update d.roster.view.active n false n' = false := off
    rw [Function.update_of_ne other] at off
    exact (inv.table.counts counting).quiet n' off running
  have parts : Parts counted r w (some n) { d with roster := roster } :=
    ⟨live ▸ inv.queues, table, inv.logged⟩
  rw [wp_bind]
  refine wp_mono (doDeeds_wp parts) ?_
  rintro _ d₁ ⟨parts, same⟩
  have ok₁ : d₁.roster.Ok (some n) := same ▸ ok
  have inactive₁ : (d₁.roster.net n).active = false := same ▸ inactive
  rw [wp_bind, wp_get, wp_bind]
  refine wp_mono (piecesFree_wp parts.table parts.logged (fun _ => rfl) (Nat.lt_succ_self _)) ?_
  rintro _ _ ⟨t, rfl, ok', logged, pieces⟩
  rw [wp_bind, wp_get, wp_bind]
  -- first the connections that are still in their handshake
  refine wp_mono (wp_forEach
    (Clearing counted r w n fun peer => peer.attached = false) ?_ ?_) fun _ d₂ cleared => ?_
  · rintro p rest d' - clearing
    rw [wp_bind, wp_get, wp_when]
    split
    · exact clearing.kill_wp
    · rename_i other
      obtain ⟨-, nodup⟩ := List.nodup_cons.mp clearing.nodup
      refine { clearing with
        nodup := nodup
        alive := fun p' mem' => clearing.alive p' (List.mem_cons_of_mem _ mem')
        left := fun p' mem' due belongs => ?_ }
      refine (List.mem_cons.mp (clearing.left p' mem' due belongs)).resolve_left fun here => ?_
      exact other (here ▸ belongs)
  · exact ⟨⟨⟨parts.queues, ok', logged⟩, ok₁⟩, pieces, inactive₁, ok₁.unattached_nodup,
      fun p mem => ((ok₁.mem_unattached p).mp mem).1,
      fun p mem due _ => (ok₁.mem_unattached p).mpr ⟨mem, due⟩⟩
  rw [wp_bind, wp_get]
  have start : Clearing counted r w n (fun _ => True) (d₂.roster.net n).peers d₂ :=
    { cleared with
      nodup := cleared.roster.peers_nodup n
      alive := fun p mem => ((cleared.roster.mem_peers n p).mp mem).1
      left := fun p mem _ belongs => by
        cases attached : (d₂.roster.peer p).attached with
        | false => exact absurd (cleared.left p mem attached belongs) List.not_mem_nil
        | true => exact (cleared.roster.mem_peers n p).mpr ⟨mem, attached, belongs⟩ }
  refine wp_mono (wp_forEach (Clearing counted r w n fun _ => True) ?_ start) fun _ d₃ cleared => ?_
  · rintro p rest d' - clearing
    exact clearing.kill_wp
  · refine ⟨cleared.toInv, fun p mem belongs => ?_, cleared.inactive, fun _ => ?_⟩
    · exact List.not_mem_nil (cleared.left p mem trivial belongs)
    · unfold Table.records
      rw [cleared.pieces]
      rfl

/-- A torrent whose activity stays as it is changes. -/
theorem setNet_inv {stopping' : Option Nat} {net : Net} (inv : Inv counted r w stopping d)
    (ok : (d.roster.setNet n net).Ok stopping') (active : net.active = (d.roster.net n).active)
    (quiet : counted → ∀ n', d.roster.view.active n' = false → stopping' ≠ some n' →
      d.table.records n' = []) :
    Inv counted r w stopping' { d with roster := d.roster.setNet n net } := by
  refine ⟨⟨inv.queues, ?_, inv.logged⟩, ok⟩
  show d.table.Ok counted stopping' [] (d.roster.setNet n net).view
  rw [Roster.view_setNet active]
  exact inv.table.congr rfl rfl rfl (fun _ => .inl rfl) (fun _ mem => .inl mem) (Nat.le_refl _) quiet

theorem torrentKill_wp (inv : Inv counted r w none d)
    (inactive : (d.roster.net n).active = false) :
    (torrentKill n).wp (contract counted) callers (fun _ => Inv counted r w none) d := by
  unfold torrentKill
  rw [wp_bind, wp_get, wp_bind, wp_assert, if_pos inactive, wp_bind, wp_onRoster, ends_ok]
  have ok := inv.roster.torrentKill inactive
  have table : d.table.Ok counted none []
      { d.roster.view with torrents := d.roster.torrents.erase n } :=
    inv.table.congr rfl rfl rfl (fun _ => .inl rfl)
      (fun n' mem => .inl (List.mem_of_mem_erase mem)) (Nat.le_refl _)
      fun counting => (inv.table.counts counting).quiet
  refine wp_mono (mpsKill_wp table ?_ ?_ ?_) ?_
  · exact fun mem => (inv.roster.torrents_nodup.mem_erase_iff.mp mem).1 rfl
  · exact inv.roster.quiet inactive
  · exact fun counting => (inv.table.counts counting).quiet n inactive nofun
  · rintro _ _ ⟨t, rfl, ok', getlst⟩
    exact ⟨⟨inv.queues, ok', getlst ▸ inv.logged⟩, ok⟩

theorem torrentStop_wp {cmActive trActive : Bool} {choke : List Deed}
    (inv : Inv counted r w none d) :
    (torrentStop n cmActive trActive choke).wp (contract counted) callers
      (fun _ => Inv counted r w none) d := by
  unfold torrentStop
  rw [wp_bind, wp_get, wp_when]
  split
  · rw [wp_bind, wp_onRoster, ends_ok]
    have stopping : Inv counted r w (some n)
        { d with roster := d.roster.setNet n { d.roster.net n with state := .stopping } } :=
      setNet_inv inv (inv.roster.setState .stopping
        (fun _ stops => absurd stops (Option.some_ne_none _).symm) fun _ => .inl rfl) rfl
        fun counting n' off _ => (inv.table.counts counting).quiet n' off (Option.some_ne_none n').symm
    refine wp_between (fun _ d' => Inv counted r w (some n) d' ∧ Quiet counted n d') ?_ ?_
    · rw [wp_when]
      split
      · rename_i active
        refine netStop_wp stopping ?_
        show ((d.roster.setNet n _).net n).active = true
        rw [Roster.setNet_net, if_pos rfl]
        exact active
      · rename_i inactive
        have inactive : (d.roster.net n).active = false := Bool.eq_false_iff.mpr inactive
        refine ⟨stopping, inv.roster.quiet inactive, ?_, fun counting =>
          (inv.table.counts counting).quiet n inactive (Option.some_ne_none n).symm⟩
        show ((d.roster.setNet n _).net n).active = false
        rw [Roster.setNet_net, if_pos rfl]
        exact inactive
    rintro _ d₁ ⟨inv, quiet⟩
    rw [wp_bind, wp_onRoster, ends_ok]
    have stopped : Inv counted r w none
        { d₁ with roster := d₁.roster.setNet n { d₁.roster.net n with tracked := false } } := by
      refine setNet_inv inv (inv.roster.setQuiet n _ (fun n' same => (Option.some.inj same).symm)
        quiet.peers rfl rfl ?_ fun on => absurd on Bool.false_ne_true) rfl
        fun counting n' off _ => ?_
      · intro active
        have active : (d₁.roster.net n).active = true := active
        rw [quiet.inactive] at active
        cases active
      · by_cases here : n' = n
        · rw [here]
          exact quiet.records counting
        · exact (inv.table.counts counting).quiet n' off fun same =>
            here (Option.some.inj same).symm
    have inactive : ((d₁.roster.setNet n
        { d₁.roster.net n with tracked := false }).net n).active = false := by
      rw [Roster.setNet_net, if_pos rfl]
      exact quiet.inactive
    rw [wp_when]
    split
    · rw [wp_bind, wp_onRoster, ends_ok]
      have ghost := setNet_inv stopped (stopped.roster.setState (n := n) .ghost
        (fun _ stops => stops) fun active => absurd (inactive.symm.trans active) Bool.false_ne_true) rfl
        fun counting => (stopped.table.counts counting).quiet
      rw [wp_when]
      split
      · refine torrentKill_wp ghost ?_
        show ((Roster.setNet _ n _).net n).active = false
        rw [Roster.setNet_net, if_pos rfl]
        exact inactive
      · exact ghost
    · exact stopped
  · exact inv

/-- A torrent that is neither leeching nor seeding is not active. -/
theorem inactive_of_state (inv : Inv counted r w none d)
    (leech : (d.roster.net n).state ≠ .leech) (seed : (d.roster.net n).state ≠ .seed) :
    (d.roster.net n).active = false :=
  Bool.eq_false_iff.mpr fun active =>
    ((inv.roster.running n active).resolve_left nofun).elim leech seed

/-- `torrent_on_tick` uses a torrent that it has just freed at worst. -/
theorem torrentOnTick_wp {s : Second} (inv : Inv counted r w none d) :
    (torrentOnTick s n).wp (contract counted) callers (fun _ => Inv counted r w none) d := by
  unfold torrentOnTick
  rw [wp_bind, wp_get]
  refine wp_between (fun _ => Inv counted r w none) ?_ fun _ d inv => ?_
  · rw [wp_when]
    split
    · exact torrentStop_wp inv
    · exact inv
  rw [wp_bind, wp_get, wp_bind, wp_assert]
  split
  swap
  · exact .inl rfl
  rename_i tracked
  cases state : (d.roster.net n).state with
  | starting =>
      have inactive := inactive_of_state inv (by rw [state]; decide) (by rw [state]; decide)
      dsimp only
      rw [wp_when]
      split
      · rw [wp_onRoster, ends_ok]
        refine ⟨⟨inv.queues, ?_, inv.logged⟩, inv.roster.setQuiet n _
          (fun _ stops => absurd stops (Option.some_ne_none _).symm) (inv.roster.quiet inactive) rfl rfl (fun _ => ⟨tracked, ?_⟩) fun _ => rfl⟩
        · refine inv.table.congr rfl rfl rfl (fun _ => .inl rfl) (fun _ mem => .inl mem)
            (Nat.le_refl _) fun counting n' off _ => ?_
          have off : ((d.roster.setNet n _).net n').active = false := off
          rw [Roster.setNet_net] at off
          split at off
          · cases off
          · exact (inv.table.counts counting).quiet n' off (Option.some_ne_none n').symm
        · dsimp only
          split
          · exact .inr rfl
          · exact .inl rfl
      · exact inv
  | leech =>
      dsimp only
      rw [wp_when]
      split
      · rw [wp_bind, wp_onRoster, ends_ok]
        have seeding := setNet_inv inv (inv.roster.setState (n := n) .seed (fun _ stops => stops)
          fun _ => .inr (.inr rfl)) rfl fun counting => (inv.table.counts counting).quiet
        refine forEachPeer_wp seeding (inv.roster.peers_nodup n)
          (fun p mem => ((inv.roster.mem_peers n p).mp mem).1) fun p d inv mem => ?_
        rw [wp_when]
        split
        · exact peerKill_others inv mem
        · exact ⟨inv, fun _ mem _ => mem⟩
      · exact inv
  | seed => exact wp_pure.mpr inv
  | stopping =>
      have inactive := inactive_of_state inv (by rw [state]; decide) (by rw [state]; decide)
      dsimp only
      rw [wp_when]
      split
      · rw [wp_bind, wp_onRoster, ends_ok]
        have ghost := setNet_inv inv (inv.roster.setState (n := n) .ghost (fun _ stops => stops)
          fun active => absurd (inactive.symm.trans active) Bool.false_ne_true) rfl
          fun counting => (inv.table.counts counting).quiet
        rw [wp_when]
        split
        · refine torrentKill_wp ghost ?_
          show ((Roster.setNet _ n _).net n).active = false
          rw [Roster.setNet_net, if_pos rfl]
          exact inactive
        · exact ghost
      · exact inv
  | ghost =>
      have inactive := inactive_of_state inv (by rw [state]; decide) (by rw [state]; decide)
      dsimp only
      rw [wp_when]
      split
      · exact torrentKill_wp inv inactive
      · exact inv

theorem heartbeat_wp {s : Second} (inv : Inv counted r w none d) :
    (heartbeat s).wp (contract counted) callers (fun _ => Held counted) d := by
  unfold heartbeat
  rw [wp_bind]
  refine wp_mono (runPeerTicks_wp inv) fun _ d₁ inv => ?_
  rw [wp_bind]
  refine wp_mono (netBwTick_wp inv) ?_
  rintro _ d₂ ⟨r', w', inv⟩
  rw [wp_bind, wp_get]
  exact wp_mono (wp_forEach_keeps _ (fun n _ d inv => torrentOnTick_wp inv) inv)
    fun _ _ inv => ⟨r', w', inv⟩

/-! ## Events -/

theorem netConnectionCb_wp (inv : Inv counted r w none d) :
    netConnectionCb.wp (contract counted) callers (fun _ => Inv counted r w none) d := by
  unfold netConnectionCb
  rw [wp_bind, wp_get, wp_bind, wp_assert, if_pos inv.roster.netMaxPeers, wp_when]
  split
  · rename_i room
    unfold peerCreateIn
    rw [wp_bind]
    refine wp_mono (peerCreateCommon_wp inv ?_ nofun) fun _ _ held => wp_pure.mpr held.1
    exact Nat.lt_of_le_of_ne inv.roster.netMaxPeers room
  · exact inv

theorem parseReply_wp {peers : List Bool} (inv : Inv counted r w none d)
    (active : (d.roster.net n).active = true) :
    (parseReply n peers).wp (contract counted) callers (fun _ => Inv counted r w none) d := by
  induction peers generalizing d with
  | nil => exact wp_pure.mpr inv
  | cons connects peers ih =>
      unfold parseReply
      rw [wp_bind, wp_get, wp_when]
      split
      · rename_i room
        refine wp_between (fun _ d' => Inv counted r w none d' ∧
          (d'.roster.net n).active = true) ?_ fun _ d' held => ih held.1 held.2
        rw [wp_when]
        split
        · unfold peerCreateOut
          rw [wp_bind]
          refine wp_mono (peerCreateCommon_wp inv room fun n' same =>
            Option.some.inj same ▸ active) ?_
          rintro p d' ⟨inv, mem, nets⟩
          refine wp_mono (peerSend_wp inv.queues mem) ?_
          rintro _ _ ⟨q, rfl, ok⟩
          exact ⟨⟨⟨ok, inv.table, inv.logged⟩, inv.roster⟩, nets ▸ active⟩
        · exact ⟨inv, active⟩
      · exact inv

/-- Every event keeps the invariant. -/
theorem handle_wp {e : Event} (held : Held counted d) :
    (handle e).wp (contract counted) callers (fun _ => Held counted) d := by
  obtain ⟨r, w, inv⟩ := held
  cases e with
  | accept => exact wp_mono (netConnectionCb_wp inv) fun _ _ inv => ⟨r, w, inv⟩
  | reply n peers =>
      unfold handle
      rw [wp_bind, wp_get, wp_when]
      split
      · rename_i tracked
        have active := (inv.roster.tracked_active n tracked).resolve_right nofun
        exact wp_mono (parseReply_wp inv active) fun _ _ inv => ⟨r, w, inv⟩
      · exact ⟨r, w, inv⟩
  | read p o =>
      unfold handle
      rw [wp_bind, wp_get, wp_when]
      split
      · rename_i ready
        exact netReadCb_wp inv ready.1 ready.2
      · exact ⟨r, w, inv⟩
  | write p o =>
      unfold handle
      rw [wp_bind, wp_get, wp_when]
      split
      · rename_i ready
        exact netWriteCb_wp inv ready.1 ready.2
      · exact ⟨r, w, inv⟩
  | choke i deeds =>
      unfold handle
      rw [wp_bind, wp_onRoster, ends_ok]
      have shuffled : Inv counted r w none
          { d with roster := d.roster.shuffleOptimists i } :=
        ⟨⟨inv.queues, inv.table, inv.logged⟩, inv.roster.shuffle i⟩
      refine wp_mono (doDeeds_wp shuffled.toParts) ?_
      rintro _ d' ⟨parts, same⟩
      exact ⟨r, w, parts, same ▸ shuffled.roster⟩
  | heartbeat s => exact heartbeat_wp inv
  | start ghost =>
      unfold handle
      rw [wp_bind]
      refine wp_mono (wp_forEach_keeps (Inv counted r w none) ?_ inv) fun _ d inv => ?_
      · intro n _ d inv
        rw [wp_bind, wp_get, wp_when]
        split
        · rename_i is
          exact torrentKill_wp inv (inactive_of_state inv (by rw [is.2]; nofun)
            (by rw [is.2]; nofun))
        · exact inv
      · rw [wp_onRoster, ends_ok]
        refine ⟨r, w, ⟨inv.queues, ?_, inv.logged⟩, inv.roster.torrentStart⟩
        refine inv.table.congr rfl rfl rfl (fun _ => .inl rfl) (fun n mem => ?_)
          (Nat.le_succ _) fun counting n off _ => ?_
        · exact (List.mem_append.mp mem).imp_right fun new =>
            Nat.le_of_eq (List.mem_singleton.mp new).symm
        · refine (inv.table.counts counting).quiet n ?_ nofun
          have off : ((d.roster.setNet d.roster.nextNet _).net n).active = false := off
          rw [Roster.setNet_net] at off
          split at off
          · rename_i here
            refine Bool.eq_false_iff.mpr fun active => ?_
            have old := inv.roster.torrents_lt n (inv.roster.active_mem n active)
            exact Nat.lt_irrefl _ (here ▸ old)
          · exact off
  | stop n cmActive trActive choke =>
      unfold handle
      rw [wp_bind, wp_get, wp_when]
      split
      · exact wp_mono (torrentStop_wp inv) fun _ _ inv => ⟨r, w, inv⟩
      · exact ⟨r, w, inv⟩
  | rate up down =>
      unfold handle
      rw [wp_modify]
      exact ⟨r, w, ⟨inv.queues, inv.table, inv.logged⟩, inv.roster⟩

/-- The daemon starts without connections and torrents. -/
theorem held_create {netMaxPeers bwLimitIn bwLimitOut : Nat} {peerId : List UInt8} :
    Held counted (Daemon.create netMaxPeers bwLimitIn bwLimitOut peerId) := by
  have none : ∀ {α : Type} {a : α} {P : Prop}, a ∈ ([] : List α) → P := fun mem =>
    absurd mem List.not_mem_nil
  refine ⟨0, 0, ⟨?_, ?_, fun _ _ mem => none mem⟩, ?_⟩
  · exact
      { sock := fun _ mem => none mem
        mem_readq := fun _ => ⟨none, fun both => none both.1⟩
        mem_writeq := fun _ => ⟨none, fun both => none both.1⟩
        readq_nodup := .nil
        writeq_nodup := .nil
        readq_le := Nat.le_refl _
        writeq_le := Nat.le_refl _ }
  · exact
      { alive := fun _ mem => none mem
        in_table := fun _ _ mem => none mem
        mps_nodup := .nil
        mps_lt := fun _ mem => none mem
        mptbl_lt := fun _ _ mem => none mem
        counts := fun _ =>
          { dead := fun _ mem => none mem
            mem_mptbl := fun _ _ mem => none mem
            mptbl_mem := fun _ _ mem => none mem
            mptbl_nodup := fun _ => .nil
            id_inj := fun _ _ mem => none mem
            id_own := fun _ _ mem => none mem
            record := fun _ _ mem => none mem
            pending_mem := fun _ mem => none mem
            refs := fun _ mem => none mem
            some := fun _ mem => none mem
            small := fun _ mem => none mem
            banned_attached := fun _ mem => none mem
            quiet := fun _ _ _ => rfl
            banned_mark := fun _ _ mem => none mem
            no_return := .nil } }
  · exact
      { live_nodup := .nil
        live_lt := fun _ mem => none mem
        unattached_nodup := .nil
        mem_unattached := fun _ => ⟨none, fun both => none both.1⟩
        peers_nodup := fun _ => .nil
        mem_peers := fun _ _ => ⟨none, fun both => none both.1⟩
        npeers := fun _ => rfl
        mPeerq_nodup := .nil
        mem_mPeerq := fun _ => ⟨none, fun both => none both.1⟩
        mNpeers := rfl
        netNpeers := rfl
        netMaxPeers := Nat.zero_le _
        belongs := fun _ mem => none mem
        attached_n := fun _ mem => none mem
        stage_attached := fun _ mem => none mem
        stage_n := fun _ mem => none mem
        active_mem := fun _ active => nomatch active
        tracked_active := fun _ tracked => nomatch tracked
        running := fun _ active => nomatch active
        torrents_nodup := .nil
        torrents_lt := fun _ mem => none mem }

/-- In every state of a run in which no call voids the contract, the queues, the
lists and the table are right. -/
theorem held_of_reachable (reached : system.Reachable (contract counted).bad d) :
    Held counted d := by
  refine reached.invariant _ (contract counted).allowed ?_ fun _ _ _ held => handle_wp held
  rintro _ ⟨_, _, _, _, rfl⟩
  exact held_create

/-- No event faults, except by the use of a torrent after it has been freed. -/
theorem fault_of_reachable {e : Event} {fault : Fault}
    (reached : system.Reachable (contract counted).bad d)
    (faults : system.Faults (contract counted).bad d e fault) :
    (contract counted).allowed fault := by
  refine reached.fault_allowed ?_ (fun _ _ _ held => handle_wp held) faults
  rintro _ ⟨_, _, _, _, rfl⟩
  exact held_create

end Btpd.Swarm
