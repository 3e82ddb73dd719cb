import Btpd.Swarm.State
import Mathlib

/-!
# Output queues, event masks and the queues of the limiter

The parts of `peer_send`, `peer_unsend`, `net_write`, the callbacks and `peer_kill`
that change the output queue of a connection, its event mask, `net_bw_readq` and
`net_bw_writeq`, and the invariant that all of them keep.
-/

namespace Btpd.Swarm

open Prog

namespace Queues

variable (q : Queues) (p : Nat)

/-- Replace the socket of a connection. -/
def setSock (s : Sock) : Queues := { q with sock := Function.update q.sock p s }

/-- `btpd_ev_new` in `peer_create_common`. -/
def open_ : Queues := q.setSock p ⟨[], 0, true, false, false, false⟩

/-- `peer_send` for a buffer of so many bytes. -/
def peerSend (len : Nat) : Except Fault Queues :=
  let s := q.sock p
  if s.outq = [] then
    if s.outqOff = 0 then .ok (q.setSock p { s with outq := [len], evWrite := true })
    else .error .outqOff
  else .ok (q.setSock p { s with outq := s.outq ++ [len] })

/-- `peer_unsend` for the link with the number `i`. -/
def peerUnsend (i : Nat) : Except Fault Queues :=
  let s := q.sock p
  if i = 0 ∧ 0 < s.outqOff then .ok q
  else
    let s := { s with outq := s.outq.eraseIdx i }
    if s.outq = [] then
      if s.onWriteq then do
        let writeq ← remove p q.writeq
        .ok { q.setSock p { s with onWriteq := false } with writeq := writeq }
      else .ok (q.setSock p { s with evWrite := false })
    else .ok (q.setSock p s)

/-- The loop of `net_write` over the links: what is left of the queue, and
`p->outq_off`. -/
def written : (outq : List Nat) → (outqOff bcount : Nat) → List Nat × Nat
  | [], _, _ => ([], 0)
  | len :: outq, outqOff, bcount =>
      if bcount = 0 then (len :: outq, outqOff)
      else if bcount ≥ len - outqOff then written outq 0 (bcount - (len - outqOff))
      else (len :: outq, outqOff + bcount)

/-- The end of `net_write`, after `nwritten` bytes have been written. -/
def afterWrite (nwritten : Nat) : Queues :=
  let s := q.sock p
  let (outq, outqOff) := written s.outq s.outqOff nwritten
  let s := { s with outq := outq, outqOff := outqOff }
  q.setSock p (if s.outq = [] then { s with evWrite := false } else s)

/-- The bytes in the queue that have not been written. -/
def unwritten : Nat := (q.sock p).outq.sum - (q.sock p).outqOff

/-- `net_read_cb` without budget. -/
def waitRead : Queues :=
  { q.setSock p { q.sock p with evRead := false, onReadq := true } with
    readq := q.readq ++ [p] }

/-- `net_write_cb` without budget. -/
def waitWrite : Queues :=
  { q.setSock p { q.sock p with evWrite := false, onWriteq := true } with
    writeq := q.writeq ++ [p] }

/-- `net_bw_tick` takes a connection off `net_bw_readq`. -/
def wakeRead : Except Fault Queues := do
  let readq ← remove p q.readq
  .ok { q.setSock p { q.sock p with evRead := true, onReadq := false } with readq := readq }

/-- `net_bw_tick` takes a connection off `net_bw_writeq`. -/
def wakeWrite : Except Fault Queues := do
  let writeq ← remove p q.writeq
  .ok { q.setSock p { q.sock p with evWrite := true, onWriteq := false } with writeq := writeq }

/-- `peer_kill` takes a connection off a queue that it is marked for. -/
def removeIf (on : Bool) (l : List Nat) : Except Fault (List Nat) :=
  if on then remove p l else .ok l

/-- `peer_kill` takes a connection off both queues. -/
def drop : Except Fault Queues := do
  let readq ← removeIf p (q.sock p).onReadq q.readq
  let writeq ← removeIf p (q.sock p).onWriteq q.writeq
  .ok { q with readq := readq, writeq := writeq }

end Queues

/-! ## The invariant -/

/-- The mask of a socket is right, and nothing is begun when nothing is queued. -/
structure Sock.Ok (s : Sock) : Prop where
  evRead : s.evRead = true ↔ s.onReadq = false
  evWrite : s.evWrite = true ↔ s.outq ≠ [] ∧ s.onWriteq = false
  waits : s.onWriteq = true → s.outq ≠ []
  outqOff : s.outq = [] → s.outqOff = 0

/-- The queues of the limiter, which have at most `r` and `w` elements, are those of
the live connections that are marked for it. -/
structure Queues.Ok (r w : Nat) (live : List Nat) (q : Queues) : Prop where
  sock : ∀ p ∈ live, (q.sock p).Ok
  mem_readq : ∀ p, p ∈ q.readq ↔ p ∈ live ∧ (q.sock p).onReadq = true
  mem_writeq : ∀ p, p ∈ q.writeq ↔ p ∈ live ∧ (q.sock p).onWriteq = true
  readq_nodup : q.readq.Nodup
  writeq_nodup : q.writeq.Nodup
  readq_le : q.readq.length ≤ r
  writeq_le : q.writeq.length ≤ w

namespace Queues

variable {q q' : Queues} {p r w : Nat} {live : List Nat}

@[simp]
theorem setSock_sock {s : Sock} (p' : Nat) :
    (q.setSock p s).sock p' = if p' = p then s else q.sock p' := by
  simp [setSock, Function.update_apply]

@[simp] theorem setSock_readq {s : Sock} : (q.setSock p s).readq = q.readq := rfl
@[simp] theorem setSock_writeq {s : Sock} : (q.setSock p s).writeq = q.writeq := rfl

theorem ends_remove {l : List Nat} {allowed : Fault → Prop} {post : List Nat → Prop}
    (mem : p ∈ l) : Ends allowed (remove p l) post ↔ post (l.erase p) := by
  rw [remove, if_pos mem]
  exact ends_ok

namespace Ok

variable (ok : q.Ok r w live)

include ok

/-- A socket that stays on its queues. -/
theorem setSock {s : Sock} (sock : s.Ok) (onReadq : s.onReadq = (q.sock p).onReadq)
    (onWriteq : s.onWriteq = (q.sock p).onWriteq) : (q.setSock p s).Ok r w live where
  sock p' mem := by
    rw [setSock_sock]
    split
    · exact sock
    · exact ok.sock p' mem
  mem_readq p' := by
    rw [setSock_readq, setSock_sock, ok.mem_readq p']
    split
    · rename_i same
      rw [onReadq, same]
    · rfl
  mem_writeq p' := by
    rw [setSock_writeq, setSock_sock, ok.mem_writeq p']
    split
    · rename_i same
      rw [onWriteq, same]
    · rfl
  readq_nodup := ok.readq_nodup
  writeq_nodup := ok.writeq_nodup
  readq_le := ok.readq_le
  writeq_le := ok.writeq_le

/-- A socket that leaves `net_bw_readq`. -/
theorem leaveReadq {s : Sock} (sock : s.Ok) (onReadq : s.onReadq = false)
    (onWriteq : s.onWriteq = (q.sock p).onWriteq) :
    Ok r w live { q.setSock p s with readq := q.readq.erase p } where
  sock p' mem := by
    show ((q.setSock p s).sock p').Ok
    rw [setSock_sock]
    split
    · exact sock
    · exact ok.sock p' mem
  mem_readq p' := by
    show p' ∈ q.readq.erase p ↔ p' ∈ live ∧ ((q.setSock p s).sock p').onReadq = true
    rw [ok.readq_nodup.mem_erase_iff, setSock_sock, ok.mem_readq p']
    split
    · rename_i same
      simp [same, onReadq]
    · rename_i other
      simp [other]
  mem_writeq p' := by
    show p' ∈ q.writeq ↔ p' ∈ live ∧ ((q.setSock p s).sock p').onWriteq = true
    rw [setSock_sock, ok.mem_writeq p']
    split
    · rename_i same
      rw [onWriteq, same]
    · rfl
  readq_nodup := ok.readq_nodup.erase p
  writeq_nodup := ok.writeq_nodup
  readq_le := Nat.le_trans List.length_erase_le ok.readq_le
  writeq_le := ok.writeq_le

/-- A socket that leaves `net_bw_writeq`. -/
theorem leaveWriteq {s : Sock} (sock : s.Ok) (onWriteq : s.onWriteq = false)
    (onReadq : s.onReadq = (q.sock p).onReadq) :
    Ok r w live { q.setSock p s with writeq := q.writeq.erase p } where
  sock p' mem := by
    show ((q.setSock p s).sock p').Ok
    rw [setSock_sock]
    split
    · exact sock
    · exact ok.sock p' mem
  mem_writeq p' := by
    show p' ∈ q.writeq.erase p ↔ p' ∈ live ∧ ((q.setSock p s).sock p').onWriteq = true
    rw [ok.writeq_nodup.mem_erase_iff, setSock_sock, ok.mem_writeq p']
    split
    · rename_i same
      simp [same, onWriteq]
    · rename_i other
      simp [other]
  mem_readq p' := by
    show p' ∈ q.readq ↔ p' ∈ live ∧ ((q.setSock p s).sock p').onReadq = true
    rw [setSock_sock, ok.mem_readq p']
    split
    · rename_i same
      rw [onReadq, same]
    · rfl
  readq_nodup := ok.readq_nodup
  writeq_nodup := ok.writeq_nodup.erase p
  readq_le := ok.readq_le
  writeq_le := Nat.le_trans List.length_erase_le ok.writeq_le

theorem not_mem (dead : p ∉ live) : p ∉ q.readq ∧ p ∉ q.writeq :=
  ⟨fun mem => dead ((ok.mem_readq p).mp mem).1, fun mem => dead ((ok.mem_writeq p).mp mem).1⟩

/-- A new connection. -/
theorem open_ (dead : p ∉ live) : (q.open_ p).Ok r w (p :: live) where
  sock p' mem := by
    unfold Queues.open_
    rw [setSock_sock]
    split
    · exact ⟨by decide, by decide, by decide, fun _ => rfl⟩
    · rename_i other
      exact ok.sock p' ((List.mem_cons.mp mem).resolve_left other)
  mem_readq p' := by
    unfold Queues.open_
    rw [setSock_readq, setSock_sock, List.mem_cons]
    split
    · rename_i same
      exact ⟨fun mem => absurd (same ▸ mem) (ok.not_mem dead).1, fun both => nomatch both.2⟩
    · rename_i other
      rw [ok.mem_readq p', or_iff_right other]
  mem_writeq p' := by
    unfold Queues.open_
    rw [setSock_writeq, setSock_sock, List.mem_cons]
    split
    · rename_i same
      exact ⟨fun mem => absurd (same ▸ mem) (ok.not_mem dead).2, fun both => nomatch both.2⟩
    · rename_i other
      rw [ok.mem_writeq p', or_iff_right other]
  readq_nodup := ok.readq_nodup
  writeq_nodup := ok.writeq_nodup
  readq_le := ok.readq_le
  writeq_le := ok.writeq_le

theorem peerSend (mem : p ∈ live) {len : Nat} {allowed : Fault → Prop} :
    Ends allowed (q.peerSend p len) (·.Ok r w live) := by
  have sock := ok.sock p mem
  unfold Queues.peerSend
  dsimp only
  split
  · rename_i empty
    rw [if_pos (sock.outqOff empty), ends_ok]
    have awake : (q.sock p).onWriteq = false :=
      Bool.eq_false_iff.mpr fun waiting => sock.waits waiting empty
    exact ok.setSock ⟨sock.evRead, ⟨fun _ => ⟨List.cons_ne_nil _ _, awake⟩, fun _ => rfl⟩,
      fun _ => List.cons_ne_nil _ _, fun none => absurd none (List.cons_ne_nil _ _)⟩ rfl rfl
  · rename_i some
    have more : (q.sock p).outq ++ [len] ≠ [] := List.append_ne_nil_of_left_ne_nil some _
    rw [ends_ok]
    refine ok.setSock ⟨sock.evRead, ?_, fun _ => more, fun none => absurd none more⟩ rfl rfl
    rw [sock.evWrite]
    exact and_congr_left fun _ => iff_of_true some more

theorem peerUnsend (mem : p ∈ live) {i : Nat} {allowed : Fault → Prop} :
    Ends allowed (q.peerUnsend p i) (·.Ok r w live) := by
  have sock := ok.sock p mem
  unfold Queues.peerUnsend
  dsimp only
  split
  · exact ends_ok.mpr ok
  rename_i free
  have some_of : (q.sock p).outq.eraseIdx i ≠ [] → (q.sock p).outq ≠ [] := fun some none =>
    some (by rw [none]; rfl)
  have notBegun : (q.sock p).outq.eraseIdx i = [] → (q.sock p).outqOff = 0 := by
    intro empty
    cases outq : (q.sock p).outq with
    | nil => exact sock.outqOff outq
    | cons len rest =>
        rw [outq] at empty
        cases i with
        | zero => exact Nat.eq_zero_of_not_pos fun begun => free ⟨rfl, begun⟩
        | succ i => cases empty
  split
  · rename_i empty
    split
    · rename_i waiting
      rw [ends_bind, ends_remove ((ok.mem_writeq p).mpr ⟨mem, waiting⟩), ends_ok]
      refine ok.leaveWriteq ⟨sock.evRead, ?_, fun more => (nomatch more), notBegun⟩ rfl rfl
      refine iff_of_false (fun enabled => ?_) fun both => both.1 empty
      rw [(sock.evWrite.mp enabled).2] at waiting
      cases waiting
    · rename_i awake
      rw [ends_ok]
      exact ok.setSock ⟨sock.evRead,
        iff_of_false (fun enabled => (nomatch enabled)) fun both => both.1 empty,
        fun waiting => absurd waiting awake, notBegun⟩ rfl rfl
  · rename_i some
    rw [ends_ok]
    refine ok.setSock ⟨sock.evRead, ?_, fun _ => some, fun none => absurd none some⟩ rfl rfl
    rw [sock.evWrite]
    exact and_congr_left fun _ => iff_of_true (some_of some) some

omit ok in
theorem written_off {outq : List Nat} {outqOff bcount : Nat}
    (empty : (written outq outqOff bcount).1 = []) :
    (written outq outqOff bcount).2 = 0 := by
  induction outq generalizing outqOff bcount with
  | nil => rfl
  | cons len outq ih =>
      unfold written at empty ⊢
      split
      · rename_i done
        rw [if_pos done] at empty
        cases empty
      rename_i more
      rw [if_neg more] at empty
      split
      · rename_i whole
        rw [if_pos whole] at empty
        exact ih empty
      · rename_i part
        rw [if_neg part] at empty
        cases empty

theorem afterWrite (mem : p ∈ live) (enabled : (q.sock p).evWrite = true) {nwritten : Nat} :
    (q.afterWrite p nwritten).Ok r w live := by
  have sock := ok.sock p mem
  obtain ⟨_, awake⟩ := sock.evWrite.mp enabled
  have notWaiting : (q.sock p).onWriteq ≠ true := Bool.eq_false_iff.mp awake
  unfold Queues.afterWrite
  dsimp only
  split
  · rename_i empty
    exact ok.setSock ⟨sock.evRead,
      iff_of_false (fun enabled => (nomatch enabled)) fun both => both.1 empty,
      fun waiting => absurd waiting notWaiting, written_off⟩ rfl rfl
  · rename_i some
    exact ok.setSock ⟨sock.evRead, iff_of_true enabled ⟨some, awake⟩,
      fun waiting => absurd waiting notWaiting, written_off⟩ rfl rfl

theorem waitRead (mem : p ∈ live) (enabled : (q.sock p).evRead = true) :
    (q.waitRead p).Ok (r + 1) w live where
  sock p' mem' := by
    have sock := ok.sock p mem
    show ((q.setSock p _).sock p').Ok
    rw [setSock_sock]
    split
    · exact ⟨iff_of_false (fun enabled => (nomatch enabled)) fun awake => (nomatch awake),
        sock.evWrite, sock.waits, sock.outqOff⟩
    · exact ok.sock p' mem'
  mem_readq p' := by
    show p' ∈ q.readq ++ [p] ↔ p' ∈ live ∧ ((q.setSock p _).sock p').onReadq = true
    rw [List.mem_append, List.mem_singleton, setSock_sock, ok.mem_readq p']
    split
    · rename_i same
      exact iff_of_true (.inr same) ⟨same ▸ mem, rfl⟩
    · rename_i other
      rw [or_iff_left other]
  mem_writeq p' := by
    show p' ∈ q.writeq ↔ p' ∈ live ∧ ((q.setSock p _).sock p').onWriteq = true
    rw [setSock_sock, ok.mem_writeq p']
    split
    · rename_i same
      rw [same]
    · rfl
  readq_nodup := by
    refine ok.readq_nodup.append (List.nodup_singleton p) ?_
    rw [List.disjoint_singleton, ok.mem_readq p, (ok.sock p mem).evRead.mp enabled]
    exact fun both => nomatch both.2
  writeq_nodup := ok.writeq_nodup
  readq_le := by
    show (q.readq ++ [p]).length ≤ r + 1
    rw [List.length_append]
    exact Nat.succ_le_succ ok.readq_le
  writeq_le := ok.writeq_le

theorem waitWrite (mem : p ∈ live) (enabled : (q.sock p).evWrite = true) :
    (q.waitWrite p).Ok r (w + 1) live where
  sock p' mem' := by
    have sock := ok.sock p mem
    show ((q.setSock p _).sock p').Ok
    rw [setSock_sock]
    split
    · exact ⟨sock.evRead,
        iff_of_false (fun enabled => (nomatch enabled)) fun both => (nomatch both.2),
        fun _ => (sock.evWrite.mp enabled).1, sock.outqOff⟩
    · exact ok.sock p' mem'
  mem_readq p' := by
    show p' ∈ q.readq ↔ p' ∈ live ∧ ((q.setSock p _).sock p').onReadq = true
    rw [setSock_sock, ok.mem_readq p']
    split
    · rename_i same
      rw [same]
    · rfl
  mem_writeq p' := by
    show p' ∈ q.writeq ++ [p] ↔ p' ∈ live ∧ ((q.setSock p _).sock p').onWriteq = true
    rw [List.mem_append, List.mem_singleton, setSock_sock, ok.mem_writeq p']
    split
    · rename_i same
      exact iff_of_true (.inr same) ⟨same ▸ mem, rfl⟩
    · rename_i other
      rw [or_iff_left other]
  readq_nodup := ok.readq_nodup
  writeq_nodup := by
    refine ok.writeq_nodup.append (List.nodup_singleton p) ?_
    rw [List.disjoint_singleton, ok.mem_writeq p, ((ok.sock p mem).evWrite.mp enabled).2]
    exact fun both => nomatch both.2
  readq_le := ok.readq_le
  writeq_le := by
    show (q.writeq ++ [p]).length ≤ w + 1
    rw [List.length_append]
    exact Nat.succ_le_succ ok.writeq_le

theorem wakeRead {p : Nat} {rest : List Nat} (first : q.readq = p :: rest)
    {allowed : Fault → Prop} :
    Ends allowed (q.wakeRead p) fun q' => q'.Ok rest.length w live := by
  have mem : p ∈ q.readq := first ▸ List.mem_cons_self
  obtain ⟨alive, _⟩ := (ok.mem_readq p).mp mem
  have sock := ok.sock p alive
  unfold Queues.wakeRead
  rw [ends_bind, ends_remove mem, ends_ok]
  have left := ok.leaveReadq (p := p) (s := { q.sock p with evRead := true, onReadq := false })
    ⟨iff_of_true rfl rfl, sock.evWrite, sock.waits, sock.outqOff⟩ rfl rfl
  refine { left with readq_le := ?_ }
  show (q.readq.erase p).length ≤ rest.length
  exact Nat.le_of_eq (by rw [first, List.erase_cons_head])

theorem wakeWrite {p : Nat} {rest : List Nat} (first : q.writeq = p :: rest)
    {allowed : Fault → Prop} :
    Ends allowed (q.wakeWrite p) fun q' =>
      q'.Ok r rest.length live ∧ (q'.sock p).evWrite = true := by
  have mem : p ∈ q.writeq := first ▸ List.mem_cons_self
  obtain ⟨alive, waiting⟩ := (ok.mem_writeq p).mp mem
  have sock := ok.sock p alive
  unfold Queues.wakeWrite
  rw [ends_bind, ends_remove mem, ends_ok]
  have left := ok.leaveWriteq (p := p) (s := { q.sock p with evWrite := true, onWriteq := false })
    ⟨sock.evRead, iff_of_true rfl ⟨sock.waits waiting, rfl⟩, fun waiting => (nomatch waiting),
      sock.outqOff⟩ rfl rfl
  refine ⟨{ left with writeq_le := ?_ }, ?_⟩
  · show (q.writeq.erase p).length ≤ rest.length
    exact Nat.le_of_eq (by rw [first, List.erase_cons_head])
  · show ((q.setSock p _).sock p).evWrite = true
    rw [setSock_sock, if_pos rfl]

/-- A connection that is killed is on no queue. -/
theorem drop (mem : p ∈ live) (nodup : live.Nodup) {allowed : Fault → Prop} :
    Ends allowed (q.drop p) (·.Ok r w (live.erase p)) := by
  have off : ∀ {l : List Nat} {on : Bool}, (p ∈ l ↔ p ∈ live ∧ on = true) →
      ∀ {post : List Nat → Prop}, post (l.erase p) →
      Ends allowed (removeIf p on l) post := by
    intro l on mem_iff post erased
    unfold removeIf
    split
    · rename_i marked
      exact (ends_remove (mem_iff.mpr ⟨mem, marked⟩)).mpr erased
    · rename_i unmarked
      rw [ends_ok]
      rwa [List.erase_of_not_mem fun mem => unmarked (mem_iff.mp mem).2] at erased
  unfold Queues.drop
  rw [ends_bind]
  refine off (ok.mem_readq p) ?_
  rw [ends_bind]
  refine off (ok.mem_writeq p) ?_
  rw [ends_ok]
  exact
    { sock := fun p' mem' => ok.sock p' (List.mem_of_mem_erase mem')
      mem_readq := fun p' => by
        show p' ∈ q.readq.erase p ↔ _
        rw [ok.readq_nodup.mem_erase_iff, nodup.mem_erase_iff, ok.mem_readq p', and_assoc]
      mem_writeq := fun p' => by
        show p' ∈ q.writeq.erase p ↔ _
        rw [ok.writeq_nodup.mem_erase_iff, nodup.mem_erase_iff, ok.mem_writeq p', and_assoc]
      readq_nodup := ok.readq_nodup.erase p
      writeq_nodup := ok.writeq_nodup.erase p
      readq_le := Nat.le_trans List.length_erase_le ok.readq_le
      writeq_le := Nat.le_trans List.length_erase_le ok.writeq_le }

end Ok

end Queues

end Btpd.Swarm
