import Btpd.Download.Core

/-!
# Invariants that the assignment of requests does not touch

Many invariants of the download speak of peers one by one, of which pieces they
have and what they were told, and not of how requests are assigned.  For such an
invariant it is enough that the routines of a single peer keep it; that every
routine and every event keeps it then follows once and for all.

`AssignKept` asks for what the assignment of requests does to peers, and
`RoutineKept` for what the other routines of the download do.
-/

namespace Btpd.Download

open Prog

/-- The part of the state that is not about pieces in progress. -/
def Net.outer (n : Net) :=
  (n.peer, n.peers, n.pieceCount, n.cm.pieceField, n.cm.npiecesGot, n.nextPeer, n.seed,
    n.uploaded)

/-- Every piece in progress is a piece of the torrent. -/
def Net.Inside (t : Torrent) (n : Net) : Prop := ∀ index ∈ n.getlst, index < t.npieces

theorem Net.peer_of_outer {n n' : Net} (same : n'.outer = n.outer) : n'.peer = n.peer :=
  congrArg (fun outer => outer.1) same

theorem Net.peers_of_outer {n n' : Net} (same : n'.outer = n.outer) : n'.peers = n.peers :=
  congrArg (fun outer => outer.2.1) same

theorem Net.cm_of_outer {n n' : Net} (same : n'.outer = n.outer) :
    n'.cm.pieceField = n.cm.pieceField :=
  congrArg (fun outer => outer.2.2.2.1) same

/-- Only pieces in progress have changed, and they are pieces of the torrent if
they were. -/
structure Net.Framed (t : Torrent) (n n' : Net) : Prop where
  outer : n'.outer = n.outer
  inside : n.Inside t → n'.Inside t

theorem Net.Framed.trans {t : Torrent} {n n' n'' : Net} (first : Net.Framed t n n')
    (second : Net.Framed t n' n'') : Net.Framed t n n'' :=
  ⟨second.outer.trans first.outer, fun inside => second.inside (first.inside inside)⟩

theorem Net.Framed.rfl {t : Torrent} {n : Net} : Net.Framed t n n := ⟨Eq.refl _, id⟩

/-- Pieces that stay on the list or leave it. -/
theorem Net.Framed.of_subset {t : Torrent} {n n' : Net} (outer : n'.outer = n.outer)
    (subset : ∀ index ∈ n'.getlst, index ∈ n.getlst) : Net.Framed t n n' :=
  ⟨outer, fun inside index mem => inside index (subset index mem)⟩

/-- The faults that do not come from a routine of a single peer. -/
def controlFaults : List Fault :=
  [.noReqsOut, .bitfieldTwice, .endgameWanted, .tickWanted, .annNoPiece, .assignEndgame,
    .assignLeech, .rarestEndgame, .unfullEndgame, .unfullFull, .assignFull, .laden,
    .unassignDown, .unassignLeft, .unassignEgLeft, .okPieceReqs, .putBlock, .putPiece, .putZero,
    .testFull, .busyField, .allocFull, .nullDeref, .outOfBounds, .divideByZero, .diverge,
    .unlinked, .dangling]

/-- We want the peer or have requests out to it. -/
def Peer.Engaged (peer : Peer) : Prop := peer.iWant = true ∨ 0 < peer.nreqsOut

theorem Peer.Engaged.of_leechOk {peer : Peer} (ok : peer.leechOk) : peer.Engaged := by
  left
  have flags := ok.1
  simp only [Bool.and_eq_true] at flags
  exact flags.1.1.1

variable {t : Torrent} {k : Contract Net Fn Fault} {inv : Net → Prop} {n : Net}
  {callers : List Fn} {p index : Nat}

/-! ## Routines that only see pieces in progress -/

/-- The routine changes nothing but pieces in progress. -/
def Quiet {α : Type} (t : Torrent) (k : Contract Net Fn Fault) (m : Routine α) : Prop :=
  ∀ callers n, m.wp k callers (fun _ n' => Net.Framed t n n') n

theorem Quiet.seq {α β : Type} {m : Routine α} {f : α → Routine β} (first : Quiet t k m)
    (second : ∀ a, Quiet t k (f a)) : Quiet t k (m >>= f) := fun callers n =>
  wp_seq (first callers n) fun a n' framed =>
    wp_mono (second a callers n') fun _ _ framed' => framed.trans framed'

theorem Quiet.get {α : Type} {f : Net → Routine α}
    (body : ∀ callers n, (f n).wp k callers (fun _ n' => Net.Framed t n n') n) :
    Quiet t k (Prog.get >>= f) := fun callers n =>
  wp_bind.mpr (wp_get.mpr (body callers n))

theorem Quiet.modify {f : Net → Net} (framed : ∀ n, Net.Framed t n (f n)) :
    Quiet t k (Prog.modify f) := fun _ n => wp_modify.mpr (framed n)

theorem Quiet.assert {c : Prop} [Decidable c] {e : Fault} (open_ : k.allowed e) :
    Quiet t k (Prog.assert c e : Routine Unit) := by
  intro callers n
  rw [wp_assert]
  split
  · exact .rfl
  · exact open_

theorem Quiet.when {c : Prop} [Decidable c] {m : Routine Unit} (quiet : Quiet t k m) :
    Quiet t k (Prog.when c m) := by
  intro callers n
  rw [wp_when]
  split
  · exact quiet callers n
  · exact .rfl

theorem Quiet.forEach {β : Type} {f : β → Routine Unit} {xs : List β}
    (each : ∀ x ∈ xs, Quiet t k (f x)) : Quiet t k (Prog.forEach xs f) := by
  intro callers n
  have turn : ∀ x ∈ xs, ∀ n', Net.Framed t n n' →
      (f x).wp k callers (fun _ n'' => Net.Framed t n n'') n' := fun x mem n' framed =>
    wp_mono (each x mem callers n') fun _ _ framed' => framed.trans framed'
  exact wp_forEach_keeps _ turn .rfl

theorem Quiet.onPiece {f : Piece → Except Fault Piece}
    (faults : ∀ pc, Ends k.allowed (f pc) fun _ => True) : Quiet t k (onPiece index f) := by
  intro callers n
  rw [wp_onPiece]
  exact ends_mono (faults _) fun _ _ => ⟨rfl, id⟩

theorem quiet_onPiece_ok (f : Piece → Piece) :
    Quiet t k (onPiece index fun pc => .ok (f pc)) :=
  .onPiece fun _ => trivial

theorem mem_insertEg {getlst : List Nat} {i : Nat} (mem : i ∈ n.insertEg index getlst) :
    i = index ∨ i ∈ getlst := by
  unfold Net.insertEg at mem
  dsimp only at mem
  split at mem
  · simpa [or_comm] using mem
  · rcases List.mem_append.mp mem with before | rest
    · exact .inr ((List.takeWhile_prefix _).subset before)
    rcases List.mem_cons.mp rest with here | after
    · exact .inl here
    · exact .inr ((List.dropWhile_suffix _).subset after)

theorem quiet_dlPieceInsertEg (inside : index < t.npieces) :
    Quiet t k (dlPieceInsertEg index) :=
  .modify fun _ => ⟨rfl, fun others _ mem =>
    (mem_insertEg mem).elim (fun here => here ▸ inside) (others _)⟩

theorem quiet_dlPieceReorderEg (inside : index < t.npieces) :
    Quiet t k (dlPieceReorderEg index) :=
  .seq (.modify fun _ => .of_subset rfl fun _ => List.mem_of_mem_erase) fun _ =>
    quiet_dlPieceInsertEg inside

theorem quiet_dlReinsertEg {tmp : List Nat} (inside : ∀ i ∈ tmp, i < t.npieces) :
    Quiet t k (dlReinsertEg tmp) :=
  .seq (.modify fun _ => .of_subset rfl fun _ => List.mem_of_mem_filter) fun _ =>
    .forEach fun i mem => quiet_dlPieceInsertEg (inside i mem)

/-- The rarest piece so far is a piece of the torrent. -/
theorem rarest_inside {pieces : List Nat} {best : Option (Nat × Nat)}
    (inside : ∀ i ∈ pieces, i < t.npieces)
    (before : ∀ i c, best = some (i, c) → i < t.npieces) :
    ∀ i c, pieces.foldl (n.rarer p) best = some (i, c) → i < t.npieces := by
  induction pieces generalizing best with
  | nil => exact before
  | cons piece pieces ih =>
      have here := inside piece List.mem_cons_self
      refine ih (fun i mem => inside i (List.mem_cons_of_mem _ mem)) fun i c found => ?_
      unfold Net.rarer at found
      split at found
      · split at found
        · cases found
          exact here
        · split at found
          · cases found
            exact before _ _ rfl
          split at found
          · cases found
            exact here
          · cases found
            exact before _ _ rfl
      · exact before i c found

section Quiet

variable (control : ∀ e ∈ controlFaults, k.allowed e)

include control

theorem quiet_unlinkPiece {req : BlockRequest} : Quiet t k (onPiece index (·.unlink req)) := by
  refine .onPiece fun pc => ?_
  unfold Piece.unlink
  split
  · trivial
  · exact control _ (by decide)

/-- A piece that is found is on the list. -/
theorem dlFindPiece_wp :
    (dlFindPiece index).wp k callers (fun _ n' => n' = n ∧ index ∈ n.getlst) n := by
  unfold dlFindPiece
  rw [wp_bind, wp_get, wp_ite]
  split
  · rename_i mem
    exact wp_pure.mpr ⟨rfl, mem⟩
  · exact wp_fault.mpr (control _ (by decide))

theorem quiet_dlFindPiece : Quiet t k (dlFindPiece index) := fun _ _ =>
  wp_mono (dlFindPiece_wp control) fun _ _ found => found.1 ▸ .rfl

theorem quiet_pieceAlloc (inside : index < t.npieces) : Quiet t k (pieceAlloc t index) := by
  refine .get fun callers n => ?_
  simp only [wp_bind, wp_assert, wp_modify]
  split
  · split
    · refine ⟨rfl, fun others i mem => ?_⟩
      rcases List.mem_append.mp mem with before | here
      · exact others i before
      · exact List.mem_singleton.mp here ▸ inside
    · exact control _ (by decide)
  · exact control _ (by decide)

theorem quiet_pieceFree : Quiet t k (pieceFree index) := by
  refine .get fun callers n => ?_
  simp only [wp_bind, wp_assert, wp_modify]
  split
  · split
    · split
      · exact .of_subset rfl fun _ => List.mem_of_mem_erase
      · exact control _ (by decide)
    · exact control _ (by decide)
  · exact control _ (by decide)

theorem quiet_dlNewPiece (inside : index < t.npieces) : Quiet t k (dlNewPiece t index) := by
  refine .seq (.modify fun n => ?_) fun _ => quiet_pieceAlloc control inside
  split
  · exact ⟨rfl, id⟩
  · exact .rfl

/-- The piece that is chosen is a piece of the torrent. -/
theorem dlChooseRarest_wp :
    (dlChooseRarest t p).wp k callers
      (fun chosen n' => Net.Framed t n n' ∧ ∀ i, chosen = some i → i < t.npieces) n := by
  unfold dlChooseRarest randBetween
  rw [wp_bind, wp_get, wp_bind, wp_assert]
  split
  · split
    · exact wp_pure.mpr ⟨.rfl, by simp⟩
    · rename_i minI minC found
      rw [wp_ite]
      split
      · refine wp_pure.mpr ⟨.rfl, fun i chosen => ?_⟩
        cases chosen
        exact rarest_inside (fun _ => List.mem_range.mp) (by simp) _ _ found
      · simp only [wp_bind, wp_get, wp_modify, wp_pure]
        split
        · exact wp_fault.mpr (control _ (by decide))
        · rename_i piece drawn
          refine wp_pure.mpr ⟨⟨rfl, id⟩, fun i chosen => ?_⟩
          cases chosen
          have mem := List.mem_of_getElem? drawn
          have range := List.mem_range'_1.mp (List.mem_of_mem_filter mem)
          omega
  · exact control _ (by decide)

theorem quiet_skipBusy {haveField : Nat → Bool} :
    Quiet t k (onPiece index fun pc => pc.skipBusy haveField pc.nblocks) := by
  refine .onPiece fun pc => ?_
  generalize pc.nblocks = f
  induction f generalizing pc with
  | zero => exact control _ (by decide)
  | succ f ih =>
      unfold Piece.skipBusy
      split
      · exact ih _
      · trivial

end Quiet

/-- The invariant is kept by what the assignment of requests does to peers. -/
structure AssignKept (t : Torrent) (k : Contract Net Fn Fault) (inv : Net → Prop) : Prop where
  control : ∀ e ∈ controlFaults, k.allowed e
  inside : ∀ {n}, inv n → n.Inside t
  frame : ∀ {n n' : Net}, inv n → Net.Framed t n n' → inv n'
  want : ∀ callers n p index, inv n → k.bad ⟨.peerWant p index, callers, n⟩ ∨
    Ends k.allowed ((n.peer p).want index) fun peer => inv (n.setPeer p peer)
  unwant : ∀ n p index, inv n →
    Ends k.allowed ((n.peer p).unwant index) fun peer => inv (n.setPeer p peer)
  request : ∀ n p req, inv n → (n.peer p).Engaged →
    Ends k.allowed ((n.peer p).request req) fun peer => inv (n.setPeer p peer)

namespace AssignKept

/-- An invariant that looks at no peer is kept along with another one. -/
theorem and {also : Net → Prop} (kept : AssignKept t k inv)
    (framed : ∀ {n n'}, also n → Net.Framed t n n' → also n')
    (setPeer : ∀ {n} p peer, also n → also (n.setPeer p peer)) :
    AssignKept t k fun n => inv n ∧ also n where
  control := kept.control
  inside held := kept.inside held.1
  frame held same := ⟨kept.frame held.1 same, framed held.2 same⟩
  want callers n p index held :=
    (kept.want callers n p index held.1).imp_right fun ended =>
      ends_mono ended fun _ held' => ⟨held', setPeer _ _ held.2⟩
  unwant n p index held :=
    ends_mono (kept.unwant n p index held.1) fun _ held' => ⟨held', setPeer _ _ held.2⟩
  request n p req held engaged :=
    ends_mono (kept.request n p req held.1 engaged) fun _ held' => ⟨held', setPeer _ _ held.2⟩

/-- The peer `q` keeps a request while requests are assigned. -/
theorem busy (kept : AssignKept t k inv) (q : Nat) :
    AssignKept t k fun n => inv n ∧ 0 < (n.peer q).nreqsOut where
  control := kept.control
  inside held := kept.inside held.1
  frame held framed :=
    ⟨kept.frame held.1 framed, by rw [Net.peer_of_outer framed.outer]; exact held.2⟩
  want callers n p index held := by
    refine (kept.want callers n p index held.1).imp_right fun ended => ?_
    refine ends_mono (ends_and_returns ended (.of_ends Peer.want_core)) ?_
    rintro peer ⟨held', coreEq⟩
    refine ⟨held', ?_⟩
    rw [Net.setPeer_peer]
    split
    · rename_i same
      have reqsEq := congrArg Peer.nreqsOut coreEq
      exact reqsEq ▸ same ▸ held.2
    · exact held.2
  unwant n p index held := by
    refine ends_mono (ends_and_returns (kept.unwant n p index held.1) (.of_ends Peer.unwant_core)) ?_
    rintro peer ⟨held', -, coreEq⟩
    refine ⟨held', ?_⟩
    rw [Net.setPeer_peer]
    split
    · rename_i same
      have reqsEq := congrArg Peer.nreqsOut coreEq
      exact reqsEq ▸ same ▸ held.2
    · exact held.2
  request n p req held engaged := by
    refine ends_mono (ends_and_returns (kept.request n p req held.1 engaged)
      (.of_ends Peer.request_core)) ?_
    rintro peer ⟨held', -, coreEq⟩
    refine ⟨held', ?_⟩
    rw [Net.setPeer_peer]
    split
    · have reqsEq : peer.nreqsOut = (n.peer p).nreqsOut + 1 := congrArg Peer.nreqsOut coreEq
      omega
    · exact held.2

variable (kept : AssignKept t k inv)

section

include kept

theorem keeps_quiet {α : Type} {m : Routine α} (quiet : Quiet t k m) : Keeps k inv m :=
  fun callers n held => wp_mono (quiet callers n) fun _ _ framed => kept.frame held framed

/-- A quiet routine leaves a peer engaged. -/
theorem quiet_wp {α : Type} {m : Routine α} (quiet : Quiet t k m) (held : inv n)
    (engaged : (n.peer p).Engaged) :
    m.wp k callers (fun _ n' => inv n' ∧ (n'.peer p).Engaged) n :=
  wp_mono (quiet callers n) fun _ _ framed =>
    ⟨kept.frame held framed, by rw [Net.peer_of_outer framed.outer]; exact engaged⟩

theorem keeps_assert {c : Prop} [Decidable c] {e : Fault} (control : e ∈ controlFaults) :
    Keeps k inv (assert c e : Routine Unit) :=
  Prog.keeps_assert (kept.control e control)

theorem keeps_peerWant : Keeps k inv (peerWant p index) := by
  intro callers n held
  refine wp_call.mpr ((kept.want callers n p index held).imp_right fun ended => ?_)
  rw [wp_onPeer]
  exact ended

theorem keeps_peerUnwant : Keeps k inv (peerUnwant p index) := by
  intro callers n held
  unfold peerUnwant
  rw [wp_onPeer]
  exact kept.unwant n p index held

/-- A request goes to a peer that is engaged, and that is engaged afterwards. -/
theorem dlNewRequest_wp {msg : Option ReqMsg} (held : inv n) (engaged : (n.peer p).Engaged) :
    (dlNewRequest t index p msg).wp k callers
      (fun _ n' => inv n' ∧ 0 < (n'.peer p).nreqsOut) n := by
  unfold dlNewRequest
  simp only [wp_bind, wp_get, wp_modify, wp_onPeer, wp_pure]
  have held' : inv (n.addRequest index
      { id := n.nextReq, p := p, msg := msg.getD (n.nextMessage t index) }) :=
    kept.frame held ⟨rfl, id⟩
  refine ends_mono (ends_and_returns (kept.request _ p _ held' engaged) (.of_ends Peer.request_core)) ?_
  rintro peer ⟨held'', -, coreEq⟩
  refine ⟨held'', ?_⟩
  rw [Net.setPeer_peer, if_pos rfl]
  have reqsEq : peer.nreqsOut = (n.peer p).nreqsOut + 1 := congrArg Peer.nreqsOut coreEq
  omega

/-! ## End game -/

theorem requestBlockEg_wp (held : inv n) (engaged : (n.peer p).Engaged) :
    (requestBlockEg t index p).wp k callers (fun _ n' => inv n' ∧ (n'.peer p).Engaged) n := by
  unfold requestBlockEg
  simp only [wp_bind, wp_get]
  split
  · exact wp_fault.mpr (kept.control _ (by decide))
  · refine wp_seq (kept.dlNewRequest_wp held engaged) fun msg n' held' => ?_
    rw [wp_onPiece]
    exact ⟨kept.frame held'.1 ⟨rfl, id⟩, .inr held'.2⟩

theorem assignBlocksEg_wp {firstBlock : Nat} (fuel : Nat) (held : inv n)
    (engaged : (n.peer p).Engaged) :
    (assignBlocksEg t index p firstBlock fuel).wp k callers
      (fun _ n' => inv n' ∧ (n'.peer p).Engaged) n := by
  induction fuel generalizing n with
  | zero => exact wp_fault.mpr (kept.control _ (by decide))
  | succ fuel ih =>
      unfold assignBlocksEg
      rw [wp_bind, wp_get]
      refine wp_between (fun _ n' => inv n' ∧ (n'.peer p).Engaged) ?_ ?_
      · rw [wp_when]
        split
        · exact kept.requestBlockEg_wp held engaged
        · exact ⟨held, engaged⟩
      rintro _ n' ⟨held', engaged'⟩
      simp only [wp_bind, wp_onPiece, wp_get, ends_ok]
      rw [wp_ite]
      split
      · exact ih (kept.frame held' ⟨rfl, id⟩) engaged'
      · exact wp_pure.mpr ⟨kept.frame held' ⟨rfl, id⟩, engaged'⟩

theorem dlPieceAssignRequestsEg_wp (held : inv n) (engaged : (n.peer p).Engaged) :
    (dlPieceAssignRequestsEg t index p).wp k callers
      (fun _ n' => inv n' ∧ (n'.peer p).Engaged) n := by
  unfold dlPieceAssignRequestsEg
  rw [wp_bind, wp_get]
  exact kept.assignBlocksEg_wp _ held engaged

theorem assignPiecesEg_wp {rest tmp : List Nat} (held : inv n)
    (engaged : (n.peer p).Engaged) (restInside : ∀ i ∈ rest, i < t.npieces)
    (tmpInside : ∀ i ∈ tmp, i < t.npieces) :
    (assignPiecesEg t p rest tmp).wp k callers
      (fun moved n' => inv n' ∧ ∀ i ∈ moved, i < t.npieces) n := by
  induction rest generalizing n tmp with
  | nil => exact wp_pure.mpr ⟨held, tmpInside⟩
  | cons index rest ih =>
      rw [List.forall_mem_cons] at restInside
      unfold assignPiecesEg
      rw [wp_bind, wp_get, wp_ite]
      split
      · exact wp_pure.mpr ⟨held, tmpInside⟩
      rw [wp_ite]
      split
      · refine wp_seq (kept.dlPieceAssignRequestsEg_wp held engaged) fun _ _ held' => ?_
        exact ih held'.1 held'.2 restInside.2
          (List.forall_mem_cons.mpr ⟨restInside.1, tmpInside⟩)
      · exact ih held engaged restInside.2 tmpInside

theorem keeps_dlAssignRequestsEg : Keeps k inv (dlAssignRequestsEg t p) := by
  refine keeps_get fun callers n held => ?_
  rw [wp_bind, wp_assert]
  split
  · rename_i ok
    refine wp_seq (kept.assignPiecesEg_wp held (.of_leechOk ok) (kept.inside held) (by simp)) ?_
    rintro moved n' ⟨held', inside⟩
    exact kept.keeps_quiet (quiet_dlReinsertEg inside) _ _ held'
  · exact kept.control _ (by decide)

theorem keeps_dlEnterEndgamePeer : Keeps k inv (dlEnterEndgamePeer t p) := by
  refine keeps_get fun callers n held => ?_
  refine wp_seq (kept.keeps_assert (by decide) _ _ held) fun _ n₁ held => ?_
  refine wp_seq (keeps_forEach (fun _ _ => kept.keeps_peerWant) _ _ held) fun _ n₂ held => ?_
  exact keeps_get (fun callers n held => keeps_when kept.keeps_dlAssignRequestsEg _ _ held)
    _ _ held

theorem keeps_dlEnterEndgame : Keeps k inv (dlEnterEndgame t) := by
  refine keeps_call (keeps_get fun callers n held => ?_)
  rw [wp_bind, wp_modify]
  have inside := kept.inside held
  replace held : inv { n with endgame := true } := kept.frame held ⟨rfl, id⟩
  refine wp_seq (kept.keeps_assert (by decide) _ _ held) fun _ n₂ held => ?_
  refine wp_seq (keeps_forEach (fun _ _ => kept.keeps_quiet (quiet_onPiece_ok _)) _ _ held)
    fun _ n₃ held => ?_
  rw [wp_bind, wp_modify]
  replace held : inv { n₃ with getlst := [] } := kept.frame held (.of_subset rfl (by simp))
  refine wp_seq (keeps_forEach (fun index mem => kept.keeps_quiet
    (quiet_dlPieceInsertEg (inside index (List.mem_reverse.mp mem)))) _ _ held) fun _ n₅ held => ?_
  exact keeps_forEach (fun _ _ => kept.keeps_dlEnterEndgamePeer) _ _ held

/-! ## Normal download -/

theorem keeps_dlOnPieceFull : Keeps k inv (dlOnPieceFull t index) := by
  refine keeps_call (keeps_get fun callers n held => ?_)
  refine wp_seq (keeps_forEach (fun _ _ => kept.keeps_peerUnwant) _ _ held) fun _ n₁ held => ?_
  exact keeps_get (fun callers n held => keeps_when kept.keeps_dlEnterEndgame _ _ held) _ _ held

theorem assignBlocks_wp (fuel : Nat) (held : inv n) (engaged : (n.peer p).Engaged) :
    (assignBlocks t index p fuel).wp k callers
      (fun _ n' => inv n' ∧ 0 < (n'.peer p).nreqsOut) n := by
  induction fuel generalizing n with
  | zero => exact wp_fault.mpr (kept.control _ (by decide))
  | succ fuel ih =>
      unfold assignBlocks
      rw [wp_bind, wp_get]
      refine wp_seq (kept.quiet_wp (quiet_skipBusy kept.control) held engaged) ?_
      rintro _ n' ⟨held', engaged'⟩
      refine wp_seq (kept.dlNewRequest_wp held' engaged') fun _ n'' held'' => ?_
      simp only [wp_bind, wp_onPiece, wp_get, ends_ok]
      rw [wp_ite]
      split
      · exact ih (kept.frame held''.1 ⟨rfl, id⟩) (.inr held''.2)
      · exact wp_pure.mpr ⟨kept.frame held''.1 ⟨rfl, id⟩, held''.2⟩

theorem dlPieceAssignRequests_wp (held : inv n) (engaged : (n.peer p).Engaged) :
    (dlPieceAssignRequests t index p).wp k callers
      (fun _ n' => inv n' ∧ 0 < (n'.peer p).nreqsOut) n := by
  unfold dlPieceAssignRequests
  simp only [wp_bind, wp_get, wp_assert]
  split
  · split
    · refine wp_mono (kept.assignBlocks_wp _ held engaged) fun _ n' held' => ?_
      exact keeps_when (kept.busy p).keeps_dlOnPieceFull _ _ held'
    · exact kept.control _ (by decide)
  · exact kept.control _ (by decide)

theorem assignStarted_wp {rest : List Nat} (held : inv n) (engaged : (n.peer p).Engaged) :
    (assignStarted t p rest).wp k callers (fun _ n' => inv n' ∧ (n'.peer p).Engaged) n := by
  induction rest generalizing n with
  | nil => exact wp_pure.mpr ⟨held, engaged⟩
  | cons index rest ih =>
      unfold assignStarted
      rw [wp_bind, wp_get, wp_ite]
      split
      · exact ih held engaged
      refine wp_seq (kept.dlPieceAssignRequests_wp held engaged) fun _ n' held' => ?_
      rw [wp_bind, wp_get, wp_ite]
      split
      · exact wp_pure.mpr ⟨held'.1, .inr held'.2⟩
      rw [wp_bind, wp_assert]
      split
      · rw [wp_ite]
        split
        · exact wp_pure.mpr ⟨held'.1, .inr held'.2⟩
        · exact ih held'.1 (.inr held'.2)
      · exact kept.control _ (by decide)

theorem assignNew_wp (fuel : Nat) (held : inv n) (engaged : (n.peer p).Engaged) :
    (assignNew t p fuel).wp k callers (fun _ n' => inv n') n := by
  induction fuel generalizing n with
  | zero => exact wp_fault.mpr (kept.control _ (by decide))
  | succ fuel ih =>
      unfold assignNew
      rw [wp_bind, wp_get, wp_ite]
      split
      · exact wp_pure.mpr held
      refine wp_seq (dlChooseRarest_wp kept.control) ?_
      rintro chosen n₁ ⟨framed, inside⟩
      have held₁ := kept.frame held framed
      split
      · exact wp_pure.mpr held₁
      · rename_i index
        have engaged₁ : (n₁.peer p).Engaged := by
          rw [Net.peer_of_outer framed.outer]
          exact engaged
        refine wp_seq (kept.quiet_wp (quiet_dlNewPiece kept.control (inside index rfl))
          held₁ engaged₁) ?_
        rintro _ n₂ ⟨held₂, engaged₂⟩
        exact wp_seq (kept.dlPieceAssignRequests_wp held₂ engaged₂)
          fun _ _ held₃ => ih held₃.1 (.inr held₃.2)

theorem keeps_dlAssignRequests : Keeps k inv (dlAssignRequests t p) := by
  refine keeps_get fun callers n held => ?_
  simp only [wp_bind, wp_assert]
  split
  · split
    · rename_i ok
      exact wp_mono (kept.assignStarted_wp held (.of_leechOk ok))
        fun _ _ held' => kept.assignNew_wp _ held'.1 held'.2
    · exact kept.control _ (by decide)
  · exact kept.control _ (by decide)

theorem assignUnfull_keeps (rest : List Nat) : Keeps k inv (assignUnfull t index rest) := by
  induction rest with
  | nil => exact keeps_pure
  | cons p rest ih =>
      refine keeps_get fun callers n held => ?_
      rw [wp_ite]
      split
      · exact wp_pure.mpr held
      refine wp_between (fun _ n' => inv n') ?_ fun _ n' held' => ih _ _ held'
      rw [wp_when]
      split
      · rename_i ok
        exact wp_mono (kept.dlPieceAssignRequests_wp held (.of_leechOk ok.1))
          fun _ _ held' => held'.1
      · exact held

theorem keeps_dlOnPieceUnfull : Keeps k inv (dlOnPieceUnfull t index) := by
  refine keeps_call (keeps_get fun callers n held => ?_)
  refine wp_seq (kept.keeps_assert (by decide) _ _ held) fun _ n₁ held => ?_
  refine wp_seq (kept.keeps_assert (by decide) _ _ held) fun _ n₂ held => ?_
  refine wp_seq (keeps_forEach (fun _ _ => kept.keeps_peerWant) _ _ held) fun _ n₃ held => ?_
  exact kept.assignUnfull_keeps _ _ _ held

end

end AssignKept

end Btpd.Download
