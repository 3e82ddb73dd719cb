import Btpd.Download.Messages
import Btpd.Download.Counts
import Btpd.Download.Stream

/-!
# Serving requests

A request is checked when it is read, and its block is read from the files when
its header is about to be written.  The check adds offset and length in 32 bits
and lets a length of zero through; every other request that it accepts names a
block of a verified piece, and reading the block stays within the files.
-/

namespace Btpd.Download

open Prog

/-- The request names a block of a verified piece. -/
structure Served (t : Torrent) (held : Nat → Bool) (index begin length : Nat) : Prop where
  inside : index < t.npieces
  held : held index = true
  some : 0 < length
  short : length ≤ pieceBlocklen
  fits : ((begin + length : Nat) : Int) ≤ t.torrentPieceSize index

/-- The request is for no bytes, or its end wraps around in 32 bits. -/
def Unsafe (t : Torrent) (index begin length : Nat) : Prop :=
  length = 0 ∨ 2 ^ 32 ≤ begin + length ∧ t.torrentPieceSize index < ((begin + length : Nat) : Int)

instance {t : Torrent} {index begin length : Nat} : Decidable (Unsafe t index begin length) :=
  inferInstanceAs (Decidable (_ ∨ _))

/-- `peer_on_request` is entered with such a request. -/
def unsafeRequest (t : Torrent) (c : Call Net Fn) : Prop :=
  match c.fn with
  | .peerOnRequest _ index begin length => Unsafe t index begin length
  | _ => False

variable {t : Torrent} {n : Net} {p index begin length : Nat}

/-- What the check of a request leaves open. -/
theorem served_iff {held : Nat → Bool} (short : length ≤ pieceBlocklen)
    (inside : index < t.npieces) (isHeld : held index = true)
    (fits : ((begin + length) % 2 ^ 32 : Nat) ≤ t.torrentPieceSize index) :
    Served t held index begin length ↔ ¬ Unsafe t index begin length := by
  unfold Unsafe
  constructor
  · rintro ⟨-, -, some, -, fits⟩ (none | ⟨-, beyond⟩)
    · exact absurd none (Nat.pos_iff_ne_zero.mp some)
    · omega
  · intro safe
    rw [not_or, not_and] at safe
    refine ⟨inside, isHeld, Nat.pos_of_ne_zero safe.1, short, ?_⟩
    by_contra beyond
    have small : begin + length < 2 ^ 32 :=
      Nat.lt_of_not_le fun wraps => safe.2 wraps (Int.lt_of_not_ge beyond)
    rw [Nat.mod_eq_of_lt small] at fits
    exact beyond fits

/-- A piece ends within the files, when all pieces but the last do. -/
theorem Served.inFiles {held : Nat → Bool} (served : Served t held index begin length)
    (sized : t.pieceLength * (t.npieces - 1) ≤ t.totalLength) :
    index * t.pieceLength + begin + length ≤ t.totalLength := by
  obtain ⟨inside, -, -, -, fits⟩ := served
  unfold Torrent.torrentPieceSize at fits
  split at fits
  · rename_i notLast
    have fits' : begin + length ≤ t.pieceLength := by omega
    have before : (index + 1) * t.pieceLength ≤ t.pieceLength * (t.npieces - 1) := by
      rw [Nat.mul_comm]
      exact Nat.mul_le_mul_left _ (by omega)
    rw [Nat.succ_mul] at before
    omega
  · rename_i last
    have indexEq : index = t.npieces - 1 := by omega
    have product : ((t.pieceLength * (t.npieces - 1) : Nat) : Int) =
        (t.pieceLength : Int) * ((t.npieces : Int) - 1) := by
      rw [Int.natCast_mul, Int.natCast_sub (by omega), Int.natCast_one]
    rw [indexEq, Nat.mul_comm]
    omega

/-- The block of a request is read without leaving the files. -/
theorem Served.reads {held : Nat → Bool} (served : Served t held index begin length)
    (sized : t.pieceLength * (t.npieces - 1) ≤ t.totalLength) {bts : Stream} (sound : bts.Sound)
    (files : bts.files = t.files) :
    ∃ bts', bts.btsGet (index * t.pieceLength + begin) length = .ok bts' ∧ bts'.Sound ∧
      bts'.files = t.files := by
  have fits : index * t.pieceLength + begin + length ≤ bts.totlen := by
    rw [Stream.totlen, files]
    exact served.inFiles sized
  obtain ⟨bts', read, sound', files'⟩ := sound.get served.some fits
  exact ⟨bts', read, sound', files'.trans files⟩

/-! ## Runs -/

/-- Every header of the line is of a block that may be served. -/
def AllServed (t : Torrent) (held : Nat → Bool) (l : Line) : Prop :=
  ∀ index begin length, .piece index begin length ∈ l.log → Served t held index begin length

theorem AllServed.of_subset {held : Nat → Bool} {l l' : Line} (all : AllServed t held l)
    (subset : ∀ nb ∈ l'.log, nb.heads = true → nb ∈ l.log) : AllServed t held l' :=
  fun index begin length mem => all index begin length (subset _ mem rfl)

theorem AllServed.push {held : Nat → Bool} {l : Line} {nbs : List NetBuf}
    (all : AllServed t held l) (none : ∀ nb ∈ nbs, nb.heads = false) :
    AllServed t held (l.push nbs) := by
  refine all.of_subset fun nb mem heads => ?_
  rw [Line.log_push, List.mem_append] at mem
  refine mem.resolve_right fun here => ?_
  rw [none nb here] at heads
  cases heads

theorem AllServed.verified {v : View} {l : Line} (all : AllServed t v.held l) (piece : Nat) :
    AllServed t (v.verified piece).held l := by
  intro index begin length mem
  obtain ⟨inside, held, some, short, fits⟩ := all index begin length mem
  exact ⟨inside, View.held_verified held, some, short, fits⟩

theorem Filled.mem_heads {read : Nat → Nat → Nat → List UInt8} {log log' : List NetBuf}
    {nb : NetBuf} (fills : Filled read log log') (mem : nb ∈ log') (heads : nb.heads = true) :
    nb ∈ log := by
  obtain ⟨j, found⟩ := List.mem_iff_getElem?.mp mem
  exact List.mem_of_getElem? (fills.getElem?_heads found heads)

theorem AllServed.step {held : Nat → Bool} {l l' : Line} (all : AllServed t held l)
    (step : Line.Step l l') : AllServed t held l' := by
  cases step with
  | say remark _ => exact all.push (by simp [NetBuf.heads_of_remark remark])
  | unsay _ _ _ =>
      refine all.of_subset fun nb mem _ => ?_
      rw [Line.log_unsay] at mem
      exact List.mem_of_mem_eraseIdx mem
  | unsayBlock _ _ _ =>
      refine all.of_subset fun nb mem _ => ?_
      rw [Line.log_unsayBlock] at mem
      exact List.mem_of_mem_eraseIdx (List.mem_of_mem_eraseIdx mem)
  | unchoke _ => exact (all.push (by simp [NetBuf.heads]) : AllServed t held (l.push [.unchoke]))
  | choke _ _ => exact (all.push (by simp [NetBuf.heads]) : AllServed t held (l.push [.choke]))
  | limit _ _ => exact all.push (by simp [NetBuf.heads])

theorem AllServed.write {held : Nat → Bool} {cm : Content} {l l' : Line}
    (all : AllServed t held l) (write : Line.Write t cm l l') : AllServed t held l' := by
  cases write with
  | fill fills => exact all.of_subset fun nb => Filled.mem_heads (fills.append l.sent)
  | whole here _ =>
      refine all.of_subset fun nb mem _ => ?_
      rwa [← Line.log_whole here]
  | part _ _ _ _ => exact all

theorem served_lineKept (t : Torrent) :
    LineKept t (unsafeRequest t) ((system t).Reachable (unsafeRequest t))
      fun v _ l => AllServed t v.held l where
  step step all := all.step step
  write _ _ _ write all := all.write write
  block _ n p index begin length all _ short inside held fits _ := by
    refine or_iff_not_imp_left.mpr fun safe => ?_
    intro index' begin' length' mem
    rw [Line.log_push, List.mem_append] at mem
    rcases mem with mem | mem
    · exact all index' begin' length' mem
    · rcases List.mem_cons.mp mem with here | mem
      · cases here
        exact (served_iff short inside held fits).mpr safe
      · cases List.mem_singleton.mp mem
  had all _ _ _ := all.verified _
  told all _ _ _ := (all.push (by simp [NetBuf.heads])).verified _
  missed piece all _ := all.verified piece
  leave all := all
  field _ all _ := all
  setBit _ all := all

theorem served_create {held : Nat → Bool} (unwritten : Option (Fin 68)) :
    AllServed t held (Peer.create t unwritten).line := by
  intro index begin length mem
  rw [create_log] at mem
  cases List.mem_singleton.mp mem

theorem served_shakes : Shakes t ⟨unsafeRequest t, fun _ => True⟩
    fun v peer => AllServed t v.held peer.line := by
  intro n unwritten _ _
  refine ends_mono Peer.onShake_line ?_
  rintro peer ⟨-, ⟨-, lineEq⟩ | lineEq | lineEq⟩
  · rw [lineEq]
    exact served_create unwritten
  · rw [lineEq]
    exact (served_create unwritten).push (by simp [NetBuf.heads])
  · rw [lineEq]
    exact (served_create unwritten).push (by simp [NetBuf.heads])

/-- A request that changes the queue of its peer has passed the check. -/
theorem netOnRequest_checks {bad : Call Net Fn → Prop} {callers : List Fn}
    (reached : (system t).Reachable bad n)
    (mem : p ∈ n.peers) :
    (netOnRequest t p index begin length).wp whenReturns callers (fun _ n' =>
      p ∈ n'.peers → (n'.peer p).outq ≠ (n.peer p).outq →
        (Served t n.cm.pieceField index begin length ↔ ¬ Unsafe t index begin length)) n := by
  have base := base_of_reachable reached
  unfold netOnRequest
  rw [wp_bind, wp_get, wp_ite]
  split
  · rw [wp_ite]
    split
    · have held : Peerwise t (fun _ _ => True) (everything t) n := ⟨base, fun _ => trivial⟩
      have kept : LineKept t (fun _ => False) (fun _ => True) fun _ _ _ => True := plain_lineKept
      refine wp_mono (kept.peerKept.peerKill_wp mem held) ?_
      rintro _ n' ⟨-, peersEq⟩ still
      rw [peersEq] at still
      exact absurd rfl ((List.Nodup.mem_erase_iff base.nodup).mp still).1
    · rename_i good
      simp only [not_or, Nat.not_lt, Nat.not_le, Int.not_lt, Bool.not_eq_false] at good
      obtain ⟨short, inside, verified, fits⟩ := good
      refine wp_call.mpr (.inr ?_)
      rw [wp_onPeer]
      exact returns_of_forall fun _ _ _ _ => served_iff short inside verified fits
  · exact wp_pure.mpr fun _ changed => absurd rfl changed

/-- A request that is queued names a block of a verified piece exactly if it is
for some bytes and its end does not wrap around beyond the piece.  In every run
whose served requests are so, each queued header names such a block, and reading
the block stays within the files. -/
theorem requests_served (sized : t.pieceLength * (t.npieces - 1) ≤ t.totalLength) :
    (∀ n, (system t).Reachable (fun _ => False) n → ∀ p ∈ n.peers, ∀ index begin length n',
      (system t).Steps (fun _ => False) n (.request p index begin length) n' → p ∈ n'.peers →
      (n'.peer p).outq ≠ (n.peer p).outq →
        (Served t n.cm.pieceField index begin length ↔ ¬ Unsafe t index begin length)) ∧
    ∀ n, (system t).Reachable (unsafeRequest t) n → ∀ p index begin length,
      .piece index begin length ∈ (n.peer p).outq →
        Served t n.cm.pieceField index begin length ∧
        ∀ bts : Stream, bts.Sound → bts.files = t.files → ∃ bts',
          bts.btsGet (index * t.pieceLength + begin) length = .ok bts' ∧ bts'.Sound ∧
            bts'.files = t.files := by
  refine ⟨fun n reached p mem index begin length n' step => ?_,
    fun n reached p index begin length mem => ?_⟩
  · have checked : (handle t (.request p index begin length)).wp whenReturns [] (fun _ n' =>
        p ∈ n'.peers → (n'.peer p).outq ≠ (n.peer p).outq →
          (Served t n.cm.pieceField index begin length ↔ ¬ Unsafe t index begin length)) n :=
      PeerKept.ifAttached_wp (fun _ => netOnRequest_checks reached mem)
        fun _ changed => absurd rfl changed
    exact System.Steps.of_wp checked step
  · have all := (served_lineKept t).of_reachable served_shakes (fun _ _ => served_create none)
      reached p
    have served := all index begin length (List.mem_append_right _ mem)
    exact ⟨served, fun bts sound files => served.reads sized sound files⟩

/-- `unsafeRequest` as a test. -/
def isUnsafe (t : Torrent) : Fn → Bool
  | .peerOnRequest _ index begin length => decide (Unsafe t index begin length)
  | _ => false

theorem isUnsafe_iff (t : Torrent) (c : Call Net Fn) :
    isUnsafe t c.fn = true ↔ unsafeRequest t c := by
  unfold isUnsafe unsafeRequest
  split
  · exact decide_eq_true_iff
  · simp

instance : DecidablePred (unsafeRequest t) := fun c => decidable_of_iff _ (isUnsafe_iff t c)

/-- A request for the last piece is queued, and the block that it asks for can be read. -/
theorem requests_served_ninePieces : ∃ n n',
    (system ninePieces).Steps (fun _ => False) n (.request 0 8 0 4) n' ∧
      .piece 8 0 4 ∉ (n.peer 0).outq ∧ .piece 8 0 4 ∈ (n'.peer 0).outq ∧
      Served ninePieces n.cm.pieceField 8 0 4 ∧
      ∃ bts', (Stream.btsOpen ninePieces.files).btsGet (8 * ninePieces.pieceLength + 0) 4 =
        .ok bts' ∧ bts'.Sound := by
  have sized : ninePieces.pieceLength * (ninePieces.npieces - 1) ≤ ninePieces.totalLength := by
    decide
  have ran : ∃ n n', (system ninePieces).Reachable (unsafeRequest ninePieces) n ∧
      (system ninePieces).Steps (unsafeRequest ninePieces) n (.request 0 8 0 4) n' ∧
      .piece 8 0 4 ∉ (n.peer 0).outq ∧ .piece 8 0 4 ∈ (n'.peer 0).outq ∧
      0 ∈ n.peers ∧ 0 ∈ n'.peers :=
    System.Reachable.of_after_step [.shake none, .interest 0, .ulUnchoke 0] _
      (.start (ninePieces.start fun _ => true)) (by decide +kernel)
  obtain ⟨n, n', reached, step, fresh, queued, mem, mem'⟩ := ran
  have anyStep : (system ninePieces).Steps (fun _ => False) n (.request 0 8 0 4) n' :=
    ⟨step.1, fun _ _ => id⟩
  have grown : (n'.peer 0).outq ≠ (n.peer 0).outq := fun same => fresh (same ▸ queued)
  have served := ((requests_served sized).1 n (reached.mono fun _ => False.elim) 0 mem 8 0 4 n'
    anyStep mem' grown).mpr (by decide)
  have block := ((requests_served sized).2 n' (.step reached step) 0 8 0 4 queued).2
    (.btsOpen ninePieces.files) Stream.sound_btsOpen rfl
  obtain ⟨bts', read, sound, -⟩ := block
  exact ⟨n, n', anyStep, fresh, queued, served, bts', read, sound⟩

/-- A request for no bytes at the end of the last piece is queued, and to read it
the search for the file leaves the array; a request whose end wraps around is
queued, and to read it the assertion of `bts_get` fails. -/
theorem not_requests_served : ∃ n, (system ninePieces).Reachable (fun _ => False) n ∧
    (.piece 8 4 0 ∈ (n.peer 0).outq ∧
      (Stream.btsOpen ninePieces.files).btsGet (8 * ninePieces.pieceLength + 4) 0 =
        .error .bounds) ∧
    .piece 0 (2 ^ 32 - 1) 1 ∈ (n.peer 0).outq ∧
      (Stream.btsOpen ninePieces.files).btsGet (0 * ninePieces.pieceLength + (2 ^ 32 - 1)) 1 =
        .error .totlen :=
  System.Reachable.of_after
    [.shake none, .interest 0, .ulUnchoke 0, .request 0 8 4 0, .request 0 0 (2 ^ 32 - 1) 1]
    (.start (ninePieces.start fun _ => true)) (by decide +kernel)

end Btpd.Download
