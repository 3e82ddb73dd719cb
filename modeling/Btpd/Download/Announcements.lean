import Btpd.Download.Messages
import Btpd.Download.Counts

/-!
# Announcing pieces

A peer is told of every piece that we have and that it lacks: by what is queued
right after the handshake, which names the pieces that are verified at that
moment, or by a HAVE when the piece is verified later.  What has been queued as
an announcement is never taken back.
-/

namespace Btpd.Download

open Prog

/-- The pieces that a message announces. -/
def NetBuf.named : NetBuf → List Nat
  | .haveMsg index => [index]
  | .multihave pieces => pieces
  | .bitdata _ held => held
  | _ => []

/-- A message that announces pieces, with the header of a bit field. -/
def NetBuf.announces : NetBuf → Bool
  | .haveMsg _ | .multihave _ | .bitfield | .bitdata .. => true
  | _ => false

/-- A message that is queued when the handshake has been read, and never again. -/
def NetBuf.opens : NetBuf → Bool
  | .shake | .multihave _ | .bitfield | .bitdata .. => true
  | _ => false

theorem NetBuf.announces_of_remark {nb : NetBuf} (remark : nb.remark = true) :
    nb.announces = false := by
  cases nb with
  | interest | uninterest | request | cancel | keepalive => rfl
  | _ => cases remark

namespace Line

/-- The announcements that have been sent or are queued. -/
def announcements (l : Line) : List NetBuf := l.log.filter NetBuf.announces

/-- The piece `i` has been announced. -/
def Announced (l : Line) (i : Nat) : Prop := ∃ nb ∈ l.announcements, i ∈ nb.named

variable {l l' : Line}

theorem announcements_push {nbs : List NetBuf} :
    (l.push nbs).announcements = l.announcements ++ nbs.filter NetBuf.announces := by
  rw [announcements, log_push, List.filter_append, announcements]

theorem announcements_push_silent {nbs : List NetBuf} (silent : nbs.filter NetBuf.announces = []) :
    (l.push nbs).announcements = l.announcements := by
  rw [announcements_push, silent, List.append_nil]

/-- The steps of the line neither add nor take back announcements. -/
theorem announcements_step {whole : Nat → Nat → Nat → Option (List UInt8) → Prop} {nbytes : Nat}
    (spoken : l.Spoken whole nbytes) (step : Step l l') : l'.announcements = l.announcements := by
  cases step with
  | say remark _ =>
      exact announcements_push_silent (by simp [NetBuf.announces_of_remark remark])
  | unsay remark found _ =>
      rw [announcements, log_unsay,
        filter_eraseIdx (log_getElem?.trans found) (NetBuf.announces_of_remark remark)]
      rfl
  | unsayBlock found _ _ =>
      obtain ⟨data, follows⟩ := spoken.follows found
      rw [announcements, log_unsayBlock, filter_eraseIdx follows rfl,
        filter_eraseIdx (log_getElem?.trans found) rfl]
      rfl
  | unchoke _ => exact announcements_push_silent (l := l) rfl
  | choke _ _ => exact announcements_push_silent (l := l) rfl
  | limit _ _ => exact announcements_push_silent rfl

/-- Writing moves messages and fills in data. -/
theorem announcements_write {t : Torrent} {cm : Content} (write : Write t cm l l') :
    l'.announcements = l.announcements := by
  cases write with
  | fill fills => exact (fills.append l.sent).filter_eq fun _ => rfl
  | whole here _ => exact congrArg (List.filter NetBuf.announces) (log_whole here)
  | part _ _ _ _ => rfl

end Line

/-! ## The first messages -/

/-- The handshake with what is announced at once: nothing, a HAVE for each piece
in one buffer, or a bit field. -/
inductive Opening : List NetBuf → Prop
  | nothing : Opening [.shake]
  | multihave (pieces : List Nat) : Opening [.shake, .multihave pieces]
  | bitfield (nbytes : Nat) (held : List Nat) :
      Opening [.shake, .bitfield, .bitdata nbytes held]

theorem Opening.opens {opening : List NetBuf} (isOpening : Opening opening) :
    ∀ nb ∈ opening, nb.opens = true := by
  cases isOpening <;> simp [NetBuf.opens]

/-- The opening comes first, and no other message is like it. -/
def Opened (log : List NetBuf) : Prop :=
  ∃ opening rest, Opening opening ∧ log = opening ++ rest ∧ rest.filter NetBuf.opens = []

namespace Opened

variable {log : List NetBuf}

theorem append {nbs : List NetBuf} (opened : Opened log)
    (others : nbs.filter NetBuf.opens = []) : Opened (log ++ nbs) := by
  obtain ⟨opening, rest, isOpening, rfl, before⟩ := opened
  refine ⟨opening, rest ++ nbs, isOpening, List.append_assoc _ _ _, ?_⟩
  rw [List.filter_append, before, others, List.append_nil]

theorem eraseIdx {j : Nat} {nb : NetBuf} (opened : Opened log) (found : log[j]? = some nb)
    (other : nb.opens = false) : Opened (log.eraseIdx j) := by
  obtain ⟨opening, rest, isOpening, rfl, before⟩ := opened
  have later : opening.length ≤ j := by
    by_contra early
    rw [List.getElem?_append_left (Nat.lt_of_not_le early)] at found
    rw [isOpening.opens nb (List.mem_of_getElem? found)] at other
    cases other
  rw [List.getElem?_append_right later] at found
  refine ⟨opening, rest.eraseIdx (j - opening.length), isOpening,
    List.eraseIdx_append_of_length_le later _, ?_⟩
  rw [filter_eraseIdx found other, before]

/-- The opening has no block, so filling in data leaves it alone. -/
theorem filled {read : Nat → Nat → Nat → List UInt8} {log' : List NetBuf} (opened : Opened log)
    (fills : Filled read log log') : Opened log' := by
  obtain ⟨opening, rest, isOpening, rfl, before⟩ := opened
  have split : ∃ rest', log' = opening ++ rest' ∧ Filled read rest rest' := by
    have opens := isOpening.opens
    clear isOpening
    induction opening generalizing log' with
    | nil => exact ⟨log', rfl, fills⟩
    | cons nb opening ih =>
        rw [List.forall_mem_cons] at opens
        generalize whole : nb :: opening ++ rest = log at fills
        cases fills with
        | nil => cases whole
        | same nb' fills =>
            cases whole
            obtain ⟨rest', rfl, fills'⟩ := ih fills opens.2
            exact ⟨rest', rfl, fills'⟩
        | block index begin length fills =>
            rw [List.cons_append, List.cons.injEq] at whole
            rw [whole.1] at opens
            cases opens.1
  obtain ⟨rest', rfl, fills'⟩ := split
  exact ⟨opening, rest', isOpening, rfl, (fills'.filter_eq fun _ => rfl).trans before⟩

end Opened

theorem NetBuf.opens_of_remark {nb : NetBuf} (remark : nb.remark = true) : nb.opens = false := by
  cases nb with
  | interest | uninterest | request | cancel | keepalive => rfl
  | _ => cases remark

theorem Opened.step {whole : Nat → Nat → Nat → Option (List UInt8) → Prop} {nbytes : Nat}
    {l l' : Line} (opened : Opened l.log) (spoken : l.Spoken whole nbytes)
    (step : Line.Step l l') : Opened l'.log := by
  cases step with
  | say remark _ =>
      rw [Line.log_push]
      exact opened.append (by simp [NetBuf.opens_of_remark remark])
  | unsay remark found _ =>
      rw [Line.log_unsay]
      exact opened.eraseIdx (Line.log_getElem?.trans found) (NetBuf.opens_of_remark remark)
  | unsayBlock found _ _ =>
      obtain ⟨data, follows⟩ := spoken.follows found
      rw [Line.log_unsayBlock]
      exact (opened.eraseIdx (Line.log_getElem?.trans found) rfl).eraseIdx follows rfl
  | unchoke _ =>
      show Opened (l.push [.unchoke]).log
      rw [Line.log_push]
      exact opened.append rfl
  | choke _ _ =>
      show Opened (l.push [.choke]).log
      rw [Line.log_push]
      exact opened.append rfl
  | limit _ _ =>
      rw [Line.log_push]
      exact opened.append rfl

theorem Opened.write {t : Torrent} {cm : Content} {l l' : Line} (opened : Opened l.log)
    (write : Line.Write t cm l l') : Opened l'.log := by
  cases write with
  | fill fills => exact opened.filled (fills.append l.sent)
  | whole here _ => exact (congrArg Opened (Line.log_whole here)).mpr opened
  | part _ _ _ _ => exact opened

/-! ## Runs -/

/-- An attached peer has been told of each verified piece, or has it; a bit field
names no piece that is not verified. -/
structure Told (t : Torrent) (v : View) (field : Nat → Bool) (l : Line) : Prop where
  spoken : l.Spoken (fun _ _ _ _ => True) t.fieldBytes
  opened : Opened l.log
  told : v.attached → ∀ i < t.npieces, v.held i = true → l.Announced i ∨ field i = true
  live : ∀ nbytes held, .bitdata nbytes held ∈ l.announcements → ∀ i ∈ held, v.held i = true

variable {t : Torrent} {n : Net}

/-- The line changes, but nothing is announced. -/
theorem Told.of_eq {v : View} {field : Nat → Bool} {l l' : Line} (known : Told t v field l)
    (same : l'.announcements = l.announcements)
    (spoken : l'.Spoken (fun _ _ _ _ => True) t.fieldBytes) (opened : Opened l'.log) :
    Told t v field l' where
  spoken := spoken
  opened := opened
  told attached i inside held := by
    unfold Line.Announced
    rw [same]
    exact known.told attached i inside held
  live nbytes held mem := known.live nbytes held (same ▸ mem)

theorem told_lineKept (t : Torrent) :
    LineKept t (fun _ => False) ((system t).Reachable fun _ => False) (Told t) where
  step step known := known.of_eq (Line.announcements_step known.spoken step)
    (known.spoken.step step) (known.opened.step known.spoken step)
  write _ _ _ write known := known.of_eq (Line.announcements_write write)
    (known.spoken.write write fun _ _ _ _ => trivial) (known.opened.write write)
  block _ n p index begin length known _ _ _ _ _ _ := by
    refine .inr (known.of_eq (Line.announcements_push_silent rfl)
      (known.spoken.push (.block trivial .nil)) ?_)
    rw [Line.log_push]
    exact known.opened.append rfl
  had {v field l piece} known attached _ has := by
    refine ⟨known.spoken, known.opened, fun _ i inside held => ?_,
      fun nbytes held mem i named => View.held_verified (known.live nbytes held mem i named)⟩
    by_cases here : i = piece
    · exact .inr (here ▸ has)
    · exact known.told attached i inside (View.verified_held here ▸ held)
  told {v field l piece} known attached _ _ := by
    have announced : (l.push [.haveMsg piece]).announcements =
        l.announcements ++ [.haveMsg piece] := Line.announcements_push
    refine ⟨known.spoken.push (.singleton rfl), ?_, fun _ i inside held => ?_,
      fun nbytes held mem i named => ?_⟩
    · rw [Line.log_push]
      exact known.opened.append rfl
    · unfold Line.Announced
      rw [announced]
      by_cases here : i = piece
      · left
        exact ⟨.haveMsg piece, List.mem_append_right _ List.mem_cons_self,
          here ▸ List.mem_cons_self⟩
      · refine (known.told attached i inside (View.verified_held here ▸ held)).imp_left ?_
        rintro ⟨nb, mem, named⟩
        exact ⟨nb, List.mem_append_left _ mem, named⟩
    · rw [announced, List.mem_append] at mem
      exact View.held_verified (known.live nbytes held (mem.resolve_right (by simp)) i named)
  missed piece known lost := ⟨known.spoken, known.opened, fun attached => absurd attached lost,
    fun nbytes held mem i named => View.held_verified (known.live nbytes held mem i named)⟩
  leave known := ⟨known.spoken, known.opened, fun attached => attached.elim, known.live⟩
  field _ known none :=
    ⟨known.spoken, known.opened, fun attached i inside held =>
      .inl ((known.told attached i inside held).resolve_right (by simp [none i inside])),
      known.live⟩
  setBit {v field l} index known := by
    refine ⟨known.spoken, known.opened, fun attached i inside held =>
      (known.told attached i inside held).imp_right fun has => ?_, known.live⟩
    by_cases here : i = index
    · rw [setBit, here, Function.update_self]
    · rw [setBit, Function.update_of_ne here, has]

/-- The HAVEs of the opening name the verified pieces, each once. -/
theorem multihavePieces_eq
    (got : n.cm.npiecesGot = (List.range t.npieces).countP n.cm.pieceField) :
    multihavePieces t n = (List.range t.npieces).filter n.cm.pieceField := by
  rw [multihavePieces, got, List.countP_eq_length_filter, List.take_length]

theorem mem_held {i : Nat} :
    i ∈ (List.range t.npieces).filter n.cm.pieceField ↔
      i < t.npieces ∧ n.cm.pieceField i = true := by
  rw [List.mem_filter, List.mem_range]

theorem told_shakes : Shakes t ⟨fun _ => False, fun _ => True⟩
    fun v peer => Told t v peer.pieceField peer.line := by
  intro n unwritten _ got
  refine ends_mono Peer.onShake_line ?_
  rintro peer ⟨-, opening⟩
  have spoken : (Peer.create t unwritten).line.Spoken (fun _ _ _ _ => True) t.fieldBytes :=
    ⟨[], create_log unwritten, .nil⟩
  have silent : (Peer.create t unwritten).line.announcements = [] := by
    rw [Line.announcements, create_log]
    rfl
  rcases opening with ⟨none, lineEq⟩ | lineEq | lineEq
  · rw [lineEq]
    refine ⟨spoken, ⟨_, [], .nothing, create_log unwritten, rfl⟩, fun _ i inside held => ?_,
      fun nbytes held mem => ?_⟩
    · rw [got, List.countP_eq_zero] at none
      exact absurd held (none i (List.mem_range.mpr inside))
    · rw [silent] at mem
      cases mem
  · rw [lineEq, multihavePieces_eq got]
    refine ⟨spoken.push (.singleton rfl), ?_, fun _ i inside held => ?_,
      fun nbytes held mem => ?_⟩
    · rw [Line.log_push, create_log]
      exact ⟨_, [], .multihave _, rfl, rfl⟩
    · left
      rw [Line.Announced, Line.announcements_push, silent]
      exact ⟨_, List.mem_cons_self, mem_held.mpr ⟨inside, held⟩⟩
    · rw [Line.announcements_push, silent] at mem
      cases List.mem_singleton.mp mem
  · rw [lineEq]
    refine ⟨spoken.push (.field .nil), ?_, fun _ i inside held => ?_,
      fun nbytes held mem i named => ?_⟩
    · rw [Line.log_push, create_log]
      exact ⟨_, [], .bitfield _ _, rfl, rfl⟩
    · left
      rw [Line.Announced, Line.announcements_push, silent]
      exact ⟨_, List.mem_cons_of_mem _ List.mem_cons_self, mem_held.mpr ⟨inside, held⟩⟩
    · rw [Line.announcements_push, silent] at mem
      rcases List.mem_cons.mp mem with same | mem
      · cases same
      · cases List.mem_singleton.mp mem
        exact (mem_held.mp named).2

theorem told_of_reachable (reached : (system t).Reachable (fun _ => False) n) (p : Nat) :
    Told t (n.view p) (n.peer p).pieceField (n.peer p).line :=
  (told_lineKept t).of_reachable told_shakes
    (fun _ _ => ⟨⟨[], rfl, .nil⟩, ⟨_, [], .nothing, rfl, rfl⟩, fun attached => attached.elim,
      fun _ _ mem => nomatch mem⟩) reached p

/-- What an event leaves of the announcements that have been queued. -/
theorem said_lineKept (t : Torrent) (p : Nat) (said : List NetBuf) :
    LineKept t (fun _ => False) ((system t).Reachable fun _ => False)
      fun v _ l => v.p = p →
        l.Spoken (fun _ _ _ _ => True) t.fieldBytes ∧ said <+: l.announcements where
  step step kept here := by
    obtain ⟨spoken, earlier⟩ := kept here
    exact ⟨spoken.step step, Line.announcements_step spoken step ▸ earlier⟩
  write _ _ _ write kept here := by
    obtain ⟨spoken, earlier⟩ := kept here
    exact ⟨spoken.write write fun _ _ _ _ => trivial, Line.announcements_write write ▸ earlier⟩
  block _ n q index begin length kept _ _ _ _ _ _ := by
    refine .inr fun here => ?_
    obtain ⟨spoken, earlier⟩ := kept here
    refine ⟨spoken.push (.block trivial .nil), ?_⟩
    rw [Line.announcements_push_silent rfl]
    exact earlier
  had kept _ _ _ := kept
  told {v field l piece} kept _ _ _ here := by
    obtain ⟨spoken, earlier⟩ := kept here
    refine ⟨spoken.push (.singleton rfl), ?_⟩
    rw [Line.announcements_push]
    exact earlier.trans (List.prefix_append _ _)
  missed _ kept _ := kept
  leave kept := kept
  field _ kept _ := kept
  setBit _ kept := kept

/-- In every reachable state each attached peer has been told of each verified
piece or has it, in an opening that comes right after the handshake or in a HAVE;
the opening names the pieces verified at that moment, each once, and no event
takes an announcement back. -/
theorem held_announced (reached : (system t).Reachable (fun _ => False) n) :
    (∀ p ∈ n.peers, ∀ i < t.npieces, n.cm.pieceField i = true →
      (n.peer p).line.Announced i ∨ (n.peer p).pieceField i = true) ∧
    (∀ p ∈ n.peers, Opened ((n.peer p).sent ++ (n.peer p).outq)) ∧
    (∀ p ∈ n.peers, ∀ nbytes held, .bitdata nbytes held ∈ (n.peer p).line.announcements →
      ∀ i ∈ held, n.cm.pieceField i = true) ∧
    (∀ unwritten peer, Peer.onShake t n unwritten = .ok peer →
      ∀ pieces, .multihave pieces ∈ peer.line.log →
        pieces.Nodup ∧ ∀ i, i ∈ pieces ↔ i < t.npieces ∧ n.cm.pieceField i = true) ∧
    ∀ p ∈ n.peers, ∀ e n', (system t).Steps (fun _ => False) n e n' →
      (n.peer p).line.announcements <+: (n'.peer p).line.announcements := by
  have told := told_of_reachable reached
  have got := (base_of_reachable reached).got
  refine ⟨fun p mem => (told p).told mem, fun p _ => (told p).opened, fun p _ => (told p).live,
    fun unwritten peer shaken pieces mem => ?_, fun p mem e n' step => ?_⟩
  · have piecesEq : pieces = (List.range t.npieces).filter n.cm.pieceField := by
      obtain ⟨-, ⟨-, lineEq⟩ | lineEq | lineEq⟩ := Peer.onShake_line.of_ok shaken
      · rw [lineEq, create_log] at mem
        cases List.mem_singleton.mp mem
      · rw [lineEq, Line.log_push, create_log, multihavePieces_eq got] at mem
        simpa using mem
      · rw [lineEq, Line.log_push, create_log] at mem
        simp at mem
    rw [piecesEq]
    exact ⟨List.nodup_range.filter _, fun i => mem_held⟩
  · exact ((said_lineKept t p _).of_event reached mem
      (J := fun _ _ l => l.Spoken (fun _ _ _ _ => True) t.fieldBytes ∧
        (n.peer p).line.announcements <+: l.announcements)
      ⟨(told p).spoken, List.prefix_rfl⟩ step).2

theorem held_announced_ninePieces : ∃ n, (0 ∈ n.peers ∧ n.cm.pieceField 2 = true) ∧
    (∀ p ∈ n.peers, ∀ i < ninePieces.npieces, n.cm.pieceField i = true →
      (n.peer p).line.Announced i ∨ (n.peer p).pieceField i = true) ∧
    (∀ p ∈ n.peers, Opened ((n.peer p).sent ++ (n.peer p).outq)) ∧
    (∀ p ∈ n.peers, ∀ nbytes held, .bitdata nbytes held ∈ (n.peer p).line.announcements →
      ∀ i ∈ held, n.cm.pieceField i = true) ∧
    (∀ unwritten peer, Peer.onShake ninePieces n unwritten = .ok peer →
      ∀ pieces, .multihave pieces ∈ peer.line.log →
        pieces.Nodup ∧ ∀ i, i ∈ pieces ↔ i < ninePieces.npieces ∧ n.cm.pieceField i = true) ∧
    ∀ p ∈ n.peers, ∀ e n', (system ninePieces).Steps (fun _ => False) n e n' →
      (n.peer p).line.announcements <+: (n'.peer p).line.announcements := by
  obtain ⟨n, reached, state⟩ : ∃ n, (system ninePieces).Reachable (fun _ => False) n ∧
      0 ∈ n.peers ∧ n.cm.pieceField 2 = true :=
    System.Reachable.of_after [.shake (some 5)] (.start (ninePieces.start fun i => i < 3))
      (by decide +kernel)
  exact ⟨n, state, held_announced reached⟩

end Btpd.Download
