import Btpd.Content.Runs

/-!
# What the routines keep

A condition that no torrent changes as long as it records no block, begins no piece and
forgets no block that has come is kept by most routines of the content code, whatever the
files answer; one that looks at no torrent is kept by all of them but the timer.
-/

namespace Btpd.Content

open Prog
open Download (Torrent)

variable {t : Nat → Torrent} {n piece : Nat} {e : CmEvent} {k : Contract Contents Fn CmFault}
  {P : Contents → Prop}

/-! ## Mild changes -/

/-- A change that records no block, begins no piece and forgets no block that has come. -/
structure Mild (x x' : Item) : Prop where
  block : ∀ i b, x'.cm.blockField i b = true → x.cm.blockField i b = true
  piece : ∀ i pc', x'.piece i = some pc' → ∃ pc, x.piece i = some pc ∧ pc.ngot ≤ pc'.ngot

theorem Mild.of_content {x : Item} {cm : Cm}
    (block : ∀ i b, cm.blockField i b = true → x.cm.blockField i b = true) :
    Mild x { x with cm := cm } :=
  ⟨block, fun _ pc at_ => ⟨pc, at_, Nat.le_refl _⟩⟩

theorem block_of_update {field : Nat → Nat → Bool} {i b : Nat}
    (set : Function.update field piece (fun _ => false) i b = true) : field i b = true := by
  rw [Function.update_apply] at set
  split at set
  · cases set
  · exact set

theorem endPiece_block {u : Torrent} {cm : Cm} {i b : Nat}
    (set : (cm.endPiece u piece).blockField i b = true) : cm.blockField i b = true := by
  rw [endPiece_eq] at set
  split at set
  · exact set
  · split at set
    · exact block_of_update set
    · exact set

/-- What does not change when a torrent changes mildly, when it leaves the queue, and when
one comes to its end. -/
structure Steady (P : Contents → Prop) : Prop where
  mild : ∀ s n x, Mild (s.item n) x → P s → P (s.setItem n x)
  leave : ∀ s n, P s → P { s with startq := s.startq.eraseP fun std => std.tp = n }
  join : ∀ s std, P s → P { s with
    startq := s.startq ++ [std]
    workev := s.workev || s.startq.isEmpty }

theorem keeps_item : Keeps k P (item n) :=
  fun _ _ held => wp_item.mpr held

theorem keeps_content : Keeps k P (content n) :=
  fun _ _ held => wp_content.mpr held

section Steady

variable (steady : Steady P)

include steady

theorem Steady.setItem {f : Item → Item} (mild : ∀ x, Mild x (f x)) :
    Keeps k P (setItem n f) :=
  keeps_modify fun s held => steady.mild s n _ (mild _) held

/-- A change that records no block. -/
theorem Steady.setContent {f : Cm → Cm}
    (block : ∀ cm i b, (f cm).blockField i b = true → cm.blockField i b = true) :
    Keeps k P (setContent n f) :=
  steady.setItem fun x => .of_content (block x.cm)

/-- The blocks are not touched. -/
theorem Steady.setOther {f : Cm → Cm} (same : ∀ cm, (f cm).blockField = cm.blockField) :
    Keeps k P (Content.setContent n f) := by
  refine steady.setContent fun cm i b set => ?_
  rw [same] at set
  exact set

theorem Steady.setPtr {b : Name} {p : Ptr} : Keeps k P (setPtr n b p) :=
  steady.setOther fun _ => rfl

/-- Whatever is done to the files and the streams. -/
theorem Steady.onDisk {α : Type} {m : Routine α} : Keeps whenReturns P (onDisk n m) := by
  intro callers s held
  refine wp_zoom (.inr ?_)
  rcases (m [] (s.item n).disk).2 with e | ⟨a, d⟩
  · trivial
  · exact steady.mild s n _ ⟨fun _ _ => id, fun _ pc at_ => ⟨pc, at_, Nat.le_refl _⟩⟩ held

/-- The `struct piece` of an index is freed. -/
theorem Steady.freePiece : Keeps k P (setPiece n piece none) := by
  refine steady.setItem fun x => ⟨fun _ _ => id, fun i pc at_ => ?_⟩
  dsimp only at at_
  rw [Function.update_apply] at at_
  split at at_
  · cases at_
  · exact ⟨pc, at_, Nat.le_refl _⟩

/-- More blocks of a piece have come. -/
theorem Steady.changePiece {f : Piece → Piece} (more : ∀ pc, pc.ngot ≤ (f pc).ngot) :
    Keeps k P (changePiece n piece f) := by
  refine steady.setItem fun x => ⟨fun _ _ => id, fun i pc at_ => ?_⟩
  dsimp only at at_
  rw [Function.update_apply] at at_
  split at at_
  case isTrue here =>
    obtain ⟨before, found, rfl⟩ := Option.map_eq_some_iff.mp at_
    exact ⟨before, here ▸ found, more before⟩
  case isFalse => exact ⟨pc, at_, Nat.le_refl _⟩

/-- The download of a torrent ends. -/
theorem Steady.halt {f : Item → Item} (cm : ∀ x, (f x).cm.blockField = x.cm.blockField)
    (none : ∀ x i, (f x).piece i = none) : Keeps k P (Content.setItem n f) := by
  refine steady.setItem fun x => ⟨fun i b set => ?_, fun i pc at_ => ?_⟩
  · rw [cm] at set
    exact set
  · rw [none] at at_
    cases at_

/-- Only the state of the torrent changes. -/
theorem Steady.setState {f : Item → Item} (cm : ∀ x, (f x).cm = x.cm)
    (pieces : ∀ x, (f x).piece = x.piece) : Keeps k P (Content.setItem n f) := by
  refine steady.setItem fun x => ⟨fun i b set => ?_, fun i pc at_ => ⟨pc, ?_, Nat.le_refl _⟩⟩
  · rw [cm] at set
    exact set
  · rw [pieces] at at_
    exact at_

theorem Steady.openStream {b : Name} : Keeps whenReturns P (openStream n b) := by
  refine keeps_seq steady.onDisk fun err => ?_
  cases err with
  | some e => exact keeps_pure
  | none => exact keeps_seq steady.setPtr fun _ => keeps_pure

theorem Steady.closeStream {b : Name} : Keeps whenReturns P (closeStream n b) := by
  refine keeps_seq keeps_content fun cm => ?_
  split
  · exact keeps_fault trivial
  · exact keeps_fault trivial
  · exact keeps_seq steady.onDisk fun _ => keeps_seq steady.setPtr fun _ => keeps_pure

theorem Steady.useStream {α : Type} {b : Name} {m : Routine α} :
    Keeps whenReturns P (useStream n b m) := by
  refine keeps_seq keeps_content fun cm => ?_
  split
  · exact keeps_fault trivial
  · exact keeps_fault trivial
  · exact steady.onDisk

theorem Steady.dequeue : Keeps k P (dequeue n) :=
  keeps_modify fun s held => steady.leave s n held

theorem Steady.cmSave : Keeps whenReturns P (cmSave t n) :=
  keeps_seq steady.onDisk fun _ => keeps_seq steady.onDisk fun _ => steady.setOther fun _ => rfl

theorem Steady.cmOnErrorBy {stop : Action Unit} (stopped : Keeps whenReturns P stop) :
    Keeps whenReturns P (cmOnErrorBy stop n) :=
  keeps_seq keeps_content fun _ => keeps_when (keeps_seq (steady.setOther fun _ => rfl) fun _ => stopped)

theorem Steady.cmWriteDoneBy {stop : Action Unit} (stopped : Keeps whenReturns P stop) :
    Keeps whenReturns P (cmWriteDoneBy t stop n) := by
  refine keeps_call (keeps_seq steady.closeStream fun err => ?_)
  refine keeps_seq steady.setPtr fun _ => keeps_seq keeps_content fun cm => ?_
  refine keeps_seq (keeps_when (steady.cmOnErrorBy stopped)) fun _ => ?_
  exact keeps_seq keeps_content fun _ => keeps_when steady.cmSave

theorem Steady.cmStopBy (depth : Nat) : Keeps whenReturns P (cmStopBy t depth n) := by
  induction depth with
  | zero => exact keeps_fault trivial
  | succ depth stopped =>
      refine keeps_call (keeps_seq keeps_content fun cm => keeps_when ?_)
      refine keeps_seq (keeps_when steady.dequeue) fun _ => ?_
      refine keeps_seq (keeps_when ?_) fun _ => ?_
      · exact keeps_seq steady.closeStream fun _ => keeps_pure
      · refine keeps_seq (keeps_when (steady.cmWriteDoneBy stopped)) fun _ => ?_
        exact steady.setOther fun _ => rfl

theorem Steady.cmStop : Keeps whenReturns P (cmStop t n) :=
  steady.cmStopBy 2

theorem Steady.cmOnError : Keeps whenReturns P (cmOnError t n) :=
  steady.cmOnErrorBy steady.cmStop

theorem Steady.cmWriteDone : Keeps whenReturns P (cmWriteDone t n) :=
  steady.cmWriteDoneBy steady.cmStop

theorem Steady.testPiece : Keeps whenReturns P (testPiece t n piece) :=
  keeps_seq (steady.setOther fun _ => rfl) fun _ => keeps_seq steady.useStream fun _ => keeps_pure

theorem Steady.cmGetBytes {begin len : Nat} :
    Keeps whenReturns P (cmGetBytes t n piece begin len) := by
  refine keeps_seq keeps_content fun cm => ?_
  split
  · exact keeps_pure
  · refine keeps_seq steady.useStream fun r => ?_
    cases r with
    | ok buf => exact keeps_pure
    | error e => exact keeps_seq steady.cmOnError fun _ => keeps_pure

theorem Steady.pieceLogHashes : Keeps whenReturns P (pieceLogHashes t n piece) :=
  keeps_forEach fun _ _ => keeps_seq steady.cmGetBytes fun _ => keeps_pure

theorem Steady.dlOnOkPiece : Keeps whenReturns P (dlOnOkPiece t n piece) := by
  refine keeps_seq keeps_item fun x => ?_
  exact keeps_seq (keeps_when steady.pieceLogHashes) fun _ => steady.freePiece

theorem Steady.cmPieceOk : Keeps whenReturns P (cmPieceOk t n piece) := by
  refine keeps_seq keeps_content fun cm => keeps_seq (keeps_assert trivial) fun _ => ?_
  refine keeps_seq (steady.setOther fun _ => rfl) fun _ => keeps_seq keeps_item fun x => ?_
  refine keeps_seq (keeps_when steady.dlOnOkPiece) fun _ => ?_
  exact keeps_seq keeps_content fun _ => keeps_when steady.cmWriteDone

theorem Steady.cmTestPiece {sole : Bool} (bad : Keeps whenReturns P (cmPieceBad t n piece sole)) :
    Keeps whenReturns P (cmTestPiece t n piece sole) := by
  refine keeps_call (keeps_seq steady.testPiece fun r => ?_)
  split
  · exact steady.cmOnError
  · exact steady.cmPieceOk
  · exact bad

theorem Steady.fillPiece : Keeps whenReturns P (fillPiece t n piece) := by
  refine keeps_seq keeps_content fun cm => keeps_seq (keeps_assert trivial) fun _ => ?_
  refine keeps_seq (steady.setOther fun _ => rfl) fun _ => keeps_seq steady.useStream fun err => ?_
  cases err with
  | some e => exact keeps_seq steady.cmOnError fun _ => keeps_pure
  | none => exact keeps_seq (steady.setOther fun _ => rfl) fun _ => keeps_pure

theorem Steady.fillTurn : Keeps whenReturns P (fillTurn t n piece) := by
  refine keeps_seq keeps_content fun cm => ?_
  split
  · exact keeps_pure
  · exact steady.fillPiece

theorem Steady.fillLoop (pieces : List Nat) : Keeps whenReturns P (fillLoop t n pieces) := by
  induction pieces with
  | nil => exact keeps_pure
  | cons start rest ih =>
      refine keeps_seq steady.fillTurn fun err => ?_
      cases err with
      | some e => exact keeps_pure
      | none => exact ih

theorem Steady.allocate : Keeps whenReturns P (allocate t n piece) :=
  keeps_seq (keeps_assert trivial) fun _ => steady.fillLoop _

theorem Steady.allocateNew : Keeps whenReturns P (allocateNew t n piece) := by
  refine keeps_seq keeps_content fun cm => ?_
  split
  · exact keeps_pure
  · exact steady.allocate

theorem Steady.endPieces : Keeps whenReturns P (endPieces t n) :=
  keeps_forEach fun _ _ => steady.setContent fun _ _ _ => endPiece_block

theorem Steady.activate : Keeps whenReturns P (activate t n) := by
  refine keeps_seq keeps_content fun cm => ?_
  split
  · exact steady.setOther fun _ => rfl
  · refine keeps_seq steady.openStream fun err => ?_
    cases err with
    | some e => exact steady.cmOnError
    | none => exact steady.setOther fun _ => rfl

/-- The end of a start without tests. -/
theorem Steady.startupTestEnd : Keeps whenReturns P (startupTestEnd t n false) := by
  refine keeps_seq (steady.setOther fun _ => rfl) fun _ => keeps_seq steady.endPieces fun _ => ?_
  exact keeps_seq keeps_pure fun _ => steady.activate

theorem Steady.startupTestBegin {fts : List FileTimeSize} :
    Keeps whenReturns P (startupTestBegin t n fts) := by
  refine keeps_seq keeps_content fun cm => ?_
  dsimp only
  split
  · exact keeps_modify fun s held => steady.join s _ held
  · exact steady.startupTestEnd

theorem Steady.clearTails (files : List (Nat × FileTimeSize)) (off : Nat) :
    Keeps whenReturns P (clearTails t n files off) := by
  induction files generalizing off with
  | nil => exact keeps_pure
  | cons file files ih =>
      refine keeps_seq (keeps_when (keeps_forEach fun _ _ => ?_)) fun _ => ih _
      exact steady.setContent fun _ _ _ => block_of_update

theorem Steady.cmTest {forceTest : Bool} {fts : List FileTimeSize} :
    Keeps whenReturns P (cmTest t n forceTest fts) := by
  refine keeps_seq (steady.setOther fun _ => rfl) fun _ => keeps_seq keeps_content fun cm => ?_
  refine keeps_seq (keeps_when ?_) fun _ => steady.startupTestBegin
  exact keeps_seq (steady.setOther fun _ => rfl) fun _ => steady.clearTails _ _

theorem Steady.cmStart {forceTest : Bool} : Keeps whenReturns P (cmStart t n forceTest) := by
  refine keeps_seq (steady.setOther fun _ => rfl) fun _ => keeps_seq steady.openStream fun err => ?_
  cases err with
  | some e => exact steady.cmOnError
  | none =>
      refine keeps_seq steady.onDisk fun r => ?_
      split
      · exact steady.cmOnError
      · exact steady.cmTest

theorem Steady.torrentStop : Keeps whenReturns P (torrentStop t n) := by
  refine keeps_seq keeps_item fun x => keeps_when (keeps_seq ?_ fun _ => ?_)
  · exact steady.halt (fun _ => rfl) fun _ _ => rfl
  refine keeps_seq keeps_content fun cm => keeps_seq (keeps_when steady.cmStop) fun _ => ?_
  exact keeps_seq keeps_content fun _ => keeps_when
    (steady.setState (fun _ => rfl) fun _ => rfl)

theorem Steady.tickState : Keeps whenReturns P (tickState n) := by
  refine keeps_seq keeps_item fun x => ?_
  split
  · exact keeps_when (steady.setState (fun _ => rfl) fun _ => rfl)
  · exact keeps_when (steady.setState (fun _ => rfl) fun _ => rfl)
  · exact keeps_pure

theorem Steady.torrentOnTick : Keeps whenReturns P (torrentOnTick t n) := by
  refine keeps_seq keeps_item fun x => ?_
  exact keeps_seq (keeps_when steady.torrentStop) fun _ => steady.tickState

theorem Steady.torrentStart {forceTest : Bool} :
    Keeps whenReturns P (torrentStart t n forceTest) :=
  keeps_seq (steady.halt (fun _ => rfl) fun _ _ => rfl) fun _ => steady.cmStart

/-- All events but the timer, as far as the pieces and blocks allow. -/
theorem Steady.act (other : e ≠ .work)
    (newPiece : ∀ n index, Keeps whenReturns P (dlNewPiece t n index))
    (block : ∀ n index i buf sole, Keeps whenReturns P (dlOnBlock t n index i buf sole)) :
    Keeps whenReturns P (e.act t) := by
  cases e with
  | start n forceTest => exact steady.torrentStart
  | stop n => exact steady.torrentStop
  | tick n => exact steady.torrentOnTick
  | work => exact absurd rfl other
  | newPiece n index => exact newPiece n index
  | block n index i buf sole => exact block n index i buf sole
  | read n index begin len => exact keeps_seq steady.cmGetBytes fun _ => keeps_pure

end Steady

/-! ## What no torrent matters to -/

/-- What does not change when any torrent changes. -/
structure Blind (P : Contents → Prop) : Prop extends Steady P where
  any : ∀ s n x, P s → P (s.setItem n x)

section Blind

variable (blind : Blind P)

include blind

theorem Blind.setItem {f : Item → Item} : Keeps k P (setItem n f) :=
  keeps_modify fun s held => blind.any s n _ held

theorem Blind.cmPieceBad {sole : Bool} : Keeps whenReturns P (cmPieceBad t n piece sole) := by
  refine keeps_seq blind.setItem fun _ => keeps_seq keeps_item fun x => keeps_when ?_
  refine keeps_seq blind.setItem fun _ => keeps_when ?_
  exact keeps_seq blind.pieceLogHashes fun _ => blind.setItem

theorem Blind.putBytes {begin : Nat} {buf : List UInt8} :
    Keeps whenReturns P (putBytes t n piece begin buf) := by
  refine keeps_seq keeps_content fun cm => keeps_seq (keeps_assert trivial) fun _ => ?_
  refine keeps_seq (keeps_assert trivial) fun _ => keeps_seq blind.allocateNew fun err => ?_
  cases err with
  | some e => exact keeps_pure
  | none =>
      refine keeps_seq blind.useStream fun err => ?_
      cases err with
      | some e => exact keeps_seq blind.cmOnError fun _ => keeps_pure
      | none => exact keeps_seq blind.setItem fun _ => keeps_pure

theorem Blind.cmPutBytes {begin : Nat} {buf : List UInt8} :
    Keeps whenReturns P (cmPutBytes t n piece begin buf) := by
  refine keeps_seq keeps_content fun cm => ?_
  split
  · exact keeps_pure
  · exact blind.putBytes

theorem Blind.dlOnBlock {block : Nat} {buf : List UInt8} {sole : Bool} :
    Keeps whenReturns P (dlOnBlock t n piece block buf sole) := by
  refine keeps_seq blind.cmPutBytes fun _ => keeps_seq blind.setItem fun _ => ?_
  exact keeps_seq keeps_item fun x => keeps_when (blind.cmTestPiece blind.cmPieceBad)

theorem Blind.dlNewPiece : Keeps whenReturns P (dlNewPiece t n piece) := by
  refine keeps_seq (keeps_when blind.setItem) fun _ => keeps_seq keeps_content fun cm => ?_
  exact keeps_seq (keeps_assert trivial) fun _ => blind.setItem

theorem Blind.act (other : e ≠ .work) : Keeps whenReturns P (e.act t) :=
  Steady.act blind.toSteady other (fun _ _ => blind.dlNewPiece) fun _ _ _ _ _ => blind.dlOnBlock

end Blind

end Btpd.Content
