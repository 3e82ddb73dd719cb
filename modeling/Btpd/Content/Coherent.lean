import Btpd.Content.Flat

/-!
# Streams stay where they should be

The place of a stream is kept three times: in `t_off`, in `index` with `f_off`, and in
the offset of the descriptor.  Each routine leaves the three in agreement, or with a
descriptor that `close` has been called for and that fails whenever it is used.
-/

namespace Btpd.Content

open Prog Segments

/-- The places of a stream agree. -/
inductive Coherent (lengths : List Nat) : BtStream → Prop
  | closed (index fOff : Nat) : index ≤ lengths.length →
      (fOff = 0 ∨ fOff < lengths.getD index 0) →
      Coherent lengths ⟨index, start lengths index + fOff, fOff, .none⟩
  | opened (index fOff : Nat) : fOff < lengths.getD index 0 →
      Coherent lengths ⟨index, start lengths index + fOff, fOff, .opened index fOff⟩
  | stale (index tOff fOff : Nat) : index < lengths.length →
      Coherent lengths ⟨index, tOff, fOff, .stale⟩

/-- A routine has used one stream, with these files left behind. -/
structure Moved (b : Name) (s s' : Streams) (file : Nat → File) (t : BtStream) : Prop where
  inode : s'.inode = s.inode
  choice : s'.choice = s.choice
  others : ∀ b', b' ≠ b → s'.bts b' = s.bts b'
  file : s'.file = file
  bts : s'.bts b = t

variable {lengths : List Nat} {b : Name} {s s' s'' : Streams} {file file' : Nat → File}
  {t t' : BtStream} {index i off off' len turns left pos : Nat} {buf : List UInt8}
  {callers : List Empty} {k : Contract Streams Empty Fault}

/-! ## Steps -/

/-- The streams with one of them changed. -/
def Streams.setBts (s : Streams) (b : Name) (t : BtStream) : Streams :=
  { s with bts := Function.update s.bts b t }

@[simp]
theorem Streams.setBts_self : (s.setBts b t).bts b = t := Function.update_self ..

/-- The streams after one more system call. -/
def Streams.tick (s : Streams) : Streams := { s with calls := s.calls + 1 }

@[simp]
theorem Streams.tick_bts : s.tick.bts = s.bts := rfl

theorem Moved.refl (same : s.bts b = t) : Moved b s s s.file t :=
  ⟨rfl, rfl, fun _ _ => rfl, rfl, same⟩

theorem Moved.set (moved : Moved b s s' file t) (t' : BtStream) :
    Moved b s (s'.setBts b t') file t' :=
  ⟨moved.inode, moved.choice,
    fun b' other => (Function.update_of_ne other ..).trans (moved.others b' other),
    moved.file, Function.update_self ..⟩

theorem Moved.tick (moved : Moved b s s' file t) : Moved b s s'.tick file t :=
  ⟨moved.inode, moved.choice, moved.others, moved.file, moved.bts⟩

@[simp]
theorem wp_stream {post : BtStream → Streams → Prop} :
    (stream b).wp k callers post s ↔ post (s.bts b) s := by
  simp [stream]

@[simp]
theorem wp_setStream {f : BtStream → BtStream} {post : Unit → Streams → Prop} :
    (setStream b f).wp k callers post s ↔ post () (s.setBts b (f (s.bts b))) := by
  simp [setStream, Streams.setBts]

@[simp]
theorem wp_choose {post : Choice → Streams → Prop} :
    choose.wp k callers post s ↔ post (s.choice s.calls) s.tick := by
  simp [choose, Streams.tick]

/-! ## `bts_seek` -/

theorem seekLoop_eq (ls : List Nat) (i off : Nat) :
    seekLoop ls i off = (locate ls off).map fun x => (i + x.1, x.2) := by
  induction ls generalizing i off with
  | nil => rfl
  | cons l ls ih =>
      unfold seekLoop locate
      by_cases here : off < l
      · rw [if_pos here, if_neg (Nat.not_le.mpr here)]
        rfl
      · rw [if_neg here, if_pos (Nat.not_lt.mp here), ih]
        cases locate ls (off - l) with
        | none => rfl
        | some x =>
            simp only [Option.map_some, Option.some.injEq, Prod.mk.injEq, and_true]
            omega

/-- A change of the stream. -/
theorem Moved.setStream_wp {f : BtStream → BtStream} {post : Unit → Streams → Prop}
    (moved : Moved b s s' file t) (met : ∀ s'', Moved b s s'' file (f t) → post () s'') :
    (setStream b f).wp k callers post s' :=
  wp_setStream.mpr (met _ (moved.bts ▸ moved.set _))

/-- `close` leaves a descriptor that is not used any more, whatever it gives back; on a
descriptor that is open it fails when the system says so. -/
theorem Moved.sysClose_wp {post : Option Errno → Streams → Prop}
    (moved : Moved b s s' file t)
    (met : ∀ err s'', (err ≠ none → ∀ i pos, t.fd = .opened i pos →
      (s'.choice s'.calls).fails = true) → Moved b s s'' file { t with fd := .stale } →
      post err s'') :
    (sysClose b).wp k callers post s' := by
  unfold sysClose
  rw [wp_bind, wp_stream, wp_bind, wp_choose, wp_bind, moved.bts]
  refine moved.tick.setStream_wp fun s'' moved' => ?_
  cases fd : t.fd with
  | opened i pos =>
      refine wp_pure.mpr (met _ _ (fun failed _ _ _ => ?_) moved')
      exact not_not.mp fun ok => failed (if_neg ok)
  | none => exact wp_pure.mpr (met _ _ (fun _ _ _ opened => by cases fd.symm.trans opened) moved')
  | stale =>
      exact wp_pure.mpr (met _ _ (fun _ _ _ opened => by cases fd.symm.trans opened) moved')

/-- What a search for a place leaves behind. -/
def Sought (lengths : List Nat) (b : Name) (s : Streams) (off : Nat) (err : Option Errno)
    (s' : Streams) : Prop :=
  ∃ t, Moved b s s' s.file t ∧ Coherent lengths t ∧ (err = none → t.tOff = off)

theorem place_wp (moved : Moved b s s' s.file t)
    (coherent : Coherent lengths { t with index := i, fOff := off' })
    (tOff : t.tOff = off) :
    (place b i off').wp k callers (Sought lengths b s off) s' := by
  unfold place
  rw [wp_bind]
  refine moved.setStream_wp fun s'' moved' => ?_
  exact wp_pure.mpr ⟨_, moved', coherent, fun _ => tOff⟩

theorem seekFile_wp (moved : Moved b s s' s.file ⟨index, start lengths i + off', fOff, fd⟩)
    (coherent : Coherent lengths ⟨index, tOff, fOff, fd⟩) (inside : off' < lengths.getD i 0) :
    (seekFile b i off').wp k callers (Sought lengths b s (start lengths i + off')) s' := by
  have lt := lt_length inside
  have le := Nat.le_of_lt lt
  unfold seekFile
  rw [wp_bind, wp_stream, moved.bts, wp_ite]
  by_cases same : i = index
  · subst same
    rw [if_neg (not_not_intro rfl)]
    unfold sysSeek
    rw [wp_bind, wp_bind, wp_stream, moved.bts]
    cases coherent with
    | closed _ _ _ _ => exact wp_pure.mpr (place_wp moved (.closed _ _ le (.inr inside)) rfl)
    | opened _ _ _ =>
        refine moved.setStream_wp fun s'' moved' => ?_
        exact place_wp moved' (.opened _ _ inside) rfl
    | stale _ _ _ _ => exact wp_pure.mpr (place_wp moved (.stale _ _ _ lt) rfl)
  · rw [if_pos same]
    unfold leaveFile
    rw [wp_bind, wp_stream, moved.bts, wp_ite]
    split
    case isTrue none =>
      obtain rfl : fd = .none := none
      exact place_wp moved (.closed _ _ le (.inr inside)) rfl
    case isFalse some =>
      have old : index < lengths.length := by
        cases coherent with
        | closed _ _ _ _ => exact absurd rfl some
        | opened _ _ within => exact lt_length within
        | stale _ _ _ within => exact within
      rw [wp_bind]
      refine moved.sysClose_wp fun err s₁ _ moved₁ => ?_
      cases err with
      | some e => exact wp_pure.mpr ⟨_, moved₁, .stale _ _ _ old, nofun⟩
      | none =>
          dsimp only
          rw [wp_bind]
          refine moved₁.setStream_wp fun s₂ moved₂ => ?_
          exact place_wp moved₂ (.closed _ _ le (.inr inside)) rfl

/-- Whatever file the stream has been at, it is sent to the right place of the right one. -/
theorem btsSeek_wp (coherent : Coherent lengths (s.bts b)) (lt : off < lengths.sum) :
    (btsSeek lengths b off).wp strict callers (Sought lengths b s off) s := by
  obtain ⟨i, off', found⟩ := exists_locate lt
  obtain ⟨inside, rfl⟩ := locate_eq_some.mp found
  have moved := Moved.refl (b := b) (s := s) rfl
  unfold btsSeek
  rw [wp_bind, wp_stream, wp_ite]
  split
  case isTrue there => exact wp_pure.mpr ⟨_, moved, coherent, fun _ => there⟩
  case isFalse =>
    rw [wp_bind, seekLoop_eq, found]
    refine moved.setStream_wp fun s' moved' => ?_
    dsimp only [Option.map_some]
    rw [Nat.zero_add]
    exact seekFile_wp moved' coherent inside

end Btpd.Content
