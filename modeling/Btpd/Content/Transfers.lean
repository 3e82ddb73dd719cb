import Btpd.Content.Coherent

/-!
# The loops of `bts_get` and `bts_put`

Each turn of a loop opens the file at the stream's place if none is open, transfers
bytes to the end of that file at most, and moves on.
-/

namespace Btpd.Content

open Prog Segments

variable {lengths : List Nat} {b : Name} {s s' s'' : Streams} {file file' : Nat → File}
  {t t' : BtStream} {index i off off' len turns left pos n : Nat} {buf : List UInt8}
  {callers : List Empty} {k : Contract Streams Empty Fault}

/-- A stream that has a descriptor is at one of the files. -/
theorem Coherent.index_lt (coherent : Coherent lengths t) (some : t.fd ≠ .none) :
    t.index < lengths.length := by
  cases coherent with
  | closed _ _ _ _ => exact absurd rfl some
  | opened _ _ inside => exact lt_length inside
  | stale _ _ _ lt => exact lt

/-- A stream never goes beyond the place after the last file, which it reaches with
nothing left to transfer. -/
theorem Coherent.index_le (coherent : Coherent lengths t) : t.index ≤ lengths.length ∧
    (t.index = lengths.length → t.tOff = lengths.sum ∧ t.fd = .none) := by
  cases coherent with
  | closed index fOff le within =>
      refine ⟨le, ?_⟩
      rintro rfl
      rw [List.getD_eq_default _ _ (Nat.le_refl _)] at within
      rcases within with rfl | absent
      · exact ⟨start_of_length_le (Nat.le_refl _), rfl⟩
      · cases absent
  | opened index fOff inside =>
      exact ⟨Nat.le_of_lt (lt_length inside), fun eq => absurd eq (Nat.ne_of_lt (lt_length inside))⟩
  | stale index tOff fOff lt => exact ⟨Nat.le_of_lt lt, fun eq => absurd eq (Nat.ne_of_lt lt)⟩

/-- A descriptor that is open is where the stream is. -/
theorem Coherent.opened_eq (coherent : Coherent lengths t) (i pos : Nat)
    (opened : t.fd = .opened i pos) : i = t.index ∧ t.tOff = start lengths i + pos := by
  cases coherent with
  | closed _ _ _ _ => cases opened
  | stale _ _ _ _ => cases opened
  | opened index fOff _ =>
      cases opened
      exact ⟨rfl, rfl⟩

/-! ## Opening a file -/

/-- The loop over files without bytes ends at a file with bytes, at the same place of
the whole. -/
theorem skipLoop_eq_some (inside : start lengths i < lengths.sum) :
    ∃ i', skipLoop (lengths.drop i) i = some i' ∧ start lengths i' = start lengths i ∧
      0 < lengths.getD i' 0 := by
  generalize rest : lengths.drop i = ls
  induction ls generalizing i with
  | nil =>
      rw [start_of_length_le (List.drop_eq_nil_iff.mp rest)] at inside
      exact absurd inside (Nat.lt_irrefl _)
  | cons l ls ih =>
      have next : lengths.drop (i + 1) = ls := by
        rw [← List.drop_drop, rest, List.drop_one, List.tail_cons]
      have here : lengths.getD i 0 = l := by
        rw [List.getD_eq_getElem?_getD, ← Nat.add_zero i, ← List.getElem?_drop, rest]
        rfl
      unfold skipLoop
      by_cases empty : l = 0
      · have same : start lengths (i + 1) = start lengths i := by
          rw [start_succ, here, empty, Nat.add_zero]
        rw [if_pos empty]
        obtain ⟨i', found, eq, some⟩ := ih (same ▸ inside) next
        exact ⟨i', found, eq.trans same, some⟩
      · rw [if_neg empty]
        exact ⟨i, rfl, rfl, here ▸ Nat.pos_of_ne_zero empty⟩

theorem skipLoop_of_pos (filled : 0 < lengths.getD i 0) :
    skipLoop (lengths.drop i) i = some i := by
  have lt := lt_length filled
  rw [List.getD_eq_getElem _ _ lt] at filled
  rw [List.drop_eq_getElem_cons lt, skipLoop, if_neg (Nat.ne_of_gt filled)]

/-- What the start of a turn leaves behind. -/
def Ready (lengths : List Nat) (b : Name) (s : Streams) (file : Nat → File) (off : Nat)
    (err : Option Errno) (s' : Streams) : Prop :=
  ∃ t, Moved b s s' file t ∧ Coherent lengths t ∧ t.tOff = off ∧ (err = none → t.fd ≠ .none)

/-- A file with bytes is opened at the stream's place. -/
theorem openAt_wp (moved : Moved b s s' file ⟨i, start lengths i + off, off, .none⟩)
    (inside : off < lengths.getD i 0) :
    wp k callers (do
      let err ← sysOpen b i
      match err with
      | some e => pure (some e)
      | none => do
          when (off ≠ 0) (sysSeek b off)
          pure none) (Ready lengths b s file (start lengths i + off)) s' := by
  have closed := Coherent.closed i off (Nat.le_of_lt (lt_length inside)) (.inr inside)
  unfold sysOpen
  rw [wp_bind, wp_bind, wp_choose, wp_ite]
  split
  · rw [wp_pure]
    exact wp_pure.mpr ⟨_, moved.tick, closed, rfl, nofun⟩
  · rw [wp_bind]
    refine moved.tick.setStream_wp fun s₁ moved₁ => ?_
    rw [wp_pure]
    dsimp only
    rw [wp_bind, wp_when]
    split
    case isTrue =>
      unfold sysSeek
      rw [wp_bind, wp_stream, moved₁.bts]
      refine moved₁.setStream_wp fun s₂ moved₂ => ?_
      exact wp_pure.mpr ⟨_, moved₂, .opened i off inside, rfl, fun _ => nofun⟩
    case isFalse zero =>
      obtain rfl : off = 0 := not_not.mp zero
      exact wp_pure.mpr ⟨_, moved₁, .opened i 0 inside, rfl, fun _ => nofun⟩

theorem openFile_wp (moved : Moved b s s' file t) (coherent : Coherent lengths t)
    (inside : t.tOff < lengths.sum) :
    (openFile lengths b).wp strict callers (Ready lengths b s file t.tOff) s' := by
  unfold openFile
  rw [wp_bind, wp_stream, moved.bts, wp_ite]
  split
  case isFalse some => exact wp_pure.mpr ⟨t, moved, coherent, rfl, fun _ => some⟩
  case isTrue none =>
    cases coherent with
    | opened _ _ _ => cases none
    | stale _ _ _ _ => cases none
    | closed index fOff le within =>
        -- the place of the whole is the start of the file that is found
        obtain ⟨i, found, eq, here⟩ : ∃ i, skipLoop (lengths.drop index) index = some i ∧
            start lengths i = start lengths index ∧ fOff < lengths.getD i 0 := by
          rcases within with rfl | within
          · exact skipLoop_eq_some inside
          · exact ⟨index, skipLoop_of_pos (Nat.zero_lt_of_lt within), rfl, within⟩
        unfold openNext
        rw [wp_bind, wp_stream, moved.bts]
        dsimp only
        rw [found]
        dsimp only
        rw [wp_bind]
        refine moved.setStream_wp fun s₁ moved₁ => ?_
        rw [← eq] at moved₁ ⊢
        exact openAt_wp moved₁ here

/-! ## Transfers -/

theorem wp_fileLength {post : Nat → Streams → Prop} (lt : i < lengths.length) :
    (fileLength lengths i).wp k callers post s ↔ post (lengths.getD i 0) s := by
  simp [fileLength, lt]

/-- Only a descriptor that is open reads, from its own file. -/
theorem sysRead_wp {want : Nat} {post : Except Errno (List UInt8) → Streams → Prop}
    (moved : Moved b s s' file t)
    (failed : ∀ e s'', Moved b s s'' file t → post (.error e) s'')
    (read : ∀ i pos n s'', t.fd = .opened i pos → n ≤ want →
      Moved b s s'' file { t with fd := .opened i (pos + n) } →
      post (.ok ((file i).read pos n)) s'') :
    (sysRead b want).wp k callers post s' := by
  unfold sysRead
  rw [wp_bind, wp_stream, wp_bind, wp_choose, wp_bind, wp_get, moved.bts]
  cases fd : t.fd with
  | none => exact wp_pure.mpr (failed _ _ moved.tick)
  | stale => exact wp_pure.mpr (failed _ _ moved.tick)
  | opened i pos =>
      dsimp only
      rw [wp_ite]
      split
      · exact wp_pure.mpr (failed _ _ moved.tick)
      · rw [wp_bind, moved.tick.file]
        refine moved.tick.setStream_wp fun s₁ moved₁ => ?_
        exact wp_pure.mpr (read i pos _ s₁ fd
          (Nat.le_trans (Nat.min_le_left ..) (Nat.min_le_right ..)) moved₁)

/-- Only a descriptor that is open writes, to its own file. -/
theorem sysWrite_wp {post : Except Errno Nat → Streams → Prop} (moved : Moved b s s' file t)
    (failed : ∀ e s'', Moved b s s'' file t → post (.error e) s'')
    (written : ∀ i pos n s'', t.fd = .opened i pos → n ≤ buf.length → (buf ≠ [] → 0 < n) →
      Moved b s s'' (replaceFile s.inode file i ((file i).write pos (buf.take n)))
        { t with fd := .opened i (pos + n) } → post (.ok n) s'') :
    (sysWrite b buf).wp k callers post s' := by
  unfold sysWrite
  rw [wp_bind, wp_stream, wp_bind, wp_choose, moved.bts]
  cases fd : t.fd with
  | none => exact wp_pure.mpr (failed _ _ moved.tick)
  | stale => exact wp_pure.mpr (failed _ _ moved.tick)
  | opened i pos =>
      dsimp only
      rw [wp_ite]
      split
      · exact wp_pure.mpr (failed _ _ moved.tick)
      · have most := Nat.min_le_right ((s'.choice s'.calls).count + 1) buf.length
        have least (filled : buf ≠ []) : 0 < min ((s'.choice s'.calls).count + 1) buf.length :=
          Nat.lt_min.mpr ⟨Nat.succ_pos _, List.length_pos_iff.mpr filled⟩
        generalize min ((s'.choice s'.calls).count + 1) buf.length = n at most least ⊢
        rw [wp_bind, wp_modify, moved.tick.file, wp_bind]
        have wrote : Moved b s (s'.tick.setFile i ((file i).write pos (buf.take n)))
            (replaceFile s.inode file i ((file i).write pos (buf.take n))) t := by
          refine ⟨moved.inode, moved.choice, moved.others, ?_, moved.bts⟩
          rw [Streams.setFile_file, moved.tick.inode, moved.tick.file]
        refine wrote.setStream_wp fun s₁ moved₁ => ?_
        exact wp_pure.mpr (written i pos n s₁ fd most least moved₁)

/-- A stream at the end of its file goes on to the next one. -/
theorem Coherent.next (lt : index < lengths.length) :
    Coherent lengths ⟨index + 1, start lengths index + lengths.getD index 0, 0, .none⟩ := by
  have closed := Coherent.closed (index + 1) 0 lt (.inl rfl)
  rw [start_succ] at closed
  exact closed

/-- What the end of a turn leaves behind. -/
def Turned (lengths : List Nat) (b : Name) (s : Streams) (file : Nat → File) (off : Nat)
    (s' : Streams) : Prop :=
  ∃ t, Moved b s s' file t ∧ Coherent lengths t ∧ t.tOff = off

theorem endOfRead_wp (moved : Moved b s s' file ⟨index, off, pos, .opened index pos⟩)
    (place : off = start lengths index + pos) (le : pos ≤ lengths.getD index 0)
    (lt : index < lengths.length) :
    (endOfRead b (lengths.getD index 0)).wp k callers
      (fun _ => Turned lengths b s file off) s' := by
  subst place
  unfold endOfRead
  rw [wp_bind, wp_stream, wp_when, moved.bts]
  split
  case isTrue ended =>
    obtain rfl : pos = lengths.getD index 0 := ended
    rw [wp_bind]
    refine moved.sysClose_wp fun err s₁ _ moved₁ => ?_
    refine moved₁.setStream_wp fun s₂ moved₂ => ?_
    exact ⟨_, moved₂, .next lt, rfl⟩
  case isFalse more =>
    exact ⟨_, moved, .opened index pos (Nat.lt_of_le_of_ne le more), rfl⟩

/-- What `bts_put` leaves behind at the end of a turn; if `close` fails the stream stays
at its file. -/
theorem endOfWrite_wp (moved : Moved b s s' file ⟨index, off, pos, .opened index pos⟩)
    (place : off = start lengths index + pos) (le : pos ≤ lengths.getD index 0)
    (lt : index < lengths.length) :
    (endOfWrite b (lengths.getD index 0)).wp k callers
      (fun _ => Turned lengths b s file off) s' := by
  subst place
  unfold endOfWrite
  rw [wp_bind, wp_stream, moved.bts, wp_ite]
  split
  case isTrue ended =>
    obtain rfl : pos = lengths.getD index 0 := ended
    rw [wp_bind]
    refine moved.sysClose_wp fun err s₁ _ moved₁ => ?_
    cases err with
    | some e => exact wp_pure.mpr ⟨_, moved₁, .stale _ _ _ lt, rfl⟩
    | none =>
        dsimp only
        unfold nextFile
        rw [wp_bind]
        refine moved₁.setStream_wp fun s₂ moved₂ => ?_
        exact wp_pure.mpr ⟨_, moved₂, .next lt, rfl⟩
  case isFalse more =>
    exact wp_pure.mpr ⟨_, moved, .opened index pos (Nat.lt_of_le_of_ne le more), rfl⟩

/-- What `bts_get` leaves behind: the files are as they were, and the bytes follow those
that it has got already. -/
def Got (lengths : List Nat) (b : Name) (s : Streams) (file : Nat → File) (off left : Nat)
    (buf : List UInt8) (r : Except Errno (List UInt8)) (s' : Streams) : Prop :=
  (∃ t, Moved b s s' file t ∧ Coherent lengths t) ∧
    ∀ out, r = .ok out → out = buf ++ (flat lengths file).slice off left

theorem Got.done (moved : Moved b s s' file t) (coherent : Coherent lengths t) :
    Got lengths b s file t.tOff 0 buf (.ok buf) s' := by
  refine ⟨⟨t, moved, coherent⟩, ?_⟩
  rintro out ⟨⟩
  rw [Flat.slice_zero, List.append_nil]

theorem getLoop_wp (moved : Moved b s s' file t) (coherent : Coherent lengths t)
    (enough : left ≤ turns) (inside : t.tOff + left ≤ lengths.sum) :
    (getLoop lengths b turns left buf).wp strict callers
      (Got lengths b s file t.tOff left buf) s' := by
  induction turns generalizing left buf s' t with
  | zero =>
      obtain rfl : left = 0 := Nat.le_zero.mp enough
      exact wp_pure.mpr (.done moved coherent)
  | succ turns ih =>
      unfold getLoop
      rw [wp_ite]
      by_cases some : left = 0
      · subst some
        rw [if_pos rfl]
        exact wp_pure.mpr (.done moved coherent)
      rw [if_neg some]
      refine wp_seq (openFile_wp moved coherent (by omega)) ?_
      rintro err s₁ ⟨t₁, moved₁, coherent₁, tOff, opened⟩
      rw [← tOff] at inside ⊢
      cases err with
      | some e => exact wp_pure.mpr ⟨⟨t₁, moved₁, coherent₁⟩, nofun⟩
      | none =>
          have lt := coherent₁.index_lt (opened rfl)
          dsimp only
          rw [wp_bind, wp_stream, wp_bind, moved₁.bts, wp_fileLength lt, wp_bind]
          refine sysRead_wp moved₁ ?_ ?_
          · intro e s₂ moved₂
            exact wp_pure.mpr ⟨⟨t₁, moved₂, coherent₁⟩, nofun⟩
          intro i fOff n s₂ fd most moved₂
          cases coherent₁ with
          | closed _ _ _ _ => cases fd
          | stale _ _ _ _ => cases fd
          | opened _ _ within =>
              cases fd
              have size : ((file i).read fOff n).length = n := by
                rw [File.read, List.length_map, List.length_range]
              dsimp only at most lt ⊢
              have le : fOff + n ≤ lengths.getD i 0 := by omega
              rw [wp_bind, size]
              refine moved₂.setStream_wp fun s₃ moved₃ => ?_
              refine wp_seq (endOfRead_wp moved₃ (Nat.add_assoc ..) le lt) ?_
              rintro _ s₄ ⟨t₄, moved₄, coherent₄, tOff₄⟩
              rw [wp_ite]
              split
              · exact wp_pure.mpr ⟨⟨t₄, moved₄, coherent₄⟩, nofun⟩
              case isFalse full =>
                obtain rfl : n = min left (lengths.getD i 0 - fOff) := not_not.mp full
                dsimp only at tOff₄ inside ⊢
                refine wp_mono (ih moved₄ coherent₄ (by omega) (by omega)) ?_
                rintro r s₅ ⟨settled, got⟩
                refine ⟨settled, fun out ok => ?_⟩
                rw [got out ok, tOff₄, read_eq_slice le, List.append_assoc, ← Flat.slice_add,
                  Nat.add_sub_cancel' (Nat.min_le_left ..)]

/-- What `bts_put` leaves behind: the first bytes have been put, and all of them if it
gives back no error; where an entry shares its file, others may have changed as well. -/
def Put (lengths : List Nat) (b : Name) (s : Streams) (file : Nat → File) (off : Nat)
    (buf : List UInt8) (err : Option Errno) (s' : Streams) : Prop :=
  ∃ t m, Moved b s s' s'.file t ∧ Coherent lengths t ∧
    (s.Apart lengths → flat lengths s'.file = (flat lengths file).put off (buf.take m)) ∧
    (err = none → buf.length ≤ m)

/-- Nothing has been put. -/
theorem Put.none (moved : Moved b s s' file t) (coherent : Coherent lengths t)
    {err : Option Errno} (empty : err = .none → buf = []) :
    Put lengths b s file off buf err s' := by
  have same := moved.file
  subst same
  refine ⟨t, 0, moved, coherent, fun _ => ?_, fun eq => ?_⟩
  · rw [List.take_zero, Flat.put_nil]
  · rw [empty eq]
    exact Nat.le_refl _

/-- Some bytes have been put before. -/
theorem Put.after (le : n ≤ buf.length)
    (first : s.Apart lengths → flat lengths file' = (flat lengths file).put off (buf.take n))
    {err : Option Errno}
    (put : Put lengths b s file' (off + n) (buf.drop n) err s') :
    Put lengths b s file off buf err s' := by
  obtain ⟨t, m, moved, coherent, same, all⟩ := put
  refine ⟨t, n + m, moved, coherent, fun apart => ?_, fun eq => ?_⟩
  · have size : (buf.take n).length = n := List.length_take_of_le le
    have next : ((flat lengths file).put off (buf.take n)).put (off + (buf.take n).length)
        ((buf.drop n).take m) =
        (flat lengths file).put off (buf.take n ++ (buf.drop n).take m) := Flat.put_append
    rw [size] at next
    rw [same apart, first apart, next, List.take_add]
  · have rest := all eq
    rw [List.length_drop] at rest
    omega

theorem putLoop_wp (moved : Moved b s s' file t) (coherent : Coherent lengths t)
    (enough : buf.length ≤ turns) (inside : t.tOff + buf.length ≤ lengths.sum) :
    (putLoop lengths b turns buf).wp strict callers (Put lengths b s file t.tOff buf) s' := by
  induction turns generalizing buf s' t file with
  | zero =>
      obtain rfl : buf = [] := List.length_eq_zero_iff.mp (Nat.le_zero.mp enough)
      exact wp_pure.mpr (.none moved coherent fun _ => rfl)
  | succ turns ih =>
      unfold putLoop
      rw [wp_ite]
      by_cases empty : buf = []
      · rw [if_pos empty]
        exact wp_pure.mpr (.none moved coherent fun _ => empty)
      rw [if_neg empty]
      have filled : 0 < buf.length := List.length_pos_iff.mpr empty
      refine wp_seq (openFile_wp moved coherent (by omega)) ?_
      rintro err s₁ ⟨t₁, moved₁, coherent₁, tOff, opened⟩
      rw [← tOff] at inside ⊢
      cases err with
      | some e => exact wp_pure.mpr (.none moved₁ coherent₁ nofun)
      | none =>
          have lt := coherent₁.index_lt (opened rfl)
          dsimp only
          rw [wp_bind, wp_stream, wp_bind, moved₁.bts, wp_fileLength lt, wp_bind]
          refine sysWrite_wp moved₁ ?_ ?_
          · intro e s₂ moved₂
            exact wp_pure.mpr (.none moved₂ coherent₁ nofun)
          intro i fOff n s₂ fd most least moved₂
          cases coherent₁ with
          | closed _ _ _ _ => cases fd
          | stale _ _ _ _ => cases fd
          | opened _ _ within =>
              cases fd
              dsimp only at most least lt moved₂ inside ⊢
              rw [List.length_take] at most
              have le : n ≤ buf.length := by omega
              have bound : fOff + n ≤ lengths.getD i 0 := by omega
              have some : 0 < n := by
                refine least fun eq => ?_
                have zero := congrArg List.length eq
                rw [List.length_take, List.length_nil] at zero
                omega
              rw [List.take_take, Nat.min_eq_left (by omega)] at moved₂
              have size : (buf.take n).length = n := List.length_take_of_le le
              have written (apart : s.Apart lengths) : flat lengths
                  (replaceFile s.inode file i ((file i).write fOff (buf.take n))) =
                  (flat lengths file).put (start lengths i + fOff) (buf.take n) :=
                (flat_replaceFile apart lt).trans (flat_write (size.symm ▸ bound))
              rw [wp_bind]
              refine moved₂.setStream_wp fun s₃ moved₃ => ?_
              refine wp_seq (endOfWrite_wp moved₃ (Nat.add_assoc ..) bound lt) ?_
              rintro err s₄ ⟨t₄, moved₄, coherent₄, tOff₄⟩
              dsimp only at tOff₄
              cases err with
              | some e =>
                  refine wp_pure.mpr ⟨t₄, n, ?_, coherent₄, ?_, nofun⟩
                  · rw [moved₄.file]
                    exact moved₄
                  · rw [moved₄.file]
                    exact written
              | none =>
                  have left : (buf.drop n).length = buf.length - n := List.length_drop
                  dsimp only
                  refine wp_mono (ih moved₄ coherent₄ (by omega) (by omega)) ?_
                  intro r s₅ put
                  rw [tOff₄] at put
                  exact .after le written put

/-! ## Calls -/

theorem btsGet_wp (coherent : Coherent lengths (s.bts b)) (inside : off + len ≤ lengths.sum)
    (some : 0 < len) :
    (btsGet lengths b off len).wp strict callers (Got lengths b s s.file off len []) s := by
  unfold btsGet
  rw [wp_bind, wp_assert, if_pos inside]
  refine wp_seq (btsSeek_wp coherent (by omega)) ?_
  rintro err s₁ ⟨t, moved, coherent₁, there⟩
  cases err with
  | some e => exact wp_pure.mpr ⟨⟨t, moved, coherent₁⟩, nofun⟩
  | none =>
      obtain rfl := there rfl
      exact getLoop_wp moved coherent₁ (Nat.le_refl _) inside

theorem btsPut_wp (coherent : Coherent lengths (s.bts b))
    (inside : off + buf.length ≤ lengths.sum) (some : buf ≠ []) :
    (btsPut lengths b off buf).wp strict callers (Put lengths b s s.file off buf) s := by
  have filled := List.length_pos_iff.mpr some
  unfold btsPut
  rw [wp_bind, wp_assert, if_pos inside]
  refine wp_seq (btsSeek_wp coherent (by omega)) ?_
  rintro err s₁ ⟨t, moved, coherent₁, there⟩
  cases err with
  | some e => exact wp_pure.mpr (.none moved coherent₁ nofun)
  | none =>
      obtain rfl := there rfl
      exact putLoop_wp moved coherent₁ (Nat.le_refl _) inside

/-- What the callers see to: something is transferred, and it is within the files. -/
def Event.Valid (lengths : List Nat) : Event → Prop
  | .get off len => 0 < len ∧ off + len ≤ lengths.sum
  | .put off buf => buf ≠ [] ∧ off + buf.length ≤ lengths.sum

theorem Moved.apart (moved : Moved b s s' file t) (apart : s.Apart lengths) :
    s'.Apart lengths := by
  unfold Streams.Apart
  rw [moved.inode]
  exact apart

/-- One stream has been used, and both are coherent. -/
theorem coherent_of_moved (coherent : ∀ b, Coherent lengths (s.bts b))
    (moved : Moved b s s' file t) (used : Coherent lengths t) (b' : Name) :
    Coherent lengths (s'.bts b') := by
  by_cases same : b' = b
  · rw [same, moved.bts]
    exact used
  · rw [moved.others b' same]
    exact coherent b'

theorem handle_wp {e : Event} (valid : e.Valid lengths) (apart : s.Apart lengths)
    (coherent : ∀ b, Coherent lengths (s.bts b)) :
    (handle lengths e).wp strict callers (fun reply s' =>
      Flat.Step (flat lengths s.file) e reply (flat lengths s'.file) ∧ s'.Apart lengths ∧
        ∀ b, Coherent lengths (s'.bts b)) s := by
  cases e with
  | get off len =>
      refine wp_seq (btsGet_wp (coherent .rds) valid.2 valid.1) ?_
      rintro r s' ⟨⟨t, moved, used⟩, got⟩
      refine wp_pure.mpr ⟨?_, moved.apart apart, coherent_of_moved coherent moved used⟩
      rw [moved.file]
      cases r with
      | error e => exact .getFailed ..
      | ok out =>
          obtain rfl := got out rfl
          exact .got ..
  | put off buf =>
      refine wp_seq (btsPut_wp (coherent .wrs) valid.2 valid.1) ?_
      rintro err s' ⟨t, m, moved, used, put, all⟩
      refine wp_pure.mpr ⟨?_, moved.apart apart, coherent_of_moved coherent moved used⟩
      rw [put apart]
      cases err with
      | some e => exact .putFailed ..
      | none =>
          rw [List.take_of_length_le (all rfl)]
          exact .done ..

theorem run_wp {events : List Event} (valid : ∀ e ∈ events, e.Valid lengths)
    (apart : s.Apart lengths) (coherent : ∀ b, Coherent lengths (s.bts b)) :
    (run lengths events).wp strict callers (fun replies s' =>
      Flat.Run (flat lengths s.file) events replies (flat lengths s'.file) ∧
        ∀ b, Coherent lengths (s'.bts b)) s := by
  induction events generalizing s with
  | nil => exact wp_pure.mpr ⟨.nil _, coherent⟩
  | cons e events ih =>
      refine wp_seq (handle_wp (valid e List.mem_cons_self) apart coherent) ?_
      rintro reply s₁ ⟨step, apart₁, coherent₁⟩
      refine wp_seq (ih (fun e mem => valid e (List.mem_cons_of_mem _ mem)) apart₁ coherent₁) ?_
      rintro replies s₂ ⟨steps, coherent₂⟩
      exact wp_pure.mpr ⟨.cons step steps, coherent₂⟩

theorem coherent_opened : Coherent lengths .opened :=
  .closed 0 0 (Nat.zero_le _) (.inl rfl)

/-- Any calls on the two streams, whatever the system calls come to, read no entry
outside `files` and do to the files what they would do to a flat array.  A stream
reaches the index behind the last file only when it has come to the end of the whole,
and its descriptor, if it is open, is where the stream is. -/
theorem flat_of_run (lengths : List Nat) (file : Nat → File) (choice : Nat → Choice)
    (events : List Event) (valid : ∀ e ∈ events, e.Valid lengths) :
    ∃ replies s', (run lengths events [] (Streams.init file choice)).2 = .ok (replies, s') ∧
      Flat.Run (flat lengths file) events replies (flat lengths s'.file) ∧
      ∀ b, (s'.bts b).index ≤ lengths.length ∧
        ((s'.bts b).index = lengths.length →
          (s'.bts b).tOff = lengths.sum ∧ (s'.bts b).fd = .none) ∧
        ∀ i pos, (s'.bts b).fd = .opened i pos →
          i = (s'.bts b).index ∧ (s'.bts b).tOff = start lengths i + pos := by
  have sound : ∀ b, Coherent lengths ((Streams.init file choice).bts b) := fun _ => coherent_opened
  have apart : (Streams.init file choice).Apart lengths := Function.injective_id.injOn
  obtain ⟨replies, s', ended, steps, coherent⟩ := returned_of_strict (run_wp valid apart sound)
  refine ⟨replies, s', ended, steps, fun b => ?_⟩
  obtain ⟨le, last⟩ := (coherent b).index_le
  exact ⟨le, last, (coherent b).opened_eq⟩

/-- One byte in the file behind an empty one is written and read again. -/
theorem flat_of_run_oneByte : ∃ replies s',
    (run [0, 1] [.put 0 [7], .get 0 1] []
      (Streams.init (fun _ => ⟨0, fun _ => 0⟩) fun _ => ⟨false, 0, 1⟩)).2 = .ok (replies, s') ∧
    Flat.Run (flat [0, 1] fun _ => ⟨0, fun _ => 0⟩) [.put 0 [7], .get 0 1] replies
      (flat [0, 1] s'.file) ∧
    ∀ b, (s'.bts b).index ≤ [0, 1].length ∧
      ((s'.bts b).index = [0, 1].length → (s'.bts b).tOff = [0, 1].sum ∧ (s'.bts b).fd = .none) ∧
      ∀ i pos, (s'.bts b).fd = .opened i pos →
        i = (s'.bts b).index ∧ (s'.bts b).tOff = start [0, 1] i + pos :=
  flat_of_run [0, 1] _ _ [.put 0 [7], .get 0 1] (by
    intro e mem
    rcases List.mem_cons.mp mem with rfl | mem
    · exact ⟨nofun, by decide⟩
    · rcases List.mem_singleton.mp mem with rfl
      exact ⟨by decide, by decide⟩)

/-- After the last byte has been put the index is that behind the last file. -/
theorem not_index_lt_of_run : ¬ ∀ (lengths : List Nat) (file : Nat → File)
    (choice : Nat → Choice) (events : List Event), (∀ e ∈ events, e.Valid lengths) →
    ∀ replies s', (run lengths events [] (Streams.init file choice)).2 = .ok (replies, s') →
      ∀ b, (s'.bts b).index < lengths.length := by
  intro within
  have lt := within [1] (fun _ => ⟨0, fun _ => 0⟩) (fun _ => ⟨false, 0, 0⟩) [.put 0 [7]]
    (by
      intro e mem
      rcases List.mem_singleton.mp mem with rfl
      exact ⟨nofun, by decide⟩) _ _ rfl .wrs
  exact absurd lt (by decide)

end Btpd.Content
