import Btpd.Content.Daemon

/-!
# What the streams do for the content code

Every use of a stream leaves both streams coherent; only `bts_put` changes the bytes of
the files.  A routine of the content code that works for one torrent changes only what
belongs to that torrent.
-/

namespace Btpd.Content

open Prog Segments

variable {lengths : List Nat} {d d' : Streams} {b : Name} {off len turns : Nat}
  {buf : List UInt8} {callers : List Empty}

/-! ## Streams -/

/-- Both streams are coherent. -/
def Streams.Sound (lengths : List Nat) (d : Streams) : Prop := ∀ b, Coherent lengths (d.bts b)

/-- The files with these streams are as before. -/
structure Streams.Same (lengths : List Nat) (d d' : Streams) : Prop where
  sound : d'.Sound lengths
  inode : d'.inode = d.inode
  file : d'.file = d.file

/-- These files have been cut at most, and where entries are different files only what is
beyond the ends of the entries is gone. -/
structure Streams.Cut (lengths : List Nat) (file : Nat → File) (d : Streams) : Prop where
  cut : ∀ i, ∃ length, d.file i = (file i).truncate length
  flat : d.Apart lengths → flat lengths d.file = flat lengths file

/-- The files with these streams have been cut at most. -/
structure Streams.Near (lengths : List Nat) (d d' : Streams) : Prop
    extends d'.Cut lengths d.file where
  sound : d'.Sound lengths
  inode : d'.inode = d.inode

/-- The files differ at most at these places, where entries are different files. -/
structure Streams.Outside (lengths : List Nat) (P : Nat → Prop) (d d' : Streams) : Prop where
  inode : d'.inode = d.inode
  flat : d.Apart lengths → ∀ o, ¬ P o → flat lengths d'.file o = flat lengths d.file o

theorem Streams.Apart.of_inode (apart : d.Apart lengths) (same : d'.inode = d.inode) :
    d'.Apart lengths := by
  unfold Streams.Apart
  rw [same]
  exact apart

theorem Streams.Same.refl (sound : d.Sound lengths) : d.Same lengths d := ⟨sound, rfl, rfl⟩

theorem Streams.Same.trans {d'' : Streams} (first : d.Same lengths d')
    (second : d'.Same lengths d'') : d.Same lengths d'' :=
  ⟨second.sound, second.inode.trans first.inode, second.file.trans first.file⟩

theorem Streams.Same.flat (same : d.Same lengths d') :
    flat lengths d'.file = flat lengths d.file :=
  congrArg _ same.file

theorem File.truncate_size {f : File} : f.truncate f.size = f := by
  rw [File.truncate, Nat.min_self]

theorem File.truncate_truncate {f : File} {m n : Nat} :
    (f.truncate m).truncate n = f.truncate (min m n) := by
  rw [File.truncate, File.truncate, File.truncate, Nat.min_assoc]

theorem Streams.Cut.refl : d.Cut lengths d.file :=
  ⟨fun i => ⟨(d.file i).size, File.truncate_size.symm⟩, fun _ => rfl⟩

theorem Streams.Same.near (same : d.Same lengths d') : d.Near lengths d' := by
  refine ⟨?_, same.sound, same.inode⟩
  rw [← same.file]
  exact .refl

theorem Streams.Near.data (near : d.Near lengths d') (apart : d.Apart lengths) :
    Content.flat lengths d'.file = Content.flat lengths d.file :=
  near.flat (apart.of_inode near.inode)

theorem Streams.Near.cutFrom {file : Nat → File} (near : d.Near lengths d')
    (before : d.Cut lengths file) : d'.Cut lengths file where
  cut i := by
    obtain ⟨first, eq⟩ := before.cut i
    obtain ⟨second, eq'⟩ := near.cut i
    exact ⟨min first second, by rw [eq', eq, File.truncate_truncate]⟩
  flat apart := (near.flat apart).trans (before.flat (apart.of_inode near.inode.symm))

theorem Streams.Near.trans {d'' : Streams} (first : d.Near lengths d')
    (second : d'.Near lengths d'') : d.Near lengths d'' :=
  ⟨second.cutFrom first.toCut, second.sound, second.inode.trans first.inode⟩

theorem same_of_moved {t : BtStream} (sound : d.Sound lengths) (moved : Moved b d d' d.file t)
    (used : Coherent lengths t) : d.Same lengths d' :=
  ⟨coherent_of_moved sound moved used, moved.inode, moved.file⟩

theorem btsGet_same (sound : d.Sound lengths) (inside : off + len ≤ lengths.sum)
    (some : 0 < len) :
    (btsGet lengths b off len).wp strict callers (fun r d' => d.Same lengths d' ∧
      ∀ out, r = .ok out → out = (flat lengths d.file).slice off len) d := by
  refine wp_mono (btsGet_wp (sound b) inside some) ?_
  rintro r d' ⟨⟨t, moved, used⟩, got⟩
  exact ⟨same_of_moved sound moved used, got⟩

theorem shaLoop_same {data : List UInt8} (sound : d.Sound lengths) (enough : len ≤ turns)
    (inside : off + len ≤ lengths.sum) :
    (shaLoop lengths b turns off len data).wp strict callers (fun r d' => d.Same lengths d' ∧
      ∀ out, r = .ok out → out = data ++ (flat lengths d.file).slice off len) d := by
  induction turns generalizing off len data d with
  | zero =>
      obtain rfl : len = 0 := Nat.le_zero.mp enough
      refine wp_pure.mpr ⟨.refl sound, ?_⟩
      rintro out ⟨⟩
      exact (List.append_nil _).symm
  | succ turns ih =>
      unfold shaLoop
      rw [wp_ite]
      split
      case isTrue done =>
        subst done
        refine wp_pure.mpr ⟨.refl sound, ?_⟩
        rintro out ⟨⟩
        exact (List.append_nil _).symm
      case isFalse more =>
        have most : min len shaFileBuf ≤ len := Nat.min_le_left ..
        have least : 0 < min len shaFileBuf :=
          Nat.lt_min.mpr ⟨Nat.pos_of_ne_zero more, by decide⟩
        dsimp only
        generalize min len shaFileBuf = n at most least ⊢
        refine wp_seq (btsGet_same sound (by omega) least) ?_
        rintro r d₁ ⟨same, got⟩
        cases r with
        | error e => exact wp_pure.mpr ⟨same, nofun⟩
        | ok out₁ =>
            obtain rfl := got out₁ rfl
            refine wp_mono (ih same.sound (by omega) (by omega)) ?_
            rintro r d₂ ⟨same₂, got₂⟩
            refine ⟨same.trans same₂, fun out ok => ?_⟩
            rw [got₂ out ok, same.flat, List.append_assoc, ← Flat.slice_add,
              Nat.add_sub_cancel' most]

/-- A hash is that of the bytes. -/
theorem btsSha_same {sha1 : List UInt8 → List UInt8} (sound : d.Sound lengths)
    (inside : off + len ≤ lengths.sum) :
    (btsSha lengths sha1 b off len).wp strict callers (fun r d' => d.Same lengths d' ∧
      ∀ out, r = .ok out → out = sha1 ((flat lengths d.file).slice off len)) d := by
  unfold btsSha
  refine wp_seq (shaLoop_same sound (Nat.le_refl _) inside) ?_
  rintro r d' ⟨same, got⟩
  refine wp_pure.mpr ⟨same, ?_⟩
  cases r with
  | error e => exact nofun
  | ok data =>
      obtain rfl := got data rfl
      rintro out ⟨⟩
      rfl

theorem btsOpen_same (sound : d.Sound lengths) :
    (btsOpen b).wp strict callers (fun _ d' => d.Same lengths d') d := by
  have moved := Moved.refl (b := b) (s := d) rfl
  unfold btsOpen
  rw [wp_bind, wp_choose, wp_ite]
  split
  · exact wp_pure.mpr (same_of_moved sound moved.tick (sound b))
  · rw [wp_bind]
    refine moved.tick.setStream_wp fun d' moved' => ?_
    exact wp_pure.mpr (same_of_moved sound moved' coherent_opened)

/-- The close of a stream will fail. -/
def CloseFails (d : Streams) (b : Name) : Prop :=
  (d.bts b).fd = .stale ∨ (d.bts b).fd ≠ .none ∧ (d.choice d.calls).fails

instance : Decidable (CloseFails d b) := by
  unfold CloseFails
  infer_instance

theorem btsClose_same (sound : d.Sound lengths) :
    (btsClose b).wp strict callers (fun err d' => d.Same lengths d' ∧
      (err ≠ none → CloseFails d b)) d := by
  have moved := Moved.refl (b := b) (s := d) rfl
  unfold btsClose
  rw [wp_bind, wp_stream, wp_ite]
  split
  case isTrue => exact wp_pure.mpr ⟨.refl sound, fun failed => absurd rfl failed⟩
  case isFalse some =>
    refine moved.sysClose_wp fun err d' why moved' => ?_
    refine ⟨same_of_moved sound moved' (.stale _ _ _ ((sound b).index_lt some)),
      fun failed => ?_⟩
    cases fd : (d.bts b).fd with
    | none => exact absurd fd some
    | stale => exact .inl fd
    | opened i pos => exact .inr ⟨some, why failed i pos fd⟩

/-- `bts_put` changes at most the bytes it is given a place for. -/
theorem btsPut_outside (sound : d.Sound lengths) (inside : off + buf.length ≤ lengths.sum)
    (some : buf ≠ []) :
    (btsPut lengths b off buf).wp strict callers (fun _ d' => d'.Sound lengths ∧
      d.Outside lengths (fun o => off ≤ o ∧ o < off + buf.length) d') d := by
  refine wp_mono (btsPut_wp (sound b) inside some) ?_
  rintro err d' ⟨t, m, moved, used, put, -⟩
  refine ⟨coherent_of_moved sound moved used, moved.inode, fun apart o out => ?_⟩
  rw [put apart]
  refine if_neg fun within => out ⟨within.1, Nat.lt_of_lt_of_le within.2 ?_⟩
  exact Nat.add_le_add_left (List.length_take_le' ..) _

theorem Streams.Outside.trans {P Q : Nat → Prop} {d'' : Streams}
    (first : d.Outside lengths P d') (second : d'.Outside lengths Q d'') :
    d.Outside lengths (fun o => P o ∨ Q o) d'' where
  inode := second.inode.trans first.inode
  flat apart o out := (second.flat (apart.of_inode first.inode) o fun q => out (.inr q)).trans
    (first.flat apart o fun p => out (.inl p))

theorem Streams.Outside.mono {P Q : Nat → Prop} (outside : d.Outside lengths P d')
    (more : ∀ o, P o → Q o) : d.Outside lengths Q d' :=
  ⟨outside.inode, fun apart o out => outside.flat apart o fun p => out (more o p)⟩

theorem Streams.Outside.refl {P : Nat → Prop} : d.Outside lengths P d := ⟨rfl, fun _ _ _ => rfl⟩

theorem zeroLoop_outside (sound : d.Sound lengths) (enough : len ≤ turns)
    (inside : off + len ≤ lengths.sum) :
    (zeroLoop lengths turns off len).wp strict callers (fun _ d' => d'.Sound lengths ∧
      d.Outside lengths (fun o => off ≤ o ∧ o < off + len) d') d := by
  induction turns generalizing off len d with
  | zero =>
      obtain rfl : len = 0 := Nat.le_zero.mp enough
      exact wp_pure.mpr ⟨sound, .refl⟩
  | succ turns ih =>
      unfold zeroLoop
      rw [wp_ite]
      split
      case isTrue => exact wp_pure.mpr ⟨sound, .refl⟩
      case isFalse more =>
        have most : min zeroBufLen len ≤ len := Nat.min_le_right ..
        have least : 0 < min zeroBufLen len :=
          Nat.lt_min.mpr ⟨by decide, Nat.pos_of_ne_zero more⟩
        dsimp only
        generalize min zeroBufLen len = n at most least ⊢
        have size : (List.replicate n (0 : UInt8)).length = n := List.length_replicate
        have some : List.replicate n (0 : UInt8) ≠ [] :=
          List.ne_nil_of_length_pos (size.symm ▸ least)
        refine wp_seq (btsPut_outside sound (by omega) some) ?_
        rintro err d₁ ⟨sound₁, first⟩
        rw [size] at first
        cases err with
        | some e =>
            refine wp_pure.mpr ⟨sound₁, first.mono fun o within => ?_⟩
            exact ⟨within.1, by omega⟩
        | none =>
            refine wp_mono (ih sound₁ (by omega) (by omega)) ?_
            rintro err d₂ ⟨sound₂, second⟩
            refine ⟨sound₂, (first.trans second).mono fun o within => ?_⟩
            omega

/-! ## Files -/

theorem flat_truncate {file : Nat → File} {i : Nat} :
    flat lengths (Function.update file i ((file i).truncate (lengths.getD i 0))) =
      flat lengths file := by
  funext o
  unfold flat
  rcases found : locate lengths o with - | ⟨j, o'⟩
  · rfl
  · obtain ⟨lt, -⟩ := locate_eq_some.mp found
    dsimp only
    by_cases same : j = i
    · subst same
      rw [Function.update_self]
      unfold File.get File.truncate
      by_cases old : o' < (file j).size
      · rw [if_pos (Nat.lt_min.mpr ⟨old, lt⟩), if_pos old]
      · rw [if_neg old, if_neg fun new => old (Nat.lt_min.mp new).1]
    · rw [Function.update_of_ne same]

/-- The sizes that are found are those of files that are not too long. -/
theorem statAndAdjust_near {ls : List Nat} {i : Nat} (sound : d.Sound lengths)
    (rest : lengths.drop i = ls) :
    (statAndAdjust ls i).wp strict callers (fun r d' => d.Near lengths d' ∧
      (r.2 = none → r.1.length = ls.length ∧
        ∀ j fts, r.1[j]? = some fts → fts.size ≤ ls.getD j 0)) d := by
  induction ls generalizing i d with
  | nil => exact wp_pure.mpr ⟨(Streams.Same.refl sound).near, fun _ => ⟨rfl, nofun⟩⟩
  | cons length ls ih =>
      have here : lengths.getD i 0 = length := by
        rw [List.getD_eq_getElem?_getD, ← Nat.add_zero i, ← List.getElem?_drop, rest]
        rfl
      have next : lengths.drop (i + 1) = ls := by
        rw [← List.drop_drop, rest, List.drop_one, List.tail_cons]
      unfold statAndAdjust statFile
      rw [wp_bind, wp_bind, wp_choose, wp_ite]
      split
      · rw [wp_pure]
        exact wp_pure.mpr ⟨Streams.Same.near ⟨sound, rfl, rfl⟩, nofun⟩
      · rw [wp_bind, wp_get]
        dsimp only
        rw [wp_bind, wp_modify, wp_pure]
        dsimp only
        have lt : i < lengths.length := by
          by_contra beyond
          rw [List.drop_eq_nil_of_le (Nat.le_of_not_lt beyond)] at rest
          cases rest
        have near : d.Near lengths (d.tick.setFile i ((d.tick.file i).truncate length)) := by
          refine ⟨⟨fun j => ?_, fun apart => ?_⟩, sound, rfl⟩
          · rw [Streams.setFile_file, replaceFile]
            split
            case isTrue same =>
              exact ⟨length, congrArg (fun k => (d.stored k).truncate _) same.symm⟩
            case isFalse => exact ⟨_, File.truncate_size.symm⟩
          · rw [Streams.setFile_file, ← here]
            exact (flat_replaceFile apart lt).trans flat_truncate
        refine wp_seq (ih near.sound next) ?_
        rintro r d' ⟨near', found⟩
        refine wp_pure.mpr ⟨near.trans near', fun none => ?_⟩
        obtain ⟨size, each⟩ := found none
        refine ⟨congrArg (· + 1) size, fun j fts at_ => ?_⟩
        cases j with
        | zero =>
            obtain rfl := Option.some.inj at_
            exact Nat.min_le_right ..
        | succ j => exact each j fts at_

end Btpd.Content
