import Btpd.Subr.Path

/-!
# The path that is left

The machine resolves its input over the components it starts with.  What the
buffer holds at the end is compared with the lexical normal form: the path of
the components resolved over the current directory.  From the root directory
the machine starts behind two slashes, that is, over an empty component.
-/

namespace Btpd.Subr

open Benc (Fault Exec literal)
open Metainfo (Component resolve cString)

/-! ## The end of the routine -/

/-- The byte that closes the string. -/
theorem set_split {out text after : List UInt8} (split : out = text ++ after)
    (room : text.length < out.length) : ∃ rest, out.set text.length 0 = text ++ 0 :: rest := by
  cases after with
  | nil =>
      rw [split, List.append_nil] at room
      exact absurd room (Nat.lt_irrefl _)
  | cons b after =>
      refine ⟨after, ?_⟩
      rw [split, List.set_append_right _ _ (Nat.le_refl _), Nat.sub_self]
      rfl

/-- The buffer holds the string of the path from the root. -/
theorem finish_ok {o : Output} {comps : List (List UInt8)} (stopped : Stopped o comps)
    (inside : o.oi < o.out.length) :
    ∃ rest, finish o = .ok (absolute comps ++ 0 :: rest) := by
  rcases stopped with at_ | ⟨before, name, rfl, nonempty, inName⟩
  · rcases at_.holds.split with ⟨after, split⟩
    have place := at_.holds.place
    have sep := at_.sep
    by_cases root : comps = []
    · subst root
      have zero : o.lastsep = 0 := by
        have : (slashText []).length = 1 := rfl
        omega
      have stop : o.stop = o.oi := if_neg fun both => both.2 zero
      rcases set_split split (by omega) with ⟨rest, set⟩
      refine ⟨rest, ?_⟩
      rw [finish, stop, if_pos inside, ← place, set]
      rfl
    · rw [slashText_eq_absolute root] at split place
      rw [List.length_append, List.length_singleton] at place
      have positive : o.lastsep ≠ 0 := by
        have : (absolute comps).length = (['/'.toUInt8].intercalate comps).length + 1 :=
          List.length_cons
        omega
      rw [List.append_assoc] at split
      rcases set_split split (by omega) with ⟨rest, set⟩
      refine ⟨rest, ?_⟩
      have long : (absolute comps).length = o.lastsep := by omega
      have stop : o.stop = o.lastsep := if_pos ⟨sep.symm, positive⟩
      rw [long] at set
      rw [finish, stop, if_pos (by omega), set]
  · rcases inName.holds.split with ⟨after, split⟩
    have place := inName.holds.place
    have sep := inName.sep
    have : 0 < name.length := List.length_pos_iff.mpr nonempty
    rcases set_split split (by omega) with ⟨rest, set⟩
    refine ⟨rest, ?_⟩
    rw [place] at set
    rw [List.length_append] at place
    have stop : o.stop = o.oi := if_neg fun both => absurd both.1 (by omega)
    rw [finish, stop, if_pos inside, set, absolute_concat]

theorem length_finish {o : Output} {out : List UInt8} (finished : finish o = .ok out) :
    out.length = o.out.length := by
  rw [finish] at finished
  split at finished
  · cases finished
    exact List.length_set
  · cases finished

/-- The routine from the place behind a slash on. -/
theorem fromSlash_ok {o : Output} {comps : List (List UInt8)} {input : List UInt8}
    (at_ : o.AtSlash comps) (free : ∀ c ∈ comps, '/'.toUInt8 ∉ c)
    (room : (slashText comps).length + input.length < o.out.length) :
    ∃ rest, fromSlash input o =
        .ok (.ok (absolute (resolve comps (input.splitOn '/'.toUInt8)) ++ 0 :: rest)) ∧
      (absolute (resolve comps (input.splitOn '/'.toUInt8))).length < o.out.length := by
  rcases resolves input .afterSlash o comps [] ⟨at_, rfl⟩ free room with
    ⟨o', run, stopped, length, inside⟩
  rcases finish_ok stopped inside with ⟨rest, finished⟩
  rw [List.nil_append] at finished
  have whole := (length_finish finished).trans length
  rw [List.length_append, List.length_cons] at whole
  refine ⟨rest, ?_, by omega⟩
  rw [fromSlash, run]
  show (finish o' >>= fun out => Except.ok (Except.ok out)) = _
  rw [finished]
  rfl

/-! ## Strings without a zero byte -/

theorem cString_append {text : List UInt8} (no_nul : 0 ∉ text) (rest : List UInt8) :
    cString (text ++ 0 :: rest) = text := by
  rw [cString, Join.cutAt_append no_nul, Join.cutAt_cons, if_pos rfl, List.append_nil]

theorem no_nul_absolute {comps : List (List UInt8)} (each : ∀ c ∈ comps, 0 ∉ c) :
    0 ∉ absolute comps := by
  rcases List.eq_nil_or_concat comps with rfl | ⟨before, name, rfl⟩
  · decide
  · rw [List.concat_eq_append] at each ⊢
    rw [absolute_concat, slashText, closed, List.cons_append, List.mem_cons, List.mem_append,
      List.mem_flatMap, not_or, not_or]
    refine ⟨by decide, ?_, each name (by simp)⟩
    rintro ⟨c, mem, stands⟩
    rcases List.mem_append.mp stands with inside | slash
    · exact each c (by simp [mem]) inside
    · exact absurd slash (by decide)

/-- A part of a split contains only bytes of the whole, and no separator. -/
theorem mem_splitOn {sep : UInt8} {xs part : List UInt8} (mem : part ∈ xs.splitOn sep) :
    sep ∉ part ∧ ∀ x ∈ part, x ∈ xs := by
  induction xs generalizing part with
  | nil =>
      rw [List.splitOn_nil, List.mem_singleton] at mem
      subst mem
      simp
  | cons x xs ih =>
      rw [List.splitOn_cons_eq_if_modifyHead] at mem
      split at mem
      · rcases List.mem_cons.mp mem with rfl | later
        · simp
        · exact ⟨(ih later).1, fun y inside => List.mem_cons_of_mem _ ((ih later).2 y inside)⟩
      · rename_i other
        cases parts : xs.splitOn sep with
        | nil => exact absurd parts (List.splitOn_ne_nil sep xs)
        | cons first parts' =>
            rw [parts] at mem ih
            rcases List.mem_cons.mp mem with rfl | later
            · have inner := ih List.mem_cons_self
              constructor
              · rw [List.mem_cons, not_or]
                exact ⟨fun same => other (by rw [same]; exact beq_self_eq_true x), inner.1⟩
              · intro y inside
                rcases List.mem_cons.mp inside with rfl | inside
                · exact List.mem_cons_self
                · exact List.mem_cons_of_mem _ (inner.2 y inside)
            · have inner := ih (List.mem_cons_of_mem _ later)
              exact ⟨inner.1, fun y inside => List.mem_cons_of_mem _ (inner.2 y inside)⟩

/-- A component of the result is one of the directory or a name of the path. -/
theorem mem_resolve {dir segs : List (List UInt8)} {c : List UInt8}
    (mem : c ∈ resolve dir segs) :
    c ∈ dir ∨ c ∈ segs ∧ c ≠ [] ∧ c ≠ literal "." ∧ c ≠ literal ".." := by
  induction segs generalizing dir with
  | nil => exact Or.inl mem
  | cons d segs ih =>
      have later : c ∈ dir ∨ c ∈ segs ∧ c ≠ [] ∧ c ≠ literal "." ∧ c ≠ literal ".." →
          c ∈ dir ∨ c ∈ d :: segs ∧ c ≠ [] ∧ c ≠ literal "." ∧ c ≠ literal ".." := by
        rintro (old | ⟨mem, name⟩)
        · exact Or.inl old
        · exact Or.inr ⟨List.mem_cons_of_mem _ mem, name⟩
      rw [resolve] at mem
      split at mem
      · exact later (ih mem)
      · rename_i ordinary
        split at mem
        · rcases ih mem with old | new
          · exact Or.inl (List.dropLast_subset dir old)
          · exact later (Or.inr new)
        · rename_i notUp
          rcases ih mem with old | new
          · rcases List.mem_append.mp old with old | here
            · exact Or.inl old
            · rw [List.mem_singleton] at here
              subst here
              exact Or.inr ⟨List.mem_cons_self, fun empty => ordinary (Or.inl empty),
                fun dot => ordinary (Or.inr dot), notUp⟩
          · exact later (Or.inr new)

/-! ## Over the root -/

/-- A `..` of the path is met at the root. -/
def UpAtRoot (dir segs : List (List UInt8)) : Prop :=
  ∃ before after, segs = before ++ literal ".." :: after ∧ resolve dir before = []

/-- An empty component below the directory stays until a `..` is met there. -/
theorem resolve_empty_cons (dir segs : List (List UInt8)) :
    (UpAtRoot dir segs → resolve ([] :: dir) segs = resolve dir segs) ∧
      (¬ UpAtRoot dir segs → resolve ([] :: dir) segs = [] :: resolve dir segs) := by
  induction segs generalizing dir with
  | nil =>
      refine ⟨?_, fun _ => rfl⟩
      rintro ⟨before, after, split, -⟩
      exact absurd split (by simp)
  | cons c segs ih =>
      -- a component that takes `dir` to `dir'` takes the meeting with it
      have same : ∀ dir', (∀ segs, resolve dir (c :: segs) = resolve dir' segs) →
          (c = literal ".." → dir ≠ []) → (UpAtRoot dir (c :: segs) ↔ UpAtRoot dir' segs) := by
        intro dir' stepped away
        constructor
        · rintro ⟨before, after, split, root⟩
          cases before with
          | nil =>
              rw [List.nil_append, List.cons.injEq] at split
              exact absurd root (away split.1)
          | cons d before =>
              rw [List.cons_append, List.cons.injEq] at split
              rcases split with ⟨rfl, split⟩
              exact ⟨before, after, split, (stepped before).symm.trans root⟩
        · rintro ⟨before, after, split, root⟩
          exact ⟨c :: before, after, by rw [split, List.cons_append],
            (stepped before).trans root⟩
      by_cases skip : c = [] ∨ c = literal "."
      · have notUp : c = literal ".." → dir ≠ [] := by
          rintro rfl
          rcases skip with empty | dot
          · exact absurd empty (by decide)
          · exact absurd dot (by decide)
        rw [same dir (resolve_cons_skip skip dir) notUp, resolve_cons_skip skip,
          resolve_cons_skip skip]
        exact ih dir
      · by_cases dots : c = literal ".."
        · subst dots
          rw [resolve_cons_up, resolve_cons_up]
          cases dir with
          | nil =>
              refine ⟨fun _ => rfl, ?_⟩
              intro never
              exact absurd ⟨[], segs, rfl, rfl⟩ never
          | cons d dir =>
              rw [same (d :: dir).dropLast (resolve_cons_up (d :: dir)) (by simp),
                List.dropLast_cons_cons]
              exact ih (d :: dir).dropLast
        · have plain : ∀ dir segs, resolve dir (c :: segs) = resolve (dir ++ [c]) segs := by
            intro dir segs
            rw [resolve, if_neg skip, if_neg dots]
          rw [same (dir ++ [c]) (plain dir) (fun up => absurd up dots), plain, plain,
            List.cons_append]
          exact ih (dir ++ [c])

/-! ## The routine -/

/-- The directory that a path is taken relative to. -/
def baseOf (getcwd : Except Errno Cwd) (input : List UInt8) : List (List UInt8) :=
  if input.head? = some '/'.toUInt8 then []
  else
    match getcwd with
    | .ok cwd => cwd.comps
    | .error _ => []

/-- The lexical normal form of a path: its components resolved over the directory. -/
def normalForm (getcwd : Except Errno Cwd) (input : List UInt8) : List (List UInt8) :=
  resolve (baseOf getcwd input) (input.splitOn '/'.toUInt8)

/-- The buffer holds the path from the root with the given components, each of which is a
name. -/
structure Normalised (comps : List (List UInt8)) (out : List UInt8) : Prop where
  text : cString out = absolute comps
  fits : (absolute comps).length < pathMax
  component : ∀ c ∈ comps, Component c

/-- The run stays inside its buffers, and what it leaves when it succeeds is the normal
form. -/
structure Normalises (getcwd : Except Errno Cwd) (input : List UInt8)
    (run : Exec (Except Errno (List UInt8))) : Prop where
  inside : ∃ result, run = .ok result
  normal : ∀ out, run = .ok (.ok out) → Normalised (normalForm getcwd input) out

theorem normalises_refused (getcwd : Except Errno Cwd) (input : List UInt8) (errno : Errno) :
    Normalises getcwd input (.ok (.error errno)) := by
  constructor
  · exact ⟨_, rfl⟩
  · intro out same
    cases same

theorem normalises_ok_iff (getcwd : Except Errno Cwd) (input out : List UInt8) :
    Normalises getcwd input (.ok (.ok out)) ↔ Normalised (normalForm getcwd input) out := by
  constructor
  · exact fun normalises => normalises.normal out rfl
  · intro normalised
    constructor
    · exact ⟨_, rfl⟩
    · intro out' same
      cases same
      exact normalised

/-- A path that is accepted from the root directory, does not meet a `..` there and names
something else than the root. -/
structure DoubleSlash (getcwd : Except Errno Cwd) (input : List UInt8) : Prop where
  root : ∃ cwd, getcwd = .ok cwd ∧ cwd.comps = []
  nonempty : input ≠ []
  relative : input.head? ≠ some '/'.toUInt8
  accepted : input.length + 2 < pathMax
  stays : ¬ UpAtRoot [] (input.splitOn '/'.toUInt8)
  below : resolve [] (input.splitOn '/'.toUInt8) ≠ []

theorem component_normalForm (getcwd : Except Errno Cwd) (input : CStr) :
    ∀ c ∈ normalForm getcwd input.bytes, Component c ∧ 0 ∉ c := by
  intro c mem
  rcases mem_resolve mem with old | ⟨segment, nonempty, notDot, notUp⟩
  · unfold baseOf at old
    split at old
    · cases old
    · split at old
      · rename_i cwd
        exact ⟨cwd.component c old, cwd.no_nul c old⟩
      · cases old
  · have inner := mem_splitOn segment
    exact ⟨⟨nonempty, notDot, notUp, inner.1⟩, fun nul => input.no_nul (inner.2 0 nul)⟩

/-- A string that is stored for the normal form is right when it fits. -/
theorem normalised_of_absolute (getcwd : Except Errno Cwd) (input : CStr) (rest : List UInt8)
    (fits : (absolute (normalForm getcwd input.bytes)).length < pathMax) :
    Normalised (normalForm getcwd input.bytes)
      (absolute (normalForm getcwd input.bytes) ++ 0 :: rest) := by
  have each := component_normalForm getcwd input
  constructor
  · exact cString_append (no_nul_absolute fun c mem => (each c mem).2) rest
  · exact fits
  · exact fun c mem => (each c mem).1

/-- What the routine starts the machine with below the current directory: from the root an
empty component is there already. -/
def surplus (comps : List (List UInt8)) : List (List UInt8) :=
  if comps = [] then [[]] else comps

theorem slashText_surplus (comps : List (List UInt8)) :
    slashText (surplus comps) = absolute comps ++ ['/'.toUInt8] := by
  rw [surplus]
  split
  · rename_i root
    subst root
    rfl
  · rename_i some
    exact slashText_eq_absolute some

/-- The start at the root. -/
theorem put_root {out : List UInt8} (room : out.length = pathMax) :
    ∃ o, Output.put ⟨out, 0, 0⟩ '/'.toUInt8 = .ok o ∧ o.AtSlash [] ∧ o.out.length = pathMax := by
  have holds : Output.Holds ⟨out, 0, 0⟩ [] := ⟨rfl, rfl⟩
  rcases Output.put_ok holds (by rw [room]; decide) '/'.toUInt8 with
    ⟨o, put, wrote, same, kept⟩
  exact ⟨o, put, ⟨wrote, by rw [kept, ← wrote.place]; rfl⟩, same.trans room⟩

/-- The start below the current directory. -/
theorem putSlash_cwd (out rest : List UInt8) (cwd : Cwd)
    (split : out = absolute cwd.comps ++ 0 :: rest) :
    ∃ o, Output.putSlash ⟨out, (absolute cwd.comps).length, 0⟩ = .ok o ∧
      o.AtSlash (surplus cwd.comps) ∧ o.out.length = out.length := by
  have holds : Output.Holds ⟨out, (absolute cwd.comps).length, (absolute cwd.comps).length⟩
      (absolute cwd.comps) := Output.Holds.of_append split
  have room : (absolute cwd.comps).length < out.length := by
    rw [split, List.length_append, List.length_cons]
    omega
  rcases Output.put_ok holds room '/'.toUInt8 with ⟨o, put, wrote, same, kept⟩
  refine ⟨o, put, ⟨?_, ?_⟩, same⟩
  · rw [slashText_surplus]
    exact wrote
  · rw [kept, ← wrote.place, List.length_append]
    rfl

/-- An absolute path is normalised. -/
theorem makeAbsPath_absolute (getcwd : Except Errno Cwd) (input : CStr) (out : List UInt8)
    (room : out.length = pathMax) (slash : input.bytes.head? = some '/'.toUInt8) :
    Normalises getcwd input.bytes (makeAbsPath getcwd input.bytes out) := by
  have form : ∀ rest, input.bytes = '/'.toUInt8 :: rest →
      normalForm getcwd input.bytes = resolve [] (rest.splitOn '/'.toUInt8) := by
    intro rest split
    have cut : input.bytes.splitOn '/'.toUInt8 = [] :: rest.splitOn '/'.toUInt8 := by
      rw [split]
      exact split_slash List.not_mem_nil rest
    have base : baseOf getcwd input.bytes = [] := if_pos slash
    rw [normalForm, base, cut, resolve_cons_skip (Or.inl rfl)]
  have each := normalised_of_absolute getcwd input
  cases whole : input.bytes with
  | nil =>
      rw [whole] at slash
      cases slash
  | cons c rest =>
      rw [whole] at slash
      cases Option.some.inj slash
      have normal := form rest whole
      rw [whole] at each normal
      rw [makeAbsPath, if_pos rfl]
      by_cases long : ('/'.toUInt8 :: rest).length ≥ pathMax
      · rw [if_pos long]
        exact normalises_refused getcwd _ .enametoolong
      · rw [if_neg long]
        rcases put_root room with ⟨o, put, there, length⟩
        rw [List.length_cons] at long
        have start : (slashText []).length = 1 := rfl
        rcases fromSlash_ok there (by simp) (show _ + rest.length < _ by omega) with
          ⟨after, run, fits⟩
        rw [put]
        show Normalises getcwd _ (fromSlash rest o)
        rw [run, ← normal, normalises_ok_iff]
        rw [← normal, length] at fits
        exact each after fits

theorem length_absolute_cons {comps : List (List UInt8)} (some : comps ≠ []) :
    (absolute ([] :: comps)).length = (absolute comps).length + 1 := by
  rw [absolute, absolute, List.intercalate_cons_of_ne_nil some]
  rfl

/-- What a path relative to the current directory leaves. -/
theorem makeAbsPath_relative (cwd : Cwd) (input : CStr) (out : List UInt8)
    (room : out.length = pathMax) (relative : input.bytes.head? ≠ some '/'.toUInt8)
    (nonempty : input.bytes ≠ []) :
    (pathMax ≤ (absolute cwd.comps).length + input.bytes.length + 1 ∧
      ∃ errno, makeAbsPath (.ok cwd) input.bytes out = .ok (.error errno)) ∨
    (absolute cwd.comps).length + input.bytes.length + 1 < pathMax ∧
      ∃ rest, makeAbsPath (.ok cwd) input.bytes out = .ok (.ok (absolute
          (resolve (surplus cwd.comps) (input.bytes.splitOn '/'.toUInt8)) ++ 0 :: rest)) ∧
        (absolute
          (resolve (surplus cwd.comps) (input.bytes.splitOn '/'.toUInt8))).length < pathMax := by
  cases whole : input.bytes with
  | nil => exact absurd whole nonempty
  | cons c rest =>
      rw [whole, List.head?_cons] at relative
      have other : c ≠ '/'.toUInt8 := fun same => relative (by rw [same])
      rw [makeAbsPath, if_neg other, getcwdInto]
      dsimp only
      by_cases wide : (absolute cwd.comps).length + 1 > pathMax
      · rw [if_pos wide]
        exact Or.inl ⟨by omega, .erange, rfl⟩
      · rw [if_neg wide]
        dsimp only
        have noNul := no_nul_absolute cwd.no_nul
        have string : cString (stored out (absolute cwd.comps)) = absolute cwd.comps :=
          cString_append noNul _
        rw [string]
        by_cases long : (absolute cwd.comps).length + (c :: rest).length + 1 ≥ pathMax
        · rw [if_pos long]
          exact Or.inl ⟨long, .enametoolong, rfl⟩
        · rw [if_neg long]
          apply Or.inr
          refine ⟨by omega, ?_⟩
          have length : (stored out (absolute cwd.comps)).length = pathMax := by
            rw [stored, List.length_append, List.length_cons, List.length_drop]
            omega
          rcases putSlash_cwd (stored out (absolute cwd.comps)) _ cwd rfl with ⟨o, put, there, same⟩
          have free : ∀ d ∈ surplus cwd.comps, '/'.toUInt8 ∉ d := by
            intro d mem
            rw [surplus] at mem
            split at mem
            · rw [List.mem_singleton] at mem
              subst mem
              exact List.not_mem_nil
            · exact (cwd.component d mem).no_slash
          have small : (slashText (surplus cwd.comps)).length + (c :: rest).length <
              o.out.length := by
            rw [slashText_surplus, List.length_append, List.length_singleton, same, length]
            omega
          rcases fromSlash_ok there free small with ⟨after, run, fits⟩
          rw [same, length] at fits
          refine ⟨after, ?_, fits⟩
          rw [put]
          exact run

/-- From a directory that is not the root, and where the machine gets rid of the empty
component, the path is normalised; otherwise it is not. -/
theorem normalises_relative_iff (cwd : Cwd) (input : CStr) (out : List UInt8)
    (room : out.length = pathMax) (relative : input.bytes.head? ≠ some '/'.toUInt8)
    (nonempty : input.bytes ≠ []) :
    Normalises (.ok cwd) input.bytes (makeAbsPath (.ok cwd) input.bytes out) ↔
      ¬ DoubleSlash (.ok cwd) input.bytes := by
  have base : baseOf (.ok cwd) input.bytes = cwd.comps := if_neg relative
  have normal : normalForm (.ok cwd) input.bytes =
      resolve cwd.comps (input.bytes.splitOn '/'.toUInt8) := by rw [normalForm, base]
  rcases makeAbsPath_relative cwd input out room relative nonempty with
    ⟨long, errno, run⟩ | ⟨short, rest, run, fits⟩
  · rw [run]
    constructor
    · intro _ slip
      rcases slip.root with ⟨cwd', same, root⟩
      cases same
      have accepted := slip.accepted
      rw [root] at long
      have : (absolute []).length = 1 := rfl
      omega
    · exact fun _ => normalises_refused _ _ errno
  · rw [run, normalises_ok_iff]
    by_cases root : cwd.comps = []
    · rw [root] at short fits normal ⊢
      have start : surplus [] = [[]] := rfl
      rw [start] at fits ⊢
      have each := normalised_of_absolute (.ok cwd) input rest
      rw [normal] at each
      rw [normal]
      by_cases up : UpAtRoot [] (input.bytes.splitOn '/'.toUInt8)
      · rw [(resolve_empty_cons [] _).1 up] at fits ⊢
        exact ⟨fun _ slip => slip.stays up, fun _ => each fits⟩
      · rw [(resolve_empty_cons [] _).2 up] at fits ⊢
        cases below : resolve [] (input.bytes.splitOn '/'.toUInt8) with
        | nil =>
            rw [below] at each
            constructor
            · exact fun _ slip => slip.below below
            · intro _
              exact each (by decide)
        | cons c comps =>
            constructor
            · intro normalised _
              have each := component_normalForm (.ok cwd) input
              rw [normal, below] at each
              have noNul : 0 ∉ absolute ([] :: c :: comps) := by
                apply no_nul_absolute
                intro d mem
                rcases List.mem_cons.mp mem with rfl | mem
                · exact List.not_mem_nil
                · exact (each d mem).2
              have text := normalised.text
              rw [cString_append noNul] at text
              have longer := congrArg List.length text
              rw [length_absolute_cons (List.cons_ne_nil c comps)] at longer
              exact absurd longer (by omega)
            · intro never
              refine absurd ⟨⟨cwd, rfl, root⟩, nonempty, relative, ?_, up, ?_⟩ never
              · have : (absolute []).length = 1 := rfl
                omega
              · rw [below]
                exact List.cons_ne_nil c comps
    · have start : surplus cwd.comps = cwd.comps := if_neg root
      rw [start, ← normal] at fits ⊢
      constructor
      · intro _ slip
        rcases slip.root with ⟨cwd', same, root'⟩
        cases same
        exact root root'
      · intro _
        exact normalised_of_absolute (.ok cwd) input rest fits

/-- The root directory. -/
def rootDir : Cwd := ⟨[], by simp, by simp⟩

/-- A buffer for the result. -/
def blank : List UInt8 := List.replicate pathMax 0

theorem length_blank : blank.length = pathMax := List.length_replicate

/-- From the root directory the name of a file gets two slashes. -/
theorem makeAbsPath_slashes :
    ¬ ∀ (getcwd : Except Errno Cwd) (input : CStr) (out : List UInt8), out.length = pathMax →
      Normalises getcwd input.bytes (makeAbsPath getcwd input.bytes out) := by
  intro all
  have normalises := all (.ok rootDir) ⟨literal "a", by decide⟩ blank length_blank
  rw [normalises_relative_iff rootDir ⟨literal "a", by decide⟩ blank length_blank (by decide)
    (by decide)] at normalises
  apply normalises
  refine ⟨⟨_, rfl, rfl⟩, by decide, by decide, by decide, ?_, by decide⟩
  rintro ⟨before, after, split, -⟩
  have mem : literal ".." ∈ (literal "a").splitOn '/'.toUInt8 := by
    rw [show (literal "a").splitOn '/'.toUInt8 = before ++ literal ".." :: after from split]
    simp
  exact absurd mem (by decide)

/-- The routine leaves the normal form whenever it succeeds, except for a path that it
accepts from the root directory, that does not meet a `..` there and that names something
else than the root. -/
theorem makeAbsPath_normalises_iff (getcwd : Except Errno Cwd) (input : CStr)
    (out : List UInt8) (room : out.length = pathMax) :
    Normalises getcwd input.bytes (makeAbsPath getcwd input.bytes out) ↔
      ¬ DoubleSlash getcwd input.bytes := by
  by_cases slash : input.bytes.head? = some '/'.toUInt8
  · constructor
    · exact fun _ slip => slip.relative slash
    · exact fun _ => makeAbsPath_absolute getcwd input out room slash
  · by_cases nonempty : input.bytes = []
    · rw [nonempty]
      constructor
      · exact fun _ slip => slip.nonempty rfl
      · exact fun _ => normalises_refused _ _ .einval
    · cases getcwd with
      | ok cwd => exact normalises_relative_iff cwd input out room slash nonempty
      | error errno =>
          constructor
          · intro _ slip
            rcases slip.root with ⟨cwd, got, -⟩
            cases got
          · intro _
            cases whole : input.bytes with
            | nil => exact absurd whole nonempty
            | cons c rest =>
                rw [whole, List.head?_cons] at slash
                have other : c ≠ '/'.toUInt8 := fun same => slash (by rw [same])
                rw [makeAbsPath, if_neg other]
                exact normalises_refused _ _ errno

/-- The parent of a directory, taken from the root. -/
theorem makeAbsPath_normalises_iff_parent :
    Normalises (.ok rootDir) (literal "a/../..")
      (makeAbsPath (.ok rootDir) (literal "a/../..") blank) :=
  (makeAbsPath_normalises_iff (.ok rootDir) ⟨literal "a/../..", by decide⟩ blank
    length_blank).mpr fun slip => slip.below (by decide)

end Btpd.Subr
