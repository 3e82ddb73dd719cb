import Btpd.Metainfo.Paths
import Mathlib

/-!
# Absolute paths

`make_abs_path` writes the absolute form of a path over the current directory,
one byte at a time, and takes a component back when it meets `..`.  The labels
of the source are the states of the machine; what it holds besides is the output
buffer, the place of the next byte and the place of the last slash.
-/

namespace Btpd.Subr

open Benc (Fault Exec literal)
open Metainfo (Component resolve cString)

/-- `PATH_MAX`. -/
def pathMax : Nat := 4096

/-- What the routine and `getcwd` fail with. -/
inductive Errno
  | einval
  | enametoolong
  | erange
  | other (code : Nat)
  deriving DecidableEq, Repr

/-- A current directory: `getcwd` gives a path from the root without `.` and `..`. -/
structure Cwd where
  comps : List (List UInt8)
  component : ∀ c ∈ comps, Component c
  no_nul : ∀ c ∈ comps, 0 ∉ c

/-- The path from the root with the given components. -/
def absolute (comps : List (List UInt8)) : List UInt8 :=
  '/'.toUInt8 :: ['/'.toUInt8].intercalate comps

/-- A C string. -/
structure CStr where
  bytes : List UInt8
  no_nul : 0 ∉ bytes

/-- The output buffer, the place of the next byte and the place of the last slash. -/
structure Output where
  out : List UInt8
  oi : Nat
  lastsep : Nat
  deriving DecidableEq, Repr

namespace Output

/-- `out[oi] = c; oi++;` -/
def put (o : Output) (c : UInt8) : Exec Output :=
  if o.oi < o.out.length then .ok { o with out := o.out.set o.oi c, oi := o.oi + 1 }
  else .error .outOfBounds

/-- `out[oi] = '/'; lastsep = oi; oi++;` -/
def putSlash (o : Output) : Exec Output :=
  ({ o with lastsep := o.oi }).put '/'.toUInt8

/-- `while (out[oi - 1] != '/') oi--;` -/
def backToSlash (out : List UInt8) : Nat → Exec Nat
  | 0 => .error .outOfBounds
  | oi + 1 =>
      match out[oi]? with
      | none => .error .outOfBounds
      | some c => if c ≠ '/'.toUInt8 then backToSlash out oi else .ok (oi + 1)

/-- The step back at `..`. -/
def up (o : Output) : Exec Output :=
  if o.lastsep = 0 then .ok { o with oi := 1 }
  else
    match backToSlash o.out o.lastsep with
    | .error fault => .error fault
    | .ok oi => .ok { o with oi := oi, lastsep := oi - 1 }

end Output

/-- The labels of the source. -/
inductive Label
  | afterSlash
  | oneDot
  | twoDot
  | normal
  deriving DecidableEq, Repr

/-- The machine on what is left of the input.  A `goto normal` at a byte that is neither
the end nor a slash is the last branch of that label, which copies the byte. -/
def absPath : Label → List UInt8 → Output → Exec Output
  | .afterSlash, [], o => .ok o
  | .afterSlash, c :: rest, o =>
      if c = '/'.toUInt8 then absPath .afterSlash rest o
      else if c = '.'.toUInt8 then absPath .oneDot rest o
      else do
        let o ← o.put c
        absPath .normal rest o
  | .oneDot, [], o => .ok o
  | .oneDot, c :: rest, o =>
      if c = '/'.toUInt8 then absPath .afterSlash rest o
      else if c = '.'.toUInt8 then absPath .twoDot rest o
      else do
        let o ← o.put '.'.toUInt8
        let o ← o.put c
        absPath .normal rest o
  | .twoDot, [], o => o.up
  | .twoDot, c :: rest, o =>
      if c = '/'.toUInt8 then do
        let o ← o.up
        absPath .afterSlash rest o
      else do
        let o ← o.put '.'.toUInt8
        let o ← o.put '.'.toUInt8
        let o ← o.put c
        absPath .normal rest o
  | .normal, [], o => .ok o
  | .normal, c :: rest, o =>
      if c = '/'.toUInt8 then do
        let o ← o.putSlash
        absPath .afterSlash rest o
      else do
        let o ← o.put c
        absPath .normal rest o

/-- `if (oi == lastsep + 1 && lastsep != 0) oi = lastsep;` -/
def Output.stop (o : Output) : Nat :=
  if o.oi = o.lastsep + 1 ∧ o.lastsep ≠ 0 then o.lastsep else o.oi

/-- What stands at the label `end`: the slash at the end goes, and the string is closed. -/
def finish (o : Output) : Exec (List UInt8) :=
  if o.stop < o.out.length then .ok (o.out.set o.stop 0) else .error .outOfBounds

/-- The output buffer when a string was stored in it. -/
def stored (out s : List UInt8) : List UInt8 := s ++ 0 :: out.drop (s.length + 1)

/-- `getcwd(out, PATH_MAX)`, which fails also when the path does not fit. -/
def getcwdInto (getcwd : Except Errno Cwd) (out : List UInt8) : Except Errno (List UInt8) :=
  match getcwd with
  | .error errno => .error errno
  | .ok cwd =>
      if (absolute cwd.comps).length + 1 > pathMax then .error .erange
      else .ok (stored out (absolute cwd.comps))

/-- The machine and the label `end`. -/
def fromSlash (input : List UInt8) (o : Output) : Exec (Except Errno (List UInt8)) := do
  let o ← absPath .afterSlash input o
  let out ← finish o
  .ok (.ok out)

/-- `make_abs_path` with the result of `getcwd`; the buffer when it succeeds. -/
def makeAbsPath (getcwd : Except Errno Cwd) (input out : List UInt8) :
    Exec (Except Errno (List UInt8)) :=
  match input with
  | [] => .ok (.error .einval)
  | c :: rest =>
      if c = '/'.toUInt8 then
        if (c :: rest).length ≥ pathMax then .ok (.error .enametoolong)
        else do
          let o ← Output.put ⟨out, 0, 0⟩ '/'.toUInt8
          fromSlash rest o
      else
        match getcwdInto getcwd out with
        | .error errno => .ok (.error errno)
        | .ok out =>
            let oi := (cString out).length
            if oi + (c :: rest).length + 1 ≥ pathMax then .ok (.error .enametoolong)
            else do
              let o ← Output.putSlash ⟨out, oi, 0⟩
              fromSlash (c :: rest) o

/-! ## What the buffer holds -/

/-- The components, each with the slash behind it. -/
def closed (comps : List (List UInt8)) : List UInt8 := comps.flatMap (· ++ ['/'.toUInt8])

/-- The text after which the next component begins. -/
def slashText (comps : List (List UInt8)) : List UInt8 := '/'.toUInt8 :: closed comps

theorem closed_concat (comps : List (List UInt8)) (c : List UInt8) :
    closed (comps ++ [c]) = closed comps ++ (c ++ ['/'.toUInt8]) := by
  simp [closed]

theorem intercalate_concat (comps : List (List UInt8)) (c : List UInt8) :
    ['/'.toUInt8].intercalate (comps ++ [c]) = closed comps ++ c := by
  induction comps with
  | nil => simp [closed]
  | cons d comps ih =>
      rw [List.cons_append, List.intercalate_cons_of_ne_nil (by simp), ih]
      simp [closed]

theorem absolute_concat (comps : List (List UInt8)) (c : List UInt8) :
    absolute (comps ++ [c]) = slashText comps ++ c := by
  rw [absolute, intercalate_concat, slashText, List.cons_append]

theorem slashText_concat (comps : List (List UInt8)) (c : List UInt8) :
    slashText (comps ++ [c]) = slashText comps ++ c ++ ['/'.toUInt8] := by
  rw [slashText, closed_concat, slashText, List.cons_append, List.cons_append,
    List.append_assoc]

theorem slashText_eq_absolute {comps : List (List UInt8)} (some : comps ≠ []) :
    slashText comps = absolute comps ++ ['/'.toUInt8] := by
  rcases List.eq_nil_or_concat comps with rfl | ⟨before, c, rfl⟩
  · exact absurd rfl some
  · rw [List.concat_eq_append, slashText_concat, absolute_concat]

/-- The text begins with the root. -/
theorem slashText_last (comps : List (List UInt8)) :
    ∃ before, slashText comps = before ++ ['/'.toUInt8] := by
  rcases List.eq_nil_or_concat comps with rfl | ⟨before, c, rfl⟩
  · exact ⟨[], rfl⟩
  · rw [List.concat_eq_append, slashText_concat]
    exact ⟨_, rfl⟩

theorem length_slashText_dropLast (comps : List (List UInt8)) :
    (slashText comps.dropLast).length ≤ (slashText comps).length := by
  rcases List.eq_nil_or_concat comps with rfl | ⟨before, c, rfl⟩
  · exact Nat.le_refl _
  · rw [List.concat_eq_append, List.dropLast_concat, slashText_concat, List.append_assoc,
      List.length_append]
    exact Nat.le_add_right _ _

namespace Output

variable {o : Output} {text : List UInt8} {comps : List (List UInt8)}

/-- The bytes before the place of the next one. -/
structure Holds (o : Output) (text : List UInt8) : Prop where
  wrote : o.out.take o.oi = text
  place : text.length = o.oi

theorem Holds.split (holds : o.Holds text) : ∃ after, o.out = text ++ after :=
  ⟨o.out.drop o.oi, by rw [← holds.wrote, List.take_append_drop]⟩

theorem Holds.of_append {out : List UInt8} {lastsep : Nat} {text after : List UInt8}
    (split : out = text ++ after) : Holds ⟨out, text.length, lastsep⟩ text :=
  ⟨by rw [split]; exact List.take_left, rfl⟩

/-- A byte is written. -/
theorem put_ok (holds : o.Holds text) (room : text.length < o.out.length) (c : UInt8) :
    ∃ o', o.put c = .ok o' ∧ o'.Holds (text ++ [c]) ∧ o'.out.length = o.out.length ∧
      o'.lastsep = o.lastsep := by
  have inside : o.oi < o.out.length := holds.place ▸ room
  rcases holds.split with ⟨after, split⟩
  refine ⟨_, if_pos inside, ?_, List.length_set, rfl⟩
  constructor
  · show (o.out.set o.oi c).take (o.oi + 1) = text ++ [c]
    rw [List.take_add_one, List.take_set_of_le (Nat.le_refl _), holds.wrote,
      List.getElem?_set_self inside, Option.toList_some]
  · rw [List.length_append, holds.place, List.length_singleton]

/-- The search for the slash before a component. -/
theorem backToSlash_ok (before name after : List UInt8) (free : '/'.toUInt8 ∉ name) :
    backToSlash (before ++ ['/'.toUInt8] ++ name ++ after)
      (before.length + 1 + name.length) = .ok (before.length + 1) := by
  induction name using List.reverseRecOn generalizing after with
  | nil =>
      rw [List.length_nil, Nat.add_zero, backToSlash]
      simp
  | append_singleton name c ih =>
      rw [List.mem_append, not_or] at free
      have other : c ≠ '/'.toUInt8 := fun same => free.2 (by rw [same]; simp)
      have longer : before ++ ['/'.toUInt8] ++ (name ++ [c]) ++ after =
          before ++ ['/'.toUInt8] ++ name ++ (c :: after) := by simp
      have here : (before ++ ['/'.toUInt8] ++ name ++ (c :: after))[
          before.length + 1 + name.length]? = some c := by
        have long : (before ++ ['/'.toUInt8] ++ name).length =
            before.length + 1 + name.length := by
          rw [List.length_append, List.length_append, List.length_singleton]
        rw [← long, List.getElem?_append_right (Nat.le_refl _), Nat.sub_self]
        rfl
      rw [longer, List.length_append, List.length_singleton, ← Nat.add_assoc, backToSlash,
        here]
      show (if c ≠ '/'.toUInt8 then _ else _) = _
      rw [if_pos other]
      exact ih (c :: after) free.1

/-- Between two components. -/
structure AtSlash (o : Output) (comps : List (List UInt8)) : Prop where
  holds : o.Holds (slashText comps)
  sep : o.lastsep + 1 = o.oi

/-- Inside a component. -/
structure InName (o : Output) (comps : List (List UInt8)) (name : List UInt8) : Prop where
  holds : o.Holds (slashText comps ++ name)
  sep : o.lastsep + 1 = (slashText comps).length

/-- The component that ends at a slash is taken over. -/
theorem putSlash_ok {name : List UInt8} (inName : o.InName comps name)
    (room : (slashText comps ++ name).length < o.out.length) :
    ∃ o', o.putSlash = .ok o' ∧ o'.AtSlash (comps ++ [name]) ∧
      o'.out.length = o.out.length := by
  have holds : ({ o with lastsep := o.oi } : Output).Holds (slashText comps ++ name) :=
    ⟨inName.holds.wrote, inName.holds.place⟩
  rcases put_ok holds room '/'.toUInt8 with ⟨o', put, wrote, same, kept⟩
  refine ⟨o', put, ⟨?_, ?_⟩, same⟩
  · rw [slashText_concat]
    exact wrote
  · have after := wrote.place
    have before : (slashText comps ++ name).length = o.oi := inName.holds.place
    rw [List.length_append, List.length_singleton] at after
    rw [kept]
    show o.oi + 1 = o'.oi
    omega

/-- The step back takes the last component away, and stays at the root. -/
theorem up_ok (at_ : o.AtSlash comps) (free : ∀ c ∈ comps, '/'.toUInt8 ∉ c) :
    ∃ o', o.up = .ok o' ∧ o'.AtSlash comps.dropLast ∧ o'.out.length = o.out.length := by
  rcases List.eq_nil_or_concat comps with rfl | ⟨before, name, rfl⟩
  · have one : o.oi = 1 := at_.holds.place.symm
    have zero : o.lastsep = 0 := by have := at_.sep; omega
    refine ⟨{ o with oi := 1 }, ?_, ?_, rfl⟩
    · rw [up, if_pos zero]
    · have same : ({ o with oi := 1 } : Output) = o := by rw [← one]
      rw [same]
      exact at_
  · rw [List.concat_eq_append] at at_ free ⊢
    rcases at_.holds.split with ⟨after, split⟩
    rcases slashText_last before with ⟨root, rooted⟩
    have place := at_.holds.place
    rw [slashText_concat, rooted] at split place
    have sep : o.lastsep = root.length + 1 + name.length := by
      have := at_.sep
      simp only [List.length_append, List.length_singleton] at place
      omega
    have found : backToSlash o.out o.lastsep = .ok (root.length + 1) := by
      rw [split, sep]
      simp only [List.append_assoc]
      have searched := backToSlash_ok root name ('/'.toUInt8 :: after) (free name (by simp))
      simpa using searched
    refine ⟨{ o with oi := root.length + 1, lastsep := root.length }, ?_, ?_, rfl⟩
    · rw [up, if_neg (by omega), found]
      rfl
    · rw [List.dropLast_concat]
      constructor
      · have long : (slashText before).length = root.length + 1 := by
          rw [rooted, List.length_append, List.length_singleton]
        rw [← rooted, List.append_assoc, List.append_assoc] at split
        rw [← long]
        exact Holds.of_append split
      · rfl

end Output

/-! ## The machine -/

/-- At which point of a component a label stands: the components before it, and the bytes
of it that were consumed. -/
def Stands : Label → Output → List (List UInt8) → List UInt8 → Prop
  | .afterSlash, o, comps, seg => o.AtSlash comps ∧ seg = []
  | .oneDot, o, comps, seg => o.AtSlash comps ∧ seg = literal "."
  | .twoDot, o, comps, seg => o.AtSlash comps ∧ seg = literal ".."
  | .normal, o, comps, seg =>
      o.InName comps seg ∧ '/'.toUInt8 ∉ seg ∧ ¬ seg <+: literal ".."

/-- How the machine can stop: after a slash, or in the last component. -/
def Stopped (o : Output) (comps : List (List UInt8)) : Prop :=
  o.AtSlash comps ∨
    ∃ before name, comps = before ++ [name] ∧ name ≠ [] ∧ o.InName before name

theorem resolve_cons_skip {c : List UInt8} (skip : c = [] ∨ c = literal ".")
    (dir comps : List (List UInt8)) : resolve dir (c :: comps) = resolve dir comps := by
  rw [resolve, if_pos skip]

theorem resolve_cons_up (dir comps : List (List UInt8)) :
    resolve dir (literal ".." :: comps) = resolve dir.dropLast comps := by
  rw [resolve, if_neg (by decide), if_pos rfl]

theorem resolve_cons_name {c : List UInt8} (name : ¬ c <+: literal "..")
    (dir comps : List (List UInt8)) : resolve dir (c :: comps) = resolve (dir ++ [c]) comps := by
  have ordinary : ¬ (c = [] ∨ c = literal ".") := by
    rintro (rfl | rfl)
    · exact name (List.nil_prefix)
    · exact name (by decide)
  have notUp : c ≠ literal ".." := by
    rintro rfl
    exact name (List.prefix_refl _)
  rw [resolve, if_neg ordinary, if_neg notUp]

/-- The component in which the machine stands is the first one of what is left. -/
theorem split_slash {seg : List UInt8} (free : '/'.toUInt8 ∉ seg) (rest : List UInt8) :
    (seg ++ '/'.toUInt8 :: rest).splitOn '/'.toUInt8 = seg :: rest.splitOn '/'.toUInt8 :=
  List.splitOn_append_cons_self_of_not_mem free rest

/-- What has been consumed is never a whole `..` in a component that is copied. -/
theorem not_prefix_concat {seg : List UInt8} (name : ¬ seg <+: literal "..") (c : UInt8) :
    ¬ seg ++ [c] <+: literal ".." :=
  fun short => name ((List.prefix_append seg [c]).trans short)

/-- Before the first byte of a component nothing of it is written. -/
theorem Output.AtSlash.inName {o : Output} {comps : List (List UInt8)} (at_ : o.AtSlash comps) :
    o.InName comps [] :=
  ⟨by rw [List.append_nil]; exact at_.holds, at_.sep.trans at_.holds.place.symm⟩

/-- A byte of a component is copied. -/
theorem Output.InName.put_ok {o : Output} {comps : List (List UInt8)} {seg : List UInt8}
    (inName : o.InName comps seg) (c : UInt8)
    (room : (slashText comps).length + seg.length < o.out.length) :
    ∃ o', o.put c = .ok o' ∧ o'.InName comps (seg ++ [c]) ∧
      o'.out.length = o.out.length := by
  rcases Output.put_ok inName.holds (by rw [List.length_append]; exact room) c with
    ⟨o', put, wrote, same, kept⟩
  refine ⟨o', put, ⟨?_, ?_⟩, same⟩
  · rw [← List.append_assoc]
    exact wrote
  · rw [kept]
    exact inName.sep

/-- At the label the machine resolves what is left of the input over the components that
it has, when there is room for all of it. -/
def Resolves (label : Label) (rest : List UInt8) : Prop :=
  ∀ (o : Output) (comps : List (List UInt8)) (seg : List UInt8),
    Stands label o comps seg → (∀ c ∈ comps, '/'.toUInt8 ∉ c) →
    (slashText comps).length + seg.length + rest.length < o.out.length →
    ∃ o', absPath label rest o = .ok o' ∧
      Stopped o' (resolve comps ((seg ++ rest).splitOn '/'.toUInt8)) ∧
      o'.out.length = o.out.length ∧ o'.oi < o'.out.length

/-- The machine at the end of the input. -/
theorem resolves_nil (label : Label) : Resolves label [] := by
  intro o comps seg stands free room
  rw [List.length_nil, Nat.add_zero] at room
  rw [List.append_nil]
  have inside : o.AtSlash comps → o.oi < o.out.length := by
    intro at_
    have := at_.holds.place
    omega
  cases label with
  | afterSlash =>
      rcases stands with ⟨at_, rfl⟩
      exact ⟨o, rfl, Or.inl at_, rfl, inside at_⟩
  | oneDot =>
      rcases stands with ⟨at_, rfl⟩
      exact ⟨o, rfl, Or.inl at_, rfl, inside at_⟩
  | twoDot =>
      rcases stands with ⟨at_, rfl⟩
      rcases Output.up_ok at_ free with ⟨o', up, there, same⟩
      refine ⟨o', up, Or.inl there, same, ?_⟩
      have place := there.holds.place
      have := length_slashText_dropLast comps
      omega
  | normal =>
      rcases stands with ⟨inName, slashFree, name⟩
      have place := inName.holds.place
      rw [List.length_append] at place
      refine ⟨o, rfl, ?_, rfl, by omega⟩
      rw [List.splitOn_eq_singleton slashFree, resolve_cons_name name]
      apply Or.inr
      refine ⟨comps, seg, rfl, ?_, inName⟩
      rintro rfl
      exact name List.nil_prefix

section Cons

variable {rest : List UInt8} (later : ∀ label, Resolves label rest) (c : UInt8)

include later

/-- Between two components. -/
theorem resolves_afterSlash : Resolves .afterSlash (c :: rest) := by
  intro o comps seg stands free room
  rw [List.length_cons] at room
  rcases stands with ⟨at_, rfl⟩
  rw [absPath]
  by_cases slash : c = '/'.toUInt8
  · subst slash
    rw [if_pos rfl, split_slash (by simp) rest, resolve_cons_skip (Or.inl rfl)]
    exact later .afterSlash o comps [] ⟨at_, rfl⟩ free (by simp at room ⊢; omega)
  · rw [if_neg slash]
    by_cases dot : c = '.'.toUInt8
    · subst dot
      rw [if_pos rfl]
      exact later .oneDot o comps (literal ".") ⟨at_, rfl⟩ free
        (by simp [literal] at room ⊢; omega)
    · rw [if_neg dot]
      rcases at_.inName.put_ok c (by simp at room ⊢; omega) with ⟨o₁, put, inName, same⟩
      have name : ¬ [c] <+: literal ".." := by
        intro short
        exact dot (List.cons_prefix_cons.mp short).1
      have stands : Stands .normal o₁ comps [c] :=
        ⟨inName, by simpa using Ne.symm slash, name⟩
      rcases later .normal o₁ comps [c] stands free (by simp at room ⊢; omega) with
        ⟨o', run, stopped, length, inside⟩
      exact ⟨o', by rw [put]; exact run, stopped, length.trans same, inside⟩

/-- After one dot. -/
theorem resolves_oneDot : Resolves .oneDot (c :: rest) := by
  intro o comps seg stands free room
  rw [List.length_cons] at room
  rcases stands with ⟨at_, rfl⟩
  rw [absPath]
  by_cases slash : c = '/'.toUInt8
  · subst slash
    rw [if_pos rfl, split_slash (by decide) rest, resolve_cons_skip (Or.inr rfl)]
    exact later .afterSlash o comps [] ⟨at_, rfl⟩ free (by simp at room ⊢; omega)
  · rw [if_neg slash]
    by_cases dot : c = '.'.toUInt8
    · subst dot
      rw [if_pos rfl]
      exact later .twoDot o comps (literal "..") ⟨at_, rfl⟩ free
        (by simp [literal] at room ⊢; omega)
    · rw [if_neg dot]
      rcases at_.inName.put_ok '.'.toUInt8 (by simp at room ⊢; omega) with
        ⟨o₁, put₁, inName₁, same₁⟩
      rcases inName₁.put_ok c (by simp [literal] at room ⊢; omega) with
        ⟨o₂, put₂, inName₂, same₂⟩
      have name : ¬ literal "." ++ [c] <+: literal ".." := by
        intro short
        exact dot (List.cons_prefix_cons.mp (List.cons_prefix_cons.mp short).2).1
      have slashFree : '/'.toUInt8 ∉ literal "." ++ [c] := by
        rw [List.mem_append, not_or]
        exact ⟨by decide, by simpa using Ne.symm slash⟩
      rcases later .normal o₂ comps (literal "." ++ [c]) ⟨inName₂, slashFree, name⟩ free
        (by simp [literal] at room ⊢; omega) with ⟨o', run, stopped, length, inside⟩
      refine ⟨o', ?_, ?_, length.trans (same₂.trans same₁), inside⟩
      · rw [put₁]
        show (o₁.put c >>= fun o => absPath .normal rest o) = _
        rw [put₂]
        exact run
      · rw [List.append_assoc] at stopped
        exact stopped

/-- After two dots. -/
theorem resolves_twoDot : Resolves .twoDot (c :: rest) := by
  intro o comps seg stands free room
  rw [List.length_cons] at room
  rcases stands with ⟨at_, rfl⟩
  rw [absPath]
  by_cases slash : c = '/'.toUInt8
  · subst slash
    rw [if_pos rfl, split_slash (by decide) rest, resolve_cons_up]
    rcases Output.up_ok at_ free with ⟨o₁, up, there, same⟩
    have shorter := length_slashText_dropLast comps
    rcases later .afterSlash o₁ comps.dropLast [] ⟨there, rfl⟩
      (fun c mem => free c (List.dropLast_subset comps mem))
      (by simp at room ⊢; omega) with ⟨o', run, stopped, length, inside⟩
    exact ⟨o', by rw [up]; exact run, stopped, length.trans same, inside⟩
  · rw [if_neg slash]
    rcases at_.inName.put_ok '.'.toUInt8 (by simp at room ⊢; omega) with
      ⟨o₁, put₁, inName₁, same₁⟩
    rcases inName₁.put_ok '.'.toUInt8 (by simp [literal] at room ⊢; omega) with
      ⟨o₂, put₂, inName₂, same₂⟩
    rcases inName₂.put_ok c (by simp [literal] at room ⊢; omega) with
      ⟨o₃, put₃, inName₃, same₃⟩
    have name : ¬ literal ".." ++ [c] <+: literal ".." := by
      intro short
      exact absurd short.length_le (by simp)
    have slashFree : '/'.toUInt8 ∉ literal ".." ++ [c] := by
      rw [List.mem_append, not_or]
      exact ⟨by decide, by simpa using Ne.symm slash⟩
    rcases later .normal o₃ comps (literal ".." ++ [c]) ⟨inName₃, slashFree, name⟩ free
      (by simp [literal] at room ⊢; omega) with ⟨o', run, stopped, length, inside⟩
    refine ⟨o', ?_, ?_, length.trans (same₃.trans (same₂.trans same₁)), inside⟩
    · rw [put₁]
      show (o₁.put '.'.toUInt8 >>= fun o => o.put c >>= fun o =>
        absPath .normal rest o) = _
      rw [put₂]
      show (o₂.put c >>= fun o => absPath .normal rest o) = _
      rw [put₃]
      exact run
    · rw [List.append_assoc] at stopped
      exact stopped

/-- Inside a component. -/
theorem resolves_normal : Resolves .normal (c :: rest) := by
  intro o comps seg stands free room
  rw [List.length_cons] at room
  rcases stands with ⟨inName, slashFree, name⟩
  rw [absPath]
  by_cases slash : c = '/'.toUInt8
  · subst slash
    rw [if_pos rfl, split_slash slashFree rest, resolve_cons_name name]
    rcases Output.putSlash_ok inName (by rw [List.length_append]; omega) with
      ⟨o₁, put, there, same⟩
    have free' : ∀ c ∈ comps ++ [seg], '/'.toUInt8 ∉ c := by
      intro c mem
      rcases List.mem_append.mp mem with old | new
      · exact free c old
      · exact List.mem_singleton.mp new ▸ slashFree
    rcases later .afterSlash o₁ (comps ++ [seg]) [] ⟨there, rfl⟩ free'
      (by rw [slashText_concat]; simp at room ⊢; omega) with
      ⟨o', run, stopped, length, inside⟩
    exact ⟨o', by rw [put]; exact run, stopped, length.trans same, inside⟩
  · rw [if_neg slash]
    rcases inName.put_ok c (by omega) with ⟨o₁, put, inName₁, same⟩
    have slashFree' : '/'.toUInt8 ∉ seg ++ [c] := by
      rw [List.mem_append, not_or]
      exact ⟨slashFree, by simpa using Ne.symm slash⟩
    rcases later .normal o₁ comps (seg ++ [c])
      ⟨inName₁, slashFree', not_prefix_concat name c⟩ free
      (by rw [List.length_append, List.length_singleton]; omega) with
      ⟨o', run, stopped, length, inside⟩
    refine ⟨o', by rw [put]; exact run, ?_, length.trans same, inside⟩
    rw [List.append_assoc] at stopped
    exact stopped

end Cons

/-- The machine resolves the input, whatever label it starts from. -/
theorem resolves (rest : List UInt8) (label : Label) : Resolves label rest := by
  induction rest generalizing label with
  | nil => exact resolves_nil label
  | cons c rest ih =>
      cases label with
      | afterSlash => exact resolves_afterSlash ih c
      | oneDot => exact resolves_oneDot ih c
      | twoDot => exact resolves_twoDot ih c
      | normal => exact resolves_normal ih c

end Btpd.Subr
