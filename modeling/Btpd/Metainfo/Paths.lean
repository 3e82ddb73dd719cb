import Btpd.Library.Join
import Btpd.Metainfo.Accepted

/-!
# File paths of an accepted torrent

The components of a path are checked as counted byte strings, and the path that
is rebuilt from them is handed to `open` as a C string.  Both readings of a
path are given here, and the difference between them is the zero byte.
-/

namespace Btpd.Metainfo

open Btpd.Benc Btpd.Join

variable {buffer : Buffer} {fuel : Nat}

/-! ## Safe paths -/

/-- A name that stands for an entry of the directory it is looked up in. -/
structure Component (c : List UInt8) : Prop where
  nonempty : c ≠ []
  not_dot : c ≠ literal "."
  not_dotdot : c ≠ literal ".."
  no_slash : '/'.toUInt8 ∉ c

/-- One or more components joined by slashes. -/
def SafePath (path : List UInt8) : Prop :=
  ∃ comps, comps ≠ [] ∧ path = ['/'.toUInt8].intercalate comps ∧ ∀ c ∈ comps, Component c

/-- The bytes of a C string stored in `path`. -/
def cString (path : List UInt8) : List UInt8 := cutAt 0 path

/-- The place that a path names, as the chain of directories that lead to it,
from the place `dir`. -/
def resolve : List (List UInt8) → List (List UInt8) → List (List UInt8)
  | dir, [] => dir
  | dir, c :: comps =>
      if c = [] ∨ c = literal "." then
        resolve dir comps
      else if c = literal ".." then
        resolve dir.dropLast comps
      else
        resolve (dir ++ [c]) comps

/-- `dir/path` names something inside of `dir`. -/
def StaysInside (dir : List (List UInt8)) (path : List UInt8) : Prop :=
  ∃ inner, inner ≠ [] ∧ resolve dir (path.splitOn '/'.toUInt8) = dir ++ inner

theorem resolve_of_components {comps : List (List UInt8)} (each : ∀ c ∈ comps, Component c)
    (dir : List (List UInt8)) : resolve dir comps = dir ++ comps := by
  induction comps generalizing dir with
  | nil => simp [resolve]
  | cons c comps ih =>
      have component := each c (by simp)
      have ordinary : ¬ (c = [] ∨ c = literal ".") :=
        not_or.mpr ⟨component.nonempty, component.not_dot⟩
      rw [resolve, if_neg ordinary, if_neg component.not_dotdot,
        ih (fun c mem => each c (List.mem_cons_of_mem _ mem))]
      simp

theorem SafePath.staysInside {path : List UInt8} (safe : SafePath path)
    (dir : List (List UInt8)) : StaysInside dir path := by
  obtain ⟨comps, nonempty, rfl, each⟩ := safe
  refine ⟨comps, nonempty, ?_⟩
  rw [List.splitOn_intercalate _ (fun c mem => (each c mem).no_slash) nonempty,
    resolve_of_components each]

/-- The first component that contains a zero byte is still a component when it
is cut off there. -/
def CutSafely (comps : List (List UInt8)) : Prop :=
  ∀ c, comps.find? (fun c => 0 ∈ c) = some c →
    cutAt 0 c ∉ [[], literal ".", literal ".."]

/-- Read as a C string, a path of components is safe exactly when it is cut
safely. -/
theorem safePath_cString_iff {comps : List (List UInt8)} (nonempty : comps ≠ [])
    (each : ∀ c ∈ comps, Component c) :
    SafePath (cString (['/'.toUInt8].intercalate comps)) ↔ CutSafely comps := by
  have different : '/'.toUInt8 ≠ 0 := by decide
  have slashFree : ∀ c ∈ cutParts 0 comps, '/'.toUInt8 ∉ c :=
    sep_not_mem_cutParts fun c mem => (each c mem).no_slash
  have cutComponents : SafePath (cString (['/'.toUInt8].intercalate comps)) ↔
      ∀ c ∈ cutParts 0 comps, Component c := by
    rw [cString, cutAt_intercalate different]
    constructor
    · rintro ⟨comps', nonempty', equal, each'⟩
      rwa [eq_of_intercalate_eq (cutParts_ne_nil nonempty) nonempty' slashFree
        (fun c mem => (each' c mem).no_slash) equal]
    · exact fun cutEach => ⟨_, cutParts_ne_nil nonempty, rfl, cutEach⟩
  rw [cutComponents, forall_cutParts_iff each]
  constructor
  · intro cut c found mem
    have component := cut c found
    simp only [List.mem_cons, List.not_mem_nil, or_false] at mem
    rcases mem with empty | dot | dotdot
    · exact component.nonempty empty
    · exact component.not_dot dot
    · exact component.not_dotdot dotdot
  · intro cut c found
    have other := cut c found
    simp only [List.mem_cons, List.not_mem_nil, or_false, not_or] at other
    have mem := List.mem_of_find?_eq_some found
    exact ⟨other.1, other.2.1, other.2.2, fun slash =>
      (each c mem).no_slash (mem_of_mem_cutAt slash)⟩

/-! ## The check of a component -/

theorem bytes_of_memchr {c : UInt8} {n p : Nat}
    (absent : memchr buffer c n p = .ok false) :
    ∃ bytes, readBytes buffer n p = .ok bytes ∧ c ∉ bytes := by
  induction n generalizing p with
  | zero => exact ⟨[], rfl, by simp⟩
  | succ n ih =>
      obtain ⟨b, readEq, absent⟩ := Exec.bind_eq_ok.mp absent
      split at absent
      case isTrue => cases absent
      rename_i other
      obtain ⟨bytes, bytesEq, free⟩ := ih absent
      refine ⟨b :: bytes, ?_, by simpa using ⟨Ne.symm other, free⟩⟩
      rw [readBytes, readEq, Exec.bind_ok, bytesEq]
      rfl

theorem startsWithDot_eq {p : Nat} {b : UInt8} (readEq : buffer.read p = .ok b) :
    startsWithDot buffer p = .ok (b = '.'.toUInt8) := by
  rw [startsWithDot, readEq]
  rfl

/-- `mi_test_path` reads its whole argument and lets only components pass. -/
theorem component_of_miTestPath {path len : Nat}
    (tested : miTestPath buffer path len = .ok true) :
    ∃ c, readBytes buffer len path = .ok c ∧ Component c := by
  rw [miTestPath] at tested
  split at tested
  case isTrue => cases tested
  rename_i nonempty
  obtain ⟨dot, dotEq, tested⟩ := Exec.bind_eq_ok.mp tested
  split at tested
  case isTrue => cases tested
  rename_i notDot
  obtain ⟨dotdot, dotdotEq, tested⟩ := Exec.bind_eq_ok.mp tested
  split at tested
  case isTrue => cases tested
  rename_i notDotdot
  obtain ⟨slash, absent, tested⟩ := Exec.bind_eq_ok.mp tested
  split at tested
  case isTrue => cases tested
  rename_i notSlash
  rw [Bool.eq_false_iff.mpr notSlash] at absent
  obtain ⟨c, bytesEq, slashFree⟩ := bytes_of_memchr absent
  have lengthEq := length_of_readBytes bytesEq
  refine ⟨c, bytesEq, ?_, ?_, ?_, slashFree⟩
  · rintro rfl
    exact nonempty lengthEq.symm
  · rintro rfl
    obtain rfl : len = 1 := lengthEq.symm
    obtain ⟨b, rest, split, readEq, -⟩ := readBytes_succ bytesEq
    rw [if_pos rfl, startsWithDot_eq readEq, ← (List.cons.inj split).1] at dotEq
    exact notDot (Except.ok.inj dotEq).symm
  · rintro rfl
    obtain rfl : len = 2 := lengthEq.symm
    obtain ⟨b, rest, split, readEq, restEq⟩ := readBytes_succ bytesEq
    obtain ⟨b', rest', split', readEq', -⟩ := readBytes_succ restEq
    rw [if_pos rfl, startsWithDot_eq readEq, ← (List.cons.inj split).1, Exec.bind_ok] at dotdotEq
    have second := (List.cons.inj ((List.cons.inj split).2.trans split')).1
    rw [startsWithDot_eq readEq', ← second] at dotdotEq
    exact notDotdot (Except.ok.inj dotdotEq).symm

/-! ## The components of a path -/

/-- The strings that an iteration with `benc_mem` reads, from the pointer `iter`
on. -/
inductive Components (buffer : Buffer) (fuel : Nat) : Option Nat → List (List UInt8) → Prop
  | done : Components buffer fuel none []
  | step {p : Nat} {next : Option Nat} {c : List UInt8} {comps : List (List UInt8)}
      (read : filepathComponent buffer fuel (some p) = .ok (c, next))
      (later : Components buffer fuel next comps) :
      Components buffer fuel (some p) (c :: comps)

theorem filepathComponent_eq {p bstr : Nat} {next : Option Nat} {c : List UInt8}
    (mem : bencMemNext buffer fuel p = .ok (some (bstr, c.length, next)))
    (bytesEq : readBytes buffer c.length bstr = .ok c) :
    filepathComponent buffer fuel (some p) = .ok (c, next) := by
  rw [filepathComponent, deref, Exec.pure_eq, Exec.bind_ok, mem, Exec.bind_ok]
  simp only [bytesEq, Exec.bind_ok, Exec.pure_eq]

theorem exists_mem_of_filepathComponent {p : Nat} {next : Option Nat} {c : List UInt8}
    (read : filepathComponent buffer fuel (some p) = .ok (c, next)) :
    ∃ bstr, bencMemNext buffer fuel p = .ok (some (bstr, c.length, next)) ∧
      readBytes buffer c.length bstr = .ok c := by
  rw [filepathComponent, deref, Exec.pure_eq, Exec.bind_ok] at read
  obtain ⟨mem, memEq, read⟩ := Exec.bind_eq_ok.mp read
  cases mem with
  | none => cases read
  | some mem =>
      obtain ⟨bstr, blen, next'⟩ := mem
      obtain ⟨bytes, bytesEq, read⟩ := Exec.bind_eq_ok.mp read
      cases read
      obtain rfl := length_of_readBytes bytesEq
      exact ⟨bstr, memEq, bytesEq⟩

/-- Bytes that the components of a path take up in the buffer, with the two
bytes that every header has at least. -/
def footprint (comps : List (List UInt8)) : Nat := (comps.map fun c => c.length + 2).sum

@[simp]
theorem footprint_nil : footprint [] = 0 :=
  rfl

@[simp]
theorem footprint_cons (c : List UInt8) (comps : List (List UInt8)) :
    footprint (c :: comps) = c.length + 2 + footprint comps := by
  simp [footprint]

theorem Components.inside {iter : Option Nat} {comps : List (List UInt8)}
    (components : Components buffer fuel iter comps) {p : Nat} (start : iter = some p) :
    p + footprint comps ≤ buffer.stop := by
  induction components generalizing p with
  | done => cases start
  | @step q next c comps read later ih =>
      cases start
      obtain ⟨bstr, mem, bytesEq⟩ := exists_mem_of_filepathComponent read
      obtain ⟨header, inside, following⟩ := bencMemNext_bounds mem bytesEq
      rw [footprint_cons]
      cases next with
      | none =>
          cases later
          rw [footprint_nil]
          omega
      | some next =>
          have := ih rfl
          have := following next rfl
          omega

theorem Components.footprint_lt {iter : Option Nat} {comps : List (List UInt8)}
    (components : Components buffer fuel iter comps) : footprint comps < wordSize := by
  have := buffer.stop_lt
  cases components with
  | done => decide
  | step read later =>
      have := (Components.step read later).inside rfl
      omega

/-- What `mi_test_files` checks of a path. -/
theorem components_of_testComponents {bound n : Nat} {iter : Option Nat}
    {pcount pcount' : Int} (startEq : pcount = toInt n)
    (tested : testComponents buffer fuel bound iter pcount = .ok (some pcount')) :
    ∃ comps, Components buffer fuel iter comps ∧ comps.length < bound ∧
      (∀ c ∈ comps, Component c) ∧ pcount' = toInt (n + comps.length) := by
  induction bound generalizing iter pcount n with
  | zero => cases tested
  | succ bound ih =>
      cases iter with
      | none =>
          simp only [testComponents, Exec.pure_eq, Except.ok.injEq, Option.some.injEq] at tested
          refine ⟨[], .done, Nat.zero_lt_succ _, by simp, ?_⟩
          rw [← tested, startEq, List.length_nil, Int.natCast_zero, Int.add_zero]
      | some p =>
          obtain ⟨mem, memEq, tested⟩ := Exec.bind_eq_ok.mp tested
          cases mem with
          | none => cases tested
          | some mem =>
              obtain ⟨bstr, blen, next⟩ := mem
              obtain ⟨ok, pathTested, rest⟩ := Exec.bind_eq_ok.mp tested
              split at rest
              case isFalse => cases rest
              rename_i okTrue
              rw [okTrue] at pathTested
              obtain ⟨c, bytesEq, component⟩ := component_of_miTestPath pathTested
              obtain rfl := length_of_readBytes bytesEq
              have countEq : toInt (pcount + 1) = toInt (n + 1 : Nat) := by
                rw [startEq, toInt_add_one]
                rfl
              obtain ⟨comps, components, turns, each, countEq'⟩ := ih countEq rest
              refine ⟨c :: comps, .step (filepathComponent_eq memEq bytesEq) components,
                by simpa using turns, List.forall_mem_cons.mpr ⟨component, each⟩, ?_⟩
              rw [countEq', List.length_cons]
              congr 1
              omega

/-! ## `mi_filepath` -/

theorem filepathLength_eq {bound npaths plen : Nat} {iter : Option Nat}
    {comps : List (List UInt8)} (components : Components buffer fuel iter comps)
    (turns : comps.length < bound)
    (small : npaths + plen + footprint comps < wordSize) :
    filepathLength buffer fuel bound iter npaths plen =
      .ok (npaths + comps.length, plen + (comps.map List.length).sum) := by
  induction components generalizing bound npaths plen with
  | done =>
      obtain ⟨bound, rfl⟩ := Nat.exists_eq_add_one_of_ne_zero (show bound ≠ 0 by omega)
      rfl
  | @step p next c comps read later ih =>
      simp only [List.length_cons] at turns
      obtain ⟨bound, rfl⟩ := Nat.exists_eq_add_one_of_ne_zero (show bound ≠ 0 by omega)
      obtain ⟨bstr, mem, -⟩ := exists_mem_of_filepathComponent read
      rw [footprint_cons] at small
      rw [filepathLength, mem, Exec.bind_ok]
      simp only
      rw [Nat.mod_eq_of_lt (by omega), Nat.mod_eq_of_lt (by omega),
        ih (by omega) (by omega), List.length_cons, List.map_cons, List.sum_cons]
      congr 2 <;> omega

/-- The components that are still to be copied, each behind a slash. -/
def slashed (comps : List (List UInt8)) : List UInt8 :=
  comps.flatMap fun c => '/'.toUInt8 :: c

theorem filepathCopy_eq {cap : Nat} {iter : Option Nat} {comps : List (List UInt8)}
    {res : List UInt8} (components : Components buffer fuel iter comps)
    (room : res.length + (slashed comps).length < cap) :
    filepathCopy buffer fuel cap comps.length iter res = .ok (res ++ slashed comps) := by
  induction components generalizing res with
  | done =>
      have fits : res.length < cap := by simpa [slashed] using room
      simp [filepathCopy, fits, slashed, Exec.pure_eq]
  | @step p next c comps read later ih =>
      have slashedEq : slashed (c :: comps) = ('/'.toUInt8 :: c) ++ slashed comps := by
        simp [slashed]
      rw [slashedEq] at room ⊢
      simp only [List.length_append, List.length_cons] at room
      rw [List.length_cons, filepathCopy, read, Exec.bind_ok]
      simp only
      rw [if_pos (by omega), ih (by
        simp only [List.length_append, List.length_cons]
        omega), List.append_assoc]

theorem length_slashed (comps : List (List UInt8)) :
    (slashed comps).length = (comps.map List.length).sum + comps.length := by
  induction comps with
  | nil => rfl
  | cons c comps ih =>
      simp only [slashed, List.flatMap_cons, List.length_append, List.length_cons,
        List.map_cons, List.sum_cons] at ih ⊢
      omega

theorem le_footprint (comps : List (List UInt8)) :
    (comps.map List.length).sum + comps.length ≤ footprint comps := by
  induction comps with
  | nil => exact Nat.le_refl _
  | cons c comps ih =>
      simp only [footprint_cons, List.map_cons, List.sum_cons, List.length_cons]
      omega

/-- `mi_filepath` joins the components with slashes, in a block that is exactly
large enough. -/
theorem miFilepath_eq {plst : Nat} {first : Option Nat} {comps : List (List UInt8)}
    (firstEq : bencFirst buffer plst = .ok first)
    (components : Components buffer fuel first comps) (nonempty : comps ≠ [])
    (turns : comps.length < fuel) :
    miFilepath buffer fuel plst = .ok (['/'.toUInt8].intercalate comps) := by
  have small := components.footprint_lt
  have counted := filepathLength_eq components turns
    (show 0 + 0 + footprint comps < wordSize by omega)
  cases components with
  | done => exact absurd rfl nonempty
  | @step p next c comps read later =>
      have lengths := le_footprint (c :: comps)
      have slashedLength := length_slashed comps
      simp only [List.map_cons, List.sum_cons, List.length_cons] at lengths counted
      rw [intercalate_cons_eq, miFilepath, firstEq, Exec.bind_ok, counted, Exec.bind_ok]
      simp only [Nat.zero_add]
      have cap : (c.length + (comps.map List.length).sum + (comps.length + 1 + wordSize - 1) + 1) %
          wordSize = c.length + (comps.map List.length).sum + (comps.length + 1) := by
        rw [show c.length + (comps.map List.length).sum + (comps.length + 1 + wordSize - 1) + 1 =
          c.length + (comps.map List.length).sum + (comps.length + 1) + wordSize by omega,
          Nat.add_mod_right, Nat.mod_eq_of_lt (by omega)]
      rw [cap, read, Exec.bind_ok]
      simp only
      rw [if_pos (by omega), Nat.add_sub_cancel, filepathCopy_eq later (by omega)]
      rfl

end Btpd.Metainfo
