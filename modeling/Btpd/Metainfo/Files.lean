import Btpd.Metainfo.Paths

/-!
# `mi_files` on an accepted torrent

The files that `mi_files` returns are the tested ones, in their order, each
under the join of its components, as long as their number fits in the `int`
that indexes them.  The paths are safe C strings exactly when each of them is
cut safely.
-/

namespace Btpd.Metainfo

open Btpd.Benc Btpd.Join

variable {buffer : Buffer} {fuel : Nat}

/-! ## The components of every path, as the file has them -/

/-- The strings that `benc_mem` reads one after another. -/
def pathComponents (buffer : Buffer) (fuel : Nat) :
    Nat → Option Nat → Exec (List (List UInt8))
  | 0, _ => .error .diverge
  | _ + 1, none => pure []
  | bound + 1, some p => do
      let (c, next) ← filepathComponent buffer fuel (some p)
      let comps ← pathComponents buffer fuel bound next
      pure (c :: comps)

/-- The components of the path of one file. -/
def fileComponents (buffer : Buffer) (fuel fdct : Nat) : Exec (List (List UInt8)) := do
  let plst ← bencDgetLst buffer fuel fdct (literal "path")
  let plst ← deref plst
  let first ← bencFirst buffer plst
  pathComponents buffer fuel fuel first

/-- The components of every path of a torrent: those of its files, or its name
alone. -/
def filePaths (buffer : Buffer) (fuel p : Nat) : Exec (List (List (List UInt8))) := do
  let info ← miInfo buffer fuel p
  match ← bencDgetLst buffer fuel info (literal "files") with
  | some files => do
      let elems ← bencElems buffer fuel files
      elems.mapM (fileComponents buffer fuel)
  | none => do
      match ← bencDgetStr buffer fuel info (literal "name") with
      | some name => pure [[name]]
      | none => pure []

theorem pathComponents_eq {bound : Nat} {iter : Option Nat} {comps : List (List UInt8)}
    (components : Components buffer fuel iter comps) (turns : comps.length < bound) :
    pathComponents buffer fuel bound iter = .ok comps := by
  induction components generalizing bound with
  | done =>
      obtain ⟨bound, rfl⟩ := Nat.exists_eq_add_one_of_ne_zero (show bound ≠ 0 by omega)
      rfl
  | @step p next c comps read later ih =>
      obtain ⟨bound, rfl⟩ := Nat.exists_eq_add_one_of_ne_zero (show bound ≠ 0 by omega)
      rw [pathComponents, read, Exec.bind_ok]
      simp only
      rw [ih (by simpa using turns), Exec.bind_ok]
      rfl

/-! ## The entries of the tested files -/

/-- What a tested file dictionary describes. -/
structure FileEntry (buffer : Buffer) (fuel fdct : Nat) (length : Int)
    (comps : List (List UInt8)) : Prop where
  lengthEq : bencDgetInt buffer fuel fdct (literal "length") = .ok length
  nonneg : 0 ≤ length
  componentsEq : fileComponents buffer fuel fdct = .ok comps
  filepathEq : ∃ plst, bencDgetLst buffer fuel fdct (literal "path") = .ok (some plst) ∧
    miFilepath buffer fuel plst = .ok (['/'.toUInt8].intercalate comps)
  nonempty : comps ≠ []
  each : ∀ c ∈ comps, Component c

theorem toInt_zero : toInt (0 : Nat) = 0 := by decide

theorem FileTested.exists_entry {fdct : Nat} (tested : FileTested buffer fuel fdct) :
    ∃ length comps, FileEntry buffer fuel fdct length comps := by
  obtain ⟨⟨length, lengthEq, nonneg⟩, plst, first, pcount, plstEq, firstEq, pathTested,
    nonzero⟩ := tested
  obtain ⟨comps, components, turns, each, countEq⟩ :=
    components_of_testComponents toInt_zero.symm pathTested
  have nonempty : comps ≠ [] := by
    rintro rfl
    exact nonzero (countEq.trans toInt_zero)
  refine ⟨length, comps, lengthEq, nonneg, ?_, ⟨plst, plstEq, ?_⟩, nonempty, each⟩
  · rw [fileComponents, plstEq, Exec.bind_ok, deref, Exec.pure_eq, Exec.bind_ok, firstEq,
      Exec.bind_ok, pathComponents_eq components turns]
  · exact miFilepath_eq firstEq components nonempty turns

/-- The file that `mi_files` makes of an entry. -/
def entryFile (entry : Int × List (List UInt8)) : MiFile :=
  ⟨['/'.toUInt8].intercalate entry.2, entry.1⟩

/-- The entries of a list of file dictionaries, in their order. -/
def Entries (buffer : Buffer) (fuel : Nat) (elems : List Nat)
    (entries : List (Int × List (List UInt8))) : Prop :=
  List.Forall₂ (fun fdct entry => FileEntry buffer fuel fdct entry.1 entry.2) elems entries

theorem exists_entries {elems : List Nat}
    (tested : ∀ fdct ∈ elems, FileTested buffer fuel fdct) :
    ∃ entries, Entries buffer fuel elems entries := by
  induction elems with
  | nil => exact ⟨[], .nil⟩
  | cons fdct elems ih =>
      obtain ⟨length, comps, entry⟩ := (tested fdct (by simp)).exists_entry
      obtain ⟨entries, later⟩ := ih fun fdct mem => tested fdct (List.mem_cons_of_mem _ mem)
      exact ⟨(length, comps) :: entries, .cons entry later⟩

namespace Entries

variable {elems : List Nat} {entries : List (Int × List (List UInt8))}

theorem lengths_eq (all : Entries buffer fuel elems entries) :
    elems.mapM (fun fdct => bencDgetInt buffer fuel fdct (literal "length")) =
      .ok (entries.map Prod.fst) := by
  induction all with
  | nil => rfl
  | cons entry later ih =>
      rw [List.mapM_cons, entry.lengthEq, Exec.bind_ok, ih]
      rfl

theorem components_eq (all : Entries buffer fuel elems entries) :
    elems.mapM (fileComponents buffer fuel) = .ok (entries.map Prod.snd) := by
  induction all with
  | nil => rfl
  | cons entry later ih =>
      rw [List.mapM_cons, entry.componentsEq, Exec.bind_ok, ih]
      rfl

theorem forall_mem (all : Entries buffer fuel elems entries) :
    ∀ entry ∈ entries, entry.2 ≠ [] ∧ ∀ c ∈ entry.2, Component c := by
  induction all with
  | nil => simp
  | cons entry later ih => exact List.forall_mem_cons.mpr ⟨⟨entry.nonempty, entry.each⟩, ih⟩

end Entries

/-! ## The loop of `mi_files` -/

theorem miFilesBody_eq {fdct nfiles : Nat} {length i : Int} {comps : List (List UInt8)}
    {fi : List MiFile} (entry : FileEntry buffer fuel fdct length comps) :
    miFilesBody buffer fuel nfiles (i, fi) fdct =
      if 0 ≤ i ∧ i < nfiles then
        .ok (some (toInt (i + 1), fi ++ [entryFile (length, comps)]))
      else
        .error .outOfBounds := by
  obtain ⟨plst, plstEq, pathEq⟩ := entry.filepathEq
  rw [miFilesBody]
  simp only [entry.lengthEq, plstEq, deref, pathEq, Exec.bind_ok, Exec.pure_eq, entryFile]

/-- The loop fills the array when it has a cell for each file and the index
does not overflow; otherwise it writes outside of it. -/
theorem foldElems_miFilesBody {elems : List Nat} {entries : List (Int × List (List UInt8))}
    (all : Entries buffer fuel elems entries) {nfiles i : Nat} {start : Int}
    (startEq : start = toInt i) (inRange : i ≤ 2 ^ 31) (fi : List MiFile) :
    foldElems (miFilesBody buffer fuel nfiles) elems (start, fi) =
      if elems = [] ∨ (i + elems.length ≤ nfiles ∧ i + elems.length ≤ 2 ^ 31) then
        .ok (some (toInt (i + elems.length : Nat), fi ++ entries.map entryFile))
      else
        .error .outOfBounds := by
  induction all generalizing i start fi with
  | nil =>
      rw [if_pos (.inl rfl), foldElems, startEq, List.map_nil, List.append_nil]
      rfl
  | @cons fdct entry elems entries file later ih =>
      rw [foldElems, miFilesBody_eq file]
      have index : 0 ≤ start ∧ start < nfiles ↔ i < nfiles ∧ i < 2 ^ 31 := by
        rw [startEq, toInt]
        omega
      have position : i + (fdct :: elems).length = i + 1 + elems.length := by
        rw [List.length_cons]
        omega
      rw [position]
      by_cases cell : i < nfiles ∧ i < 2 ^ 31
      · have nextEq : toInt (start + 1) = toInt (i + 1 : Nat) := by
          rw [startEq, toInt_add_one]
          rfl
        rw [if_pos (index.mpr cell), Exec.bind_ok]
        simp only
        rw [ih nextEq (by omega), List.append_assoc, List.singleton_append, List.map_cons]
        by_cases done : elems = []
        · subst done
          rw [if_pos (.inl rfl), if_pos (.inr (by
            simp only [List.length_nil]
            omega))]
        · simp only [done, reduceCtorEq, false_or]
      · rw [if_neg fun inside => cell (index.mp inside), if_neg]
        · rfl
        · simp only [reduceCtorEq, false_or]
          omega

section

variable (accepted : Accepted buffer fuel)

include accepted

/-- `mi_files` on a list of files. -/
theorem miFiles_many {files : Nat} {first : Option Nat} {elems : List Nat}
    {entries : List (Int × List (List UInt8))}
    (filesEq : bencDgetLst buffer fuel accepted.info (literal "files") = .ok (some files))
    (firstEq : bencFirst buffer files = .ok first)
    (visits : Visits buffer fuel first elems) (turns : elems.length < fuel)
    (all : Entries buffer fuel elems entries) :
    miFiles buffer fuel buffer.base =
      if elems.length ≤ 2 ^ 31 then
        .ok (some (entries.map entryFile))
      else
        .error .outOfBounds := by
  rw [miFiles, accepted.miInfo_eq, Exec.bind_ok, filesEq, Exec.bind_ok]
  simp only [bencNelems_of_visits firstEq visits turns, firstEq, Exec.bind_ok]
  rw [bencForeach_of_visits visits turns,
    foldElems_miFilesBody all toInt_zero.symm (Nat.zero_le _)]
  simp only [Nat.zero_add, List.nil_append]
  by_cases small : elems.length ≤ 2 ^ 31
  · rw [if_pos (.inr (by omega)), if_pos small]
    rfl
  · rw [if_neg small, if_neg]
    · rfl
    · rintro (rfl | room)
      · exact small (by simp)
      · exact small room.2

/-- `mi_files` on a single file takes its name for the path. -/
theorem miFiles_single {length : Int} {name : Option (List UInt8)}
    (lengthEq : bencDgetInt buffer fuel accepted.info (literal "length") = .ok length)
    (noFiles : bencDgetLst buffer fuel accepted.info (literal "files") = .ok none)
    (nameEq : bencDgetStr buffer fuel accepted.info (literal "name") = .ok name) :
    miFiles buffer fuel buffer.base = .ok (name.map fun path => [⟨path, length⟩]) := by
  rw [miFiles, accepted.miInfo_eq, Exec.bind_ok, noFiles, Exec.bind_ok]
  simp only [lengthEq, nameEq, Exec.bind_ok]
  cases name <;> rfl

/-- A name that was tested is one component. -/
theorem exists_name : ∃ name, bencDgetStr buffer fuel accepted.info (literal "name") = .ok name ∧
    ∀ path, name = some path → Component path := by
  have tested := accepted.nameTested
  rw [testName] at tested
  obtain ⟨mem, memEq, tested⟩ := Exec.bind_eq_ok.mp tested
  obtain ⟨str, strEq, memEq⟩ := Exec.bind_eq_ok.mp memEq
  cases str with
  | none => exact ⟨none, by rw [bencDgetStr, strEq]; rfl, by simp⟩
  | some str =>
      simp only at memEq
      cases mem with
      | none =>
          refine ⟨none, ?_, by simp⟩
          rw [bencDgetStr, strEq, Exec.bind_ok]
          simp only [bencStr, memEq, Exec.bind_ok, Exec.pure_eq]
      | some mem =>
          obtain ⟨q, slen⟩ := mem
          obtain ⟨path, bytesEq, component⟩ := component_of_miTestPath tested
          refine ⟨some path, ?_, ?_⟩
          · rw [bencDgetStr, strEq, Exec.bind_ok]
            simp only [bencStr, memEq, bytesEq, Exec.bind_ok, Exec.pure_eq]
          · rintro _ ⟨rfl⟩
            exact component

end

theorem safePath_and_inside_iff {comps : List (List UInt8)} (nonempty : comps ≠ [])
    (each : ∀ c ∈ comps, Component c) :
    (SafePath (cString (['/'.toUInt8].intercalate comps)) ∧
      ∀ dir, StaysInside dir (cString (['/'.toUInt8].intercalate comps))) ↔
      CutSafely comps := by
  rw [← safePath_cString_iff nonempty each]
  exact ⟨And.left, fun safe => ⟨safe, safe.staysInside⟩⟩

/-- The paths of the files of an accepted torrent, read as C strings, are safe
exactly when every path is cut safely. -/
theorem miFiles_safePath_iff {files : List MiFile} (accepts : miTest buffer fuel = .ok true)
    (filesEq : miFiles buffer fuel buffer.base = .ok (some files)) :
    ∃ paths, filePaths buffer fuel buffer.base = .ok paths ∧
      ((∀ file ∈ files, SafePath (cString file.path) ∧
          ∀ dir, StaysInside dir (cString file.path)) ↔
        ∀ comps ∈ paths, CutSafely comps) := by
  obtain ⟨accepted⟩ := exists_accepted accepts
  rw [filePaths, accepted.miInfo_eq, Exec.bind_ok]
  cases files_of_testLength accepted.lengthTested with
  | single lengthEq positive noFiles =>
      obtain ⟨name, nameEq, component⟩ := exists_name accepted
      rw [miFiles_single accepted lengthEq noFiles nameEq] at filesEq
      cases name with
      | none => cases filesEq
      | some path =>
          obtain rfl : [MiFile.mk path accepted.length] = files := by simpa using filesEq
          have each : ∀ c ∈ [path], Component c := by simpa using component path rfl
          have single := safePath_and_inside_iff (by simp) each
          refine ⟨[[path]], ?_, by simpa using single⟩
          rw [noFiles, Exec.bind_ok]
          simp only [nameEq, Exec.bind_ok, Exec.pure_eq]
  | many list first elems listEq firstEq visits turns tested counted summed =>
      obtain ⟨entries, all⟩ := exists_entries tested
      rw [miFiles_many accepted listEq firstEq visits turns all] at filesEq
      split at filesEq
      case isFalse => cases filesEq
      obtain rfl : entries.map entryFile = files := by simpa using filesEq
      refine ⟨entries.map Prod.snd, ?_, ?_⟩
      · rw [listEq, Exec.bind_ok]
        simp only [bencElems_of_visits firstEq visits turns, Exec.bind_ok, all.components_eq]
      · simp only [List.forall_mem_map]
        refine forall₂_congr fun entry mem => ?_
        obtain ⟨nonempty, each⟩ := all.forall_mem entry mem
        exact safePath_and_inside_iff nonempty each

/-- Two files, one of them in a directory. -/
def twoFiles : Buffer where
  base := 4096
  bytes := literal ("d13:announce-listll1:a1:bee4:infod5:filesld6:lengthi4e4:pathl1:x1:yeed" ++
    "6:lengthi6e4:pathl1:zeee4:name1:n12:piece lengthi10e6:pieces20:01234567890123456789ee")
  base_pos := page_pos
  fits := by decide +kernel

theorem miFiles_safePath_iff_twoFiles :
    ∃ paths, filePaths twoFiles 200 twoFiles.base = .ok paths ∧
      ((∀ file ∈ [MiFile.mk (literal "x/y") 4, MiFile.mk (literal "z") 6],
          SafePath (cString file.path) ∧ ∀ dir, StaysInside dir (cString file.path)) ↔
        ∀ comps ∈ paths, CutSafely comps) :=
  miFiles_safePath_iff (by decide +kernel) (by decide +kernel)

/-- A file whose path has the one component `..`, a zero byte and `x`. -/
def dotdotZero : Buffer where
  base := 4096
  bytes := literal ("d8:announce1:a4:infod5:filesld6:lengthi5e4:pathl4:..\x00xeee" ++
    "4:name1:n12:piece lengthi10e6:pieces20:01234567890123456789ee")
  base_pos := page_pos
  fits := by decide +kernel

theorem not_safePath_dotdot : ¬ SafePath (literal "..") := by
  rintro ⟨comps, nonempty, equal, each⟩
  have split := List.splitOn_intercalate '/'.toUInt8 (fun c mem => (each c mem).no_slash) nonempty
  rw [← equal] at split
  obtain rfl : [literal ".."] = comps := split
  exact (each _ (List.mem_singleton_self _)).not_dotdot rfl

/-- The path passes the check as four bytes and names the parent directory as a
C string. -/
theorem dotdotZero_not_safePath : miTest dotdotZero 200 = .ok true ∧
    miFiles dotdotZero 200 dotdotZero.base = .ok (some [⟨literal "..\x00x", 5⟩]) ∧
    ¬ SafePath (cString (literal "..\x00x")) := by
  refine ⟨by decide +kernel, by decide +kernel, ?_⟩
  rw [show cString (literal "..\x00x") = literal ".." by decide]
  exact not_safePath_dotdot

end Btpd.Metainfo
