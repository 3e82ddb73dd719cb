import Btpd.Metainfo.Check

/-!
# What an accepted metainfo file has passed

`mi_test` is inverted once: `Accepted` holds the values that an accepting run
found and the results of its checks.  The later files take what they need from
it and never unfold the check.
-/

namespace Btpd.Metainfo

open Btpd.Benc

variable {buffer : Buffer} {fuel : Nat}

/-- The values that an accepting run of `mi_test` found, with the checks that
they passed. -/
structure Accepted (buffer : Buffer) (fuel : Nat) where
  info : Nat
  pieceLength : Int
  pieces : Nat
  slen : Nat
  length : Int
  announceTested : testAnnounce buffer fuel buffer.base = .ok true
  infoEq : bencDgetDct buffer fuel buffer.base (literal "info") = .ok (some info)
  nameTested : testName buffer fuel info = .ok true
  pieceLengthEq : bencDgetInt buffer fuel info (literal "piece length") = .ok pieceLength
  pieceLength_pos : 0 < pieceLength
  piecesEq : bencDgetMem buffer fuel info (literal "pieces") = .ok (some (pieces, slen))
  lengthTested : testLength buffer fuel info = .ok (some length)
  totalTested : testTotal length (slen / 20) pieceLength = true

theorem exists_accepted_of_testInfo {info : Nat}
    (tested : testInfo buffer fuel info = .ok true) :
    ∃ pieceLength pieces slen length, testName buffer fuel info = .ok true ∧
      bencDgetInt buffer fuel info (literal "piece length") = .ok pieceLength ∧
      0 < pieceLength ∧
      bencDgetMem buffer fuel info (literal "pieces") = .ok (some (pieces, slen)) ∧
      testLength buffer fuel info = .ok (some length) ∧
      testTotal length (slen / 20) pieceLength = true := by
  rw [testInfo] at tested
  obtain ⟨nameOk, nameTested, tested⟩ := Exec.bind_eq_ok.mp tested
  split at tested
  case isFalse => cases tested
  rename_i nameTrue
  obtain ⟨pieceLength, pieceLengthEq, tested⟩ := Exec.bind_eq_ok.mp tested
  split at tested
  case isTrue => cases tested
  rename_i positive
  obtain ⟨pieces, piecesEq, tested⟩ := Exec.bind_eq_ok.mp tested
  cases pieces with
  | none => cases tested
  | some pieces =>
      obtain ⟨pieces, slen⟩ := pieces
      simp only at tested
      split at tested
      case isTrue => cases tested
      obtain ⟨length, lengthTested, tested⟩ := Exec.bind_eq_ok.mp tested
      cases length with
      | none => cases tested
      | some length =>
          refine ⟨pieceLength, pieces, slen, length, ?_, pieceLengthEq, by omega, piecesEq,
            lengthTested, Except.ok.inj tested⟩
          rw [nameTested, nameTrue]

theorem exists_accepted (accepts : miTest buffer fuel = .ok true) :
    Nonempty (Accepted buffer fuel) := by
  rw [miTest] at accepts
  obtain ⟨valid, -, accepts⟩ := Exec.bind_eq_ok.mp accepts
  split at accepts
  case isTrue => cases accepts
  obtain ⟨isDict, -, accepts⟩ := Exec.bind_eq_ok.mp accepts
  split at accepts
  case isFalse => cases accepts
  obtain ⟨announceOk, announceTested, accepts⟩ := Exec.bind_eq_ok.mp accepts
  split at accepts
  case isFalse => cases accepts
  rename_i announceTrue
  obtain ⟨info, infoEq, accepts⟩ := Exec.bind_eq_ok.mp accepts
  cases info with
  | none => cases accepts
  | some info =>
      obtain ⟨pieceLength, pieces, slen, length, nameTested, pieceLengthEq, positive,
        piecesEq, lengthTested, totalTested⟩ := exists_accepted_of_testInfo accepts
      exact ⟨⟨info, pieceLength, pieces, slen, length, by rw [announceTested, announceTrue],
        infoEq, nameTested, pieceLengthEq, positive, piecesEq, lengthTested, totalTested⟩⟩

theorem Accepted.miInfo_eq (accepted : Accepted buffer fuel) :
    miInfo buffer fuel buffer.base = .ok accepted.info := by
  rw [miInfo, accepted.infoEq]
  rfl

/-! ## The two kinds of torrents -/

/-- A file dictionary that `mi_test_files` let pass. -/
structure FileTested (buffer : Buffer) (fuel fdct : Nat) : Prop where
  lengthTested : ∃ length, bencDgetInt buffer fuel fdct (literal "length") = .ok length ∧
    0 ≤ length
  pathTested : ∃ plst first pcount,
    bencDgetLst buffer fuel fdct (literal "path") = .ok (some plst) ∧
    bencFirst buffer plst = .ok first ∧
    testComponents buffer fuel fuel first 0 = .ok (some pcount) ∧ pcount ≠ 0

theorem fileTested_of_testFile {fdct : Nat} {fcount fcount' : Int}
    (tested : testFile buffer fuel fcount fdct = .ok (some fcount')) :
    FileTested buffer fuel fdct ∧ fcount' = toInt (fcount + 1) := by
  rw [testFile] at tested
  obtain ⟨isDict, -, tested⟩ := Exec.bind_eq_ok.mp tested
  split at tested
  case isFalse => cases tested
  obtain ⟨length, lengthEq, tested⟩ := Exec.bind_eq_ok.mp tested
  split at tested
  case isTrue => cases tested
  rename_i nonneg
  obtain ⟨plst, plstEq, tested⟩ := Exec.bind_eq_ok.mp tested
  cases plst with
  | none => cases tested
  | some plst =>
      obtain ⟨first, firstEq, tested⟩ := Exec.bind_eq_ok.mp tested
      obtain ⟨pcount, pcountEq, tested⟩ := Exec.bind_eq_ok.mp tested
      cases pcount with
      | none => cases tested
      | some pcount =>
          simp only at tested
          split at tested
          case isTrue => cases tested
          rename_i nonzero
          cases tested
          exact ⟨⟨⟨length, lengthEq, by omega⟩,
            ⟨plst, first, pcount, plstEq, firstEq, pcountEq, nonzero⟩⟩, rfl⟩

theorem toInt_add_one (n : Int) : toInt (toInt n + 1) = toInt (n + 1) := by
  simp only [toInt]
  omega

theorem foldElems_testFile {elems : List Nat} {n : Nat} {start fcount : Int}
    (startEq : start = toInt n)
    (folded : foldElems (testFile buffer fuel) elems start = .ok (some fcount)) :
    (∀ fdct ∈ elems, FileTested buffer fuel fdct) ∧ fcount = toInt (n + elems.length) := by
  induction elems generalizing n start with
  | nil =>
      simp only [foldElems, Exec.pure_eq, Except.ok.injEq, Option.some.injEq] at folded
      refine ⟨by simp, ?_⟩
      rw [← folded, startEq, List.length_nil, Int.natCast_zero, Int.add_zero]
  | cons fdct elems ih =>
      obtain ⟨middle, tested, folded⟩ := foldElems_cons folded
      obtain ⟨fileTested, middleEq⟩ := fileTested_of_testFile tested
      rw [startEq, toInt_add_one, show (n : Int) + 1 = (n + 1 : Nat) by omega] at middleEq
      obtain ⟨later, fcountEq⟩ := ih middleEq folded
      refine ⟨List.forall_mem_cons.mpr ⟨fileTested, later⟩, ?_⟩
      rw [fcountEq, List.length_cons]
      congr 1
      omega

/-- The files of a torrent: the elements of a list that `mi_test_files` let
pass, or none when the torrent is a single file with a positive length. -/
inductive Files (buffer : Buffer) (fuel info : Nat) (length : Int) : Prop
  | single (lengthEq : bencDgetInt buffer fuel info (literal "length") = .ok length)
      (positive : 0 < length)
      (noFiles : bencDgetLst buffer fuel info (literal "files") = .ok none)
  | many (files : Nat) (first : Option Nat) (elems : List Nat)
      (filesEq : bencDgetLst buffer fuel info (literal "files") = .ok (some files))
      (firstEq : bencFirst buffer files = .ok first)
      (visits : Visits buffer fuel first elems) (turns : elems.length < fuel)
      (tested : ∀ fdct ∈ elems, FileTested buffer fuel fdct)
      (counted : 0 < toInt elems.length)
      (summed : foldElems (addLength buffer fuel) elems 0 = .ok (some length))

theorem bencDgetIf_of_any_none {isType : Buffer → Nat → Exec Bool} {p : Nat}
    {key : List UInt8} (missing : bencDgetAny buffer fuel p key = .ok none) :
    bencDgetIf isType buffer fuel p key = .ok none := by
  rw [bencDgetIf, missing]
  rfl

theorem addLength_ne_none {length : Int} {fdct : Nat} :
    addLength buffer fuel length fdct ≠ .ok none := by
  intro left
  obtain ⟨n, -, left⟩ := Exec.bind_eq_ok.mp left
  cases left

theorem foldElems_addLength_ne_none {elems : List Nat} {length : Int} :
    foldElems (addLength buffer fuel) elems length ≠ .ok none := by
  induction elems generalizing length with
  | nil => simp [foldElems, Exec.pure_eq]
  | cons fdct elems ih =>
      intro left
      obtain ⟨result, added, left⟩ := Exec.bind_eq_ok.mp left
      cases result with
      | none => exact addLength_ne_none added
      | some middle => exact ih left

theorem filesLength_of_visits {files : Nat} {first : Option Nat} {elems : List Nat}
    {length : Int} (firstEq : bencFirst buffer files = .ok first)
    (visits : Visits buffer fuel first elems) (turns : elems.length < fuel) :
    filesLength buffer fuel files = .ok length ↔
      foldElems (addLength buffer fuel) elems 0 = .ok (some length) := by
  rw [filesLength, firstEq, Exec.bind_ok, bencForeach_of_visits visits turns]
  cases folded : foldElems (addLength buffer fuel) elems 0 with
  | error fault => simp [bind, Except.bind]
  | ok result =>
      cases result with
      | none => exact absurd folded foldElems_addLength_ne_none
      | some length' => simp [Exec.bind_ok, Exec.pure_eq]

theorem exists_visits_of_miTestFiles {files : Nat}
    (tested : miTestFiles buffer fuel files = .ok true) :
    ∃ first elems, bencFirst buffer files = .ok first ∧ Visits buffer fuel first elems ∧
      elems.length < fuel ∧ (∀ fdct ∈ elems, FileTested buffer fuel fdct) ∧
      0 < toInt elems.length := by
  rw [miTestFiles] at tested
  obtain ⟨first, firstEq, tested⟩ := Exec.bind_eq_ok.mp tested
  obtain ⟨fcount, looped, tested⟩ := Exec.bind_eq_ok.mp tested
  cases fcount with
  | none => cases tested
  | some fcount =>
      obtain ⟨elems, visits, turns, folded⟩ := visits_of_bencForeach looped
      obtain ⟨filesTested, fcountEq⟩ := foldElems_testFile (n := 0) (by decide) folded
      refine ⟨first, elems, firstEq, visits, turns, filesTested, ?_⟩
      rw [Int.natCast_zero, Int.zero_add] at fcountEq
      rw [← fcountEq]
      simpa [Exec.pure_eq] using tested

theorem files_of_testLength {info : Nat} {length : Int}
    (tested : testLength buffer fuel info = .ok (some length)) :
    Files buffer fuel info length := by
  rw [testLength] at tested
  obtain ⟨single, singleEq, tested⟩ := Exec.bind_eq_ok.mp tested
  split at tested
  · split at tested
    case isTrue => cases tested
    obtain ⟨files, filesEq, tested⟩ := Exec.bind_eq_ok.mp tested
    cases files with
    | some files => cases tested
    | none =>
        cases tested
        exact .single singleEq (by omega) (bencDgetIf_of_any_none filesEq)
  · obtain ⟨files, filesEq, tested⟩ := Exec.bind_eq_ok.mp tested
    cases files with
    | none => cases tested
    | some files =>
        obtain ⟨filesOk, filesTested, tested⟩ := Exec.bind_eq_ok.mp tested
        split at tested
        case isFalse => cases tested
        rename_i filesTrue
        obtain ⟨total, totalEq, tested⟩ := Exec.bind_eq_ok.mp tested
        cases tested
        rw [filesTrue] at filesTested
        obtain ⟨first, elems, firstEq, visits, turns, elemsTested, counted⟩ :=
          exists_visits_of_miTestFiles filesTested
        exact .many files first elems filesEq firstEq visits turns elemsTested counted
          ((filesLength_of_visits firstEq visits turns).mp totalEq)

end Btpd.Metainfo
