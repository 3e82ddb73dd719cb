import Btpd.Metainfo.Announce
import Btpd.Metainfo.Files
import Btpd.Metainfo.Lengths
import Mathlib

/-!
# Extraction from an accepted torrent

What the extraction functions need beyond the checks of `mi_test`: a name, a
tracker list without anything else in it, and counts and sums that fit in the
types that hold them.
-/

namespace Btpd.Metainfo

open Btpd.Benc

variable {buffer : Buffer} {fuel : Nat}

/-- `mi_files` returns as many entries as `mi_nfiles` says, and their lengths
add up to what `mi_total_length` says. -/
def FilesExtracted (buffer : Buffer) (fuel : Nat) : Prop :=
  ∃ files nfiles total, miFiles buffer fuel buffer.base = .ok (some files) ∧
    miNfiles buffer fuel buffer.base = .ok nfiles ∧ files.length = nfiles ∧
    miTotalLength buffer fuel buffer.base = .ok total ∧
    (files.map MiFile.length).sum = total

/-- Every extraction function returns what the file describes. -/
structure Extracts (buffer : Buffer) (fuel : Nat) : Prop where
  name : ∃ name, miName buffer fuel buffer.base = .ok (some name)
  files : FilesExtracted buffer fuel
  announce : ∃ urls, announceUrls buffer fuel buffer.base = .ok urls ∧
    ∀ random, ∃ ann, miAnnounce random buffer fuel buffer.base = .ok (some ann) ∧
      AnnounceHolds ann urls

/-- The name is a string, the trackers are lists of strings that lie in the
buffer, and the numbers of files, tiers and URLs and the total length fit in
their types. -/
structure Extractable (buffer : Buffer) (fuel : Nat) : Prop where
  name : ∃ info str, miInfo buffer fuel buffer.base = .ok info ∧
    bencDgetIf bencIsstr buffer fuel info (literal "name") = .ok (some str)
  lengths : ∃ lengths, fileLengths buffer fuel buffer.base = .ok lengths ∧
    lengths.length < 2 ^ 31 ∧ lengths.sum < 2 ^ 63
  urls : ∃ urls, announceUrls buffer fuel buffer.base = .ok urls ∧ urls.length < 2 ^ 31 ∧
    ∀ us ∈ urls, us.length < 2 ^ 31

/-! ## The tracker list -/

/-- Counts that a C structure can hold. -/
structure IntCounts (ann : MiAnnounce) : Prop where
  ntiers_lt : ann.ntiers < 2 ^ 31
  nurls_lt : ∀ tier ∈ ann.tiers.toList, tier.nurls < 2 ^ 31

theorem nurls_lt_of_foldElems {elems : List Nat} {ntiers : Int} {stored tiers : Array MiTier}
    (before : ∀ tier ∈ stored.toList, tier.nurls < 2 ^ 31)
    (folded : foldElems (announceTier buffer fuel ntiers) elems stored = .ok (some tiers)) :
    ∀ tier ∈ tiers.toList, tier.nurls < 2 ^ 31 := by
  induction elems generalizing stored with
  | nil =>
      cases folded
      exact before
  | cons ulst elems ih =>
      obtain ⟨middle, body, folded⟩ := foldElems_cons folded
      refine ih ?_ folded
      rw [announceTier] at body
      split at body
      case isFalse => cases body
      obtain ⟨nelems, -, body⟩ := Exec.bind_eq_ok.mp body
      split at body
      case isTrue => cases body
      obtain ⟨first, -, body⟩ := Exec.bind_eq_ok.mp body
      obtain ⟨urls, -, body⟩ := Exec.bind_eq_ok.mp body
      cases urls with
      | none => cases body
      | some urls =>
          obtain rfl : stored.push ⟨toInt nelems, urls⟩ = middle := by
            simpa [Exec.pure_eq] using body
          intro tier mem
          rw [Array.toList_push, List.mem_append, List.mem_singleton] at mem
          rcases mem with mem | rfl
          · exact before tier mem
          · exact toInt_lt _

theorem intCounts_of_miAnnounceTiers {p : Nat} {ann : MiAnnounce}
    (annEq : miAnnounceTiers buffer fuel p = .ok (some ann)) : IntCounts ann := by
  obtain ⟨alst, -, annEq⟩ := Exec.bind_eq_ok.mp annEq
  cases alst with
  | none =>
      obtain ⟨url, -, annEq⟩ := Exec.bind_eq_ok.mp annEq
      cases url with
      | none => cases annEq
      | some url =>
          cases annEq
          exact ⟨show (1 : Int) < 2 ^ 31 by decide, by simp⟩
  | some alst =>
      obtain ⟨nelems, -, annEq⟩ := Exec.bind_eq_ok.mp annEq
      split at annEq
      case isTrue => cases annEq
      obtain ⟨first, -, annEq⟩ := Exec.bind_eq_ok.mp annEq
      obtain ⟨tiers, looped, annEq⟩ := Exec.bind_eq_ok.mp annEq
      cases tiers with
      | none => cases annEq
      | some tiers =>
          obtain rfl : MiAnnounce.mk (toInt nelems) tiers = ann := by
            simpa [Exec.pure_eq] using annEq
          obtain ⟨elems, -, -, folded⟩ := visits_of_bencForeach looped
          exact ⟨toInt_lt _, nurls_lt_of_foldElems (by simp) folded⟩

theorem nurls_lt_of_shuffleTiers {random : Nat → Nat → Nat} {i : Nat}
    {tiers shuffled : List MiTier} (before : ∀ tier ∈ tiers, tier.nurls < 2 ^ 31)
    (shuffledEq : shuffleTiers random i tiers = .ok shuffled) :
    ∀ tier ∈ shuffled, tier.nurls < 2 ^ 31 := by
  induction tiers generalizing i shuffled with
  | nil =>
      cases shuffledEq
      simp
  | cons tier tiers ih =>
      obtain ⟨first, firstEq, shuffledEq⟩ := Exec.bind_eq_ok.mp shuffledEq
      obtain ⟨later, laterEq, shuffledEq⟩ := Exec.bind_eq_ok.mp shuffledEq
      obtain ⟨urls, -, firstEq⟩ := Exec.bind_eq_ok.mp firstEq
      cases firstEq
      cases shuffledEq
      obtain ⟨small, smallLater⟩ := List.forall_mem_cons.mp before
      exact List.forall_mem_cons.mpr ⟨small, ih smallLater laterEq⟩

theorem intCounts_of_miAnnounce {random : Nat → Nat → Nat} {p : Nat} {ann : MiAnnounce}
    (annEq : miAnnounce random buffer fuel p = .ok (some ann)) : IntCounts ann := by
  obtain ⟨unshuffled, tiersEq, annEq⟩ := Exec.bind_eq_ok.mp annEq
  cases unshuffled with
  | none => cases annEq
  | some unshuffled =>
      have counts := intCounts_of_miAnnounceTiers tiersEq
      obtain ⟨shuffled, shuffledEq, annEq⟩ := Exec.bind_eq_ok.mp annEq
      cases annEq
      obtain ⟨tiers, tiersEq', shuffledEq⟩ := Exec.bind_eq_ok.mp shuffledEq
      cases shuffledEq
      exact ⟨counts.ntiers_lt, by simpa using nurls_lt_of_shuffleTiers counts.nurls_lt tiersEq'⟩

theorem length_lt_of_tierHolds {tiers : List MiTier} {urls : List (List (List UInt8))}
    (hold : List.Forall₂ TierHolds tiers urls)
    (small : ∀ tier ∈ tiers, tier.nurls < 2 ^ 31) : ∀ us ∈ urls, us.length < 2 ^ 31 := by
  induction hold with
  | nil => simp
  | cons tier later ih =>
      obtain ⟨smallHead, smallLater⟩ := List.forall_mem_cons.mp small
      rw [tier.count] at smallHead
      exact List.forall_mem_cons.mpr ⟨by omega, ih smallLater⟩

/-- `mi_announce` returns every tier in full exactly when their numbers fit in
an `int`. -/
theorem miAnnounce_holds_iff {p : Nat} {urls : List (List (List UInt8))}
    (urlsEq : announceUrls buffer fuel p = .ok urls) :
    (∀ random, ∃ ann, miAnnounce random buffer fuel p = .ok (some ann) ∧
      AnnounceHolds ann urls) ↔
      urls.length < 2 ^ 31 ∧ ∀ us ∈ urls, us.length < 2 ^ 31 := by
  constructor
  · intro returns
    obtain ⟨ann, annEq, holds⟩ := returns fun _ _ => 0
    have counts := intCounts_of_miAnnounce annEq
    have ntiers := counts.ntiers_lt
    rw [holds.count] at ntiers
    exact ⟨by omega, length_lt_of_tierHolds holds.tiers counts.nurls_lt⟩
  · rintro ⟨small, smallTiers⟩ random
    obtain ⟨unshuffled, tiersEq, holds⟩ := miAnnounceTiers_holds urlsEq small smallTiers
    obtain ⟨ann, shuffledEq, holds'⟩ := miShuffleAnnounce_holds random holds
    refine ⟨ann, ?_, holds'⟩
    rw [miAnnounce, tiersEq, Exec.bind_ok]
    simp only [shuffledEq, Exec.bind_ok, Exec.pure_eq]

/-! ## Names and files -/

theorem isType_of_bencDgetIf {isType : Buffer → Nat → Exec Bool} {p ret : Nat}
    {key : List UInt8} (found : bencDgetIf isType buffer fuel p key = .ok (some ret)) :
    isType buffer ret = .ok true := by
  obtain ⟨any, -, found⟩ := Exec.bind_eq_ok.mp found
  cases any with
  | none => cases found
  | some any =>
      obtain ⟨ok, okEq, found⟩ := Exec.bind_eq_ok.mp found
      split at found
      case isFalse => cases found
      rename_i okTrue
      cases found
      rw [okEq, okTrue]

theorem bencStr_ne_none {p : Nat} (string : bencIsstr buffer p = .ok true) :
    bencStr buffer fuel p ≠ .ok none := by
  intro missing
  obtain ⟨mem, memEq, missing⟩ := Exec.bind_eq_ok.mp missing
  cases mem with
  | none =>
      rw [bencMem, string, Exec.bind_ok, if_pos rfl] at memEq
      obtain ⟨head, -, memEq⟩ := Exec.bind_eq_ok.mp memEq
      cases memEq
  | some mem =>
      obtain ⟨bytes, -, missing⟩ := Exec.bind_eq_ok.mp missing
      cases missing

section

variable (accepted : Accepted buffer fuel)

include accepted

theorem miName_eq : miName buffer fuel buffer.base =
    bencDgetStr buffer fuel accepted.info (literal "name") := by
  rw [miName, accepted.miInfo_eq, Exec.bind_ok]

/-- `mi_name` returns a name exactly when there is a string to return. -/
theorem miName_iff : (∃ name, miName buffer fuel buffer.base = .ok (some name)) ↔
    ∃ info str, miInfo buffer fuel buffer.base = .ok info ∧
      bencDgetIf bencIsstr buffer fuel info (literal "name") = .ok (some str) := by
  rw [miName_eq accepted]
  constructor
  · rintro ⟨name, nameEq⟩
    obtain ⟨str, strEq, nameEq⟩ := Exec.bind_eq_ok.mp nameEq
    cases str with
    | none => cases nameEq
    | some str => exact ⟨accepted.info, str, accepted.miInfo_eq, strEq⟩
  · rintro ⟨info, str, infoEq, strEq⟩
    obtain rfl := Except.ok.inj (accepted.miInfo_eq.symm.trans infoEq)
    obtain ⟨name, nameEq, -⟩ := exists_name accepted
    cases name with
    | some name => exact ⟨name, nameEq⟩
    | none =>
        rw [bencDgetStr, strEq, Exec.bind_ok] at nameEq
        exact absurd nameEq (bencStr_ne_none (isType_of_bencDgetIf strEq))

theorem filesExtracted_single {length : Int} {name : List UInt8}
    (lengthEq : bencDgetInt buffer fuel accepted.info (literal "length") = .ok length)
    (noFiles : bencDgetLst buffer fuel accepted.info (literal "files") = .ok none)
    (nameEq : bencDgetStr buffer fuel accepted.info (literal "name") = .ok (some name)) :
    FilesExtracted buffer fuel := by
  refine ⟨[⟨name, length⟩], 1, length, miFiles_single accepted lengthEq noFiles nameEq, ?_, rfl,
    ?_, by simp⟩
  · rw [miNfiles, accepted.miInfo_eq, Exec.bind_ok, noFiles]
    rfl
  · rw [miTotalLength, accepted.miInfo_eq, Exec.bind_ok, noFiles, Exec.bind_ok]
    exact lengthEq

theorem fileLengths_single {length : Int}
    (lengthEq : bencDgetInt buffer fuel accepted.info (literal "length") = .ok length)
    (noFiles : bencDgetLst buffer fuel accepted.info (literal "files") = .ok none) :
    fileLengths buffer fuel buffer.base = .ok [length] := by
  rw [fileLengths, accepted.miInfo_eq, Exec.bind_ok, noFiles, Exec.bind_ok]
  simp only [lengthEq, Exec.bind_ok, Exec.pure_eq]

section

variable {files : Nat} {first : Option Nat} {elems : List Nat}
  {entries : List (Int × List (List UInt8))}
  (filesEq : bencDgetLst buffer fuel accepted.info (literal "files") = .ok (some files))
  (firstEq : bencFirst buffer files = .ok first)
  (visits : Visits buffer fuel first elems) (turns : elems.length < fuel)

include filesEq firstEq visits turns

theorem fileLengths_many (all : Entries buffer fuel elems entries) :
    fileLengths buffer fuel buffer.base = .ok (entries.map Prod.fst) := by
  rw [fileLengths, accepted.miInfo_eq, Exec.bind_ok, filesEq, Exec.bind_ok]
  simp only [bencElems_of_visits firstEq visits turns, Exec.bind_ok, all.lengths_eq]

/-- The files of a list are extracted exactly when their number fits in an
`int` and the sum of their lengths in an `off_t`. -/
theorem filesExtracted_many (all : Entries buffer fuel elems entries)
    (nonneg : ∀ n ∈ entries.map Prod.fst, 0 ≤ n) (counted : 0 < toInt elems.length)
    (summed : filesLength buffer fuel files = .ok (toOff (entries.map Prod.fst).sum)) :
    FilesExtracted buffer fuel ↔
      (entries.map Prod.fst).length < 2 ^ 31 ∧ (entries.map Prod.fst).sum < 2 ^ 63 := by
  have filesOut := miFiles_many accepted filesEq firstEq visits turns all
  have nfilesEq : miNfiles buffer fuel buffer.base = .ok elems.length := by
    rw [miNfiles, accepted.miInfo_eq, Exec.bind_ok, filesEq, Exec.bind_ok]
    exact bencNelems_of_visits firstEq visits turns
  have totalEq : miTotalLength buffer fuel buffer.base =
      .ok (toOff (entries.map Prod.fst).sum) := by
    rw [miTotalLength, accepted.miInfo_eq, Exec.bind_ok, filesEq, Exec.bind_ok]
    exact summed
  have lengthsOut : (entries.map entryFile).map MiFile.length = entries.map Prod.fst := by
    rw [List.map_map]
    rfl
  have lengthEq : elems.length = entries.length := all.length_eq
  have sumNonneg : 0 ≤ (entries.map Prod.fst).sum := List.sum_nonneg nonneg
  rw [List.length_map]
  constructor
  · rintro ⟨out, nfiles, total, outEq, -, -, totalEq', sumEq⟩
    rw [filesOut] at outEq
    split at outEq
    case isFalse => cases outEq
    rename_i few
    obtain rfl : entries.map entryFile = out := by simpa using outEq
    obtain rfl := Except.ok.inj (totalEq.symm.trans totalEq')
    rw [lengthsOut] at sumEq
    simp only [toInt, toOff] at counted sumEq
    omega
  · rintro ⟨few, small⟩
    refine ⟨_, _, _, by rw [filesOut, if_pos (by omega)], nfilesEq, by simp [lengthEq], totalEq, ?_⟩
    rw [lengthsOut, toOff]
    omega

end

end

/-- The extraction functions return what an accepted torrent describes exactly
when it is extractable. -/
theorem miTest_extracts_iff (accepts : miTest buffer fuel = .ok true) :
    Extracts buffer fuel ↔ Extractable buffer fuel := by
  obtain ⟨accepted⟩ := exists_accepted accepts
  have nameIff := miName_iff accepted
  have filesIff : (∃ name, miName buffer fuel buffer.base = .ok (some name)) →
      (FilesExtracted buffer fuel ↔
        ∃ lengths, fileLengths buffer fuel buffer.base = .ok lengths ∧
          lengths.length < 2 ^ 31 ∧ lengths.sum < 2 ^ 63) := by
    rintro ⟨name, nameEq⟩
    rw [miName_eq accepted] at nameEq
    cases files_of_testLength accepted.lengthTested with
    | single lengthEq positive noFiles =>
        have atMost := bencDgetInt_le lengthEq
        refine iff_of_true (filesExtracted_single accepted lengthEq noFiles nameEq)
          ⟨_, fileLengths_single accepted lengthEq noFiles, by simp, ?_⟩
        simp only [LLONG_MAX, List.sum_singleton] at atMost ⊢
        omega
    | many files first elems filesEq firstEq visits turns tested counted summed =>
        obtain ⟨entries, all⟩ := exists_entries tested
        obtain ⟨lengths, lengthsEq, nonneg, sumEq⟩ :=
          exists_lengths_of_foldElems 0 (by decide) tested summed
        obtain rfl := Except.ok.inj (all.lengths_eq.symm.trans lengthsEq)
        rw [Int.zero_add] at sumEq
        rw [fileLengths_many accepted filesEq firstEq visits turns all,
          filesExtracted_many accepted filesEq firstEq visits turns all nonneg counted
            ((filesLength_of_visits firstEq visits turns).mpr (sumEq ▸ summed))]
        simp
  constructor
  · intro extracts
    obtain ⟨urls, urlsEq, returns⟩ := extracts.announce
    exact ⟨nameIff.mp extracts.name, (filesIff extracts.name).mp extracts.files,
      urls, urlsEq, (miAnnounce_holds_iff urlsEq).mp returns⟩
  · intro extractable
    obtain ⟨urls, urlsEq, small⟩ := extractable.urls
    have name := nameIff.mpr extractable.name
    exact ⟨name, (filesIff name).mpr extractable.lengths,
      urls, urlsEq, (miAnnounce_holds_iff urlsEq).mpr small⟩

theorem miTest_extracts_iff_twoFiles : Extracts twoFiles 200 ↔ Extractable twoFiles 200 :=
  miTest_extracts_iff (by decide +kernel)

/-- A torrent without a name is accepted. -/
theorem elevenBytes_not_extracts :
    miTest elevenBytes 200 = .ok true ∧ ¬ Extracts elevenBytes 200 := by
  refine ⟨by decide +kernel, fun extracts => ?_⟩
  obtain ⟨name, nameEq⟩ := extracts.name
  have missing : miName elevenBytes 200 elevenBytes.base = .ok none := by decide +kernel
  rw [missing] at nameEq
  cases nameEq

end Btpd.Metainfo
