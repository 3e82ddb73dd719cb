import Btpd.Metainfo.Extract

/-!
# `mi_announce`

The tiers that `mi_announce` builds are the lists of the announce-list, in
order, each with its URLs shuffled.  The shuffle exchanges cells, so that it
keeps the URLs of every tier whatever the generator returns.
-/

namespace Btpd.Metainfo

open Btpd.Benc

variable {buffer : Buffer} {fuel : Nat}

/-! ## The URLs, as the file has them -/

/-- The bytes of an element that has to be a string. -/
def urlBytes (buffer : Buffer) (fuel url : Nat) : Exec (List UInt8) := do
  match ← bencStr buffer fuel url with
  | some bytes => pure bytes
  | none => .error .nullDeref

/-- The URL strings of a tier. -/
def tierUrls (buffer : Buffer) (fuel ulst : Nat) : Exec (List (List UInt8)) := do
  let urls ← bencElems buffer fuel ulst
  urls.mapM (urlBytes buffer fuel)

/-- The URL strings of every tier of the announce-list, or of the single
announce. -/
def announceUrls (buffer : Buffer) (fuel p : Nat) : Exec (List (List (List UInt8))) := do
  match ← bencDgetLst buffer fuel p (literal "announce-list") with
  | some alst => do
      let tiers ← bencElems buffer fuel alst
      tiers.mapM (tierUrls buffer fuel)
  | none => do
      match ← bencDgetStr buffer fuel p (literal "announce") with
      | some url => pure [[url]]
      | none => .error .nullDeref

/-- A tier that holds the given URLs, in some order. -/
structure TierHolds (tier : MiTier) (urls : List (List UInt8)) : Prop where
  count : tier.nurls = urls.length
  perm : tier.urls.toList.Perm urls

/-- An announce structure that holds the given tiers. -/
structure AnnounceHolds (ann : MiAnnounce) (tiers : List (List (List UInt8))) : Prop where
  count : ann.ntiers = tiers.length
  tiers : List.Forall₂ TierHolds ann.tiers.toList tiers

/-! ## The shuffle -/

theorem randBetween_le {lo hi : Nat} (random : Nat) (ordered : lo ≤ hi) :
    randBetween lo hi random ≤ hi := by
  have := Nat.mod_lt random (show 0 < hi - lo + 1 by omega)
  simp only [randBetween]
  omega

theorem shuffleUrls_perm {nurls n j : Nat} (random : Nat → Nat) {urls : Array (List UInt8)}
    (size : urls.size = nurls) (turns : j + n ≤ nurls - 1) :
    ∃ urls', shuffleUrls nurls random n j urls = .ok urls' ∧
      urls'.toList.Perm urls.toList := by
  induction n generalizing j urls with
  | zero => exact ⟨urls, rfl, .refl _⟩
  | succ n ih =>
      have inRange := randBetween_le (random j) (show j ≤ nurls - 1 by omega)
      have cells : j < urls.size ∧ randBetween j (nurls - 1) (random j) < urls.size := by
        omega
      have swapped : (urls.swap j (randBetween j (nurls - 1) (random j)) cells.1 cells.2).size =
          nurls := by
        simpa using size
      obtain ⟨urls', shuffled, perm⟩ := ih swapped (show j + 1 + n ≤ nurls - 1 by omega)
      refine ⟨urls', ?_, perm.trans (Array.perm_iff_toList_perm.mp (Array.swap_perm ..))⟩
      rw [shuffleUrls, dif_pos cells]
      exact shuffled

theorem shuffleTier_holds (random : Nat → Nat) {tier : MiTier} {urls : List (List UInt8)}
    (holds : TierHolds tier urls) :
    ∃ tier', shuffleTier random tier = .ok tier' ∧ TierHolds tier' urls := by
  obtain ⟨count, perm⟩ := holds
  have size : tier.urls.size = tier.nurls.toNat := by
    rw [count, Int.toNat_natCast, ← perm.length_eq, Array.length_toList]
  obtain ⟨urls', shuffled, perm'⟩ := shuffleUrls_perm random size
    (show 0 + (tier.nurls - 1).toNat ≤ tier.nurls.toNat - 1 by omega)
  refine ⟨{ tier with urls := urls' }, ?_, count, perm'.trans perm⟩
  rw [shuffleTier, shuffled]
  rfl

theorem shuffleTiers_hold (random : Nat → Nat → Nat) {i : Nat} {tiers : List MiTier}
    {urls : List (List (List UInt8))} (hold : List.Forall₂ TierHolds tiers urls) :
    ∃ tiers', shuffleTiers random i tiers = .ok tiers' ∧
      List.Forall₂ TierHolds tiers' urls := by
  induction hold generalizing i with
  | nil => exact ⟨[], rfl, .nil⟩
  | cons tier later ih =>
      obtain ⟨tier', shuffled, tierHolds⟩ := shuffleTier_holds (random i) tier
      obtain ⟨tiers', shuffledLater, laterHold⟩ := ih (i := i + 1)
      refine ⟨tier' :: tiers', ?_, .cons tierHolds laterHold⟩
      rw [shuffleTiers, shuffled, Exec.bind_ok, shuffledLater]
      rfl

/-- The shuffle keeps the URLs of every tier, for every outcome of the
generator. -/
theorem miShuffleAnnounce_holds (random : Nat → Nat → Nat) {ann : MiAnnounce}
    {tiers : List (List (List UInt8))} (holds : AnnounceHolds ann tiers) :
    ∃ ann', miShuffleAnnounce random ann = .ok ann' ∧ AnnounceHolds ann' tiers := by
  obtain ⟨shuffled, shuffledEq, hold⟩ := shuffleTiers_hold random (i := 0) holds.tiers
  refine ⟨{ ann with tiers := shuffled.toArray }, ?_, holds.count, by simpa using hold⟩
  rw [miShuffleAnnounce, shuffledEq]
  rfl

/-! ## The tiers -/

theorem toInt_of_lt {n : Nat} (small : n < 2 ^ 31) : toInt n = n := by
  simp only [toInt]
  omega

theorem toInt_lt (n : Int) : toInt n < 2 ^ 31 := by
  simp only [toInt]
  omega

theorem push_append_toArray {α : Type} (xs : Array α) (a : α) (l : List α) :
    xs.push a ++ l.toArray = xs ++ (a :: l).toArray := by
  apply Array.ext'
  simp

theorem bencStr_of_urlBytes {url : Nat} {bytes : List UInt8}
    (bytesEq : urlBytes buffer fuel url = .ok bytes) :
    bencStr buffer fuel url = .ok (some bytes) := by
  obtain ⟨str, strEq, bytesEq⟩ := Exec.bind_eq_ok.mp bytesEq
  cases str with
  | none => cases bytesEq
  | some bytes' =>
      cases bytesEq
      exact strEq

theorem foldElems_announceUrl {elems : List Nat} {urls : List (List UInt8)} {nurls : Int}
    (all : List.Forall₂ (fun url bytes => urlBytes buffer fuel url = .ok bytes) elems urls)
    (stored : Array (List UInt8)) (room : stored.size + elems.length ≤ nurls) :
    foldElems (announceUrl buffer fuel nurls) elems stored =
      .ok (some (stored ++ urls.toArray)) := by
  induction all generalizing stored with
  | nil => simp [foldElems, Exec.pure_eq]
  | @cons url bytes elems urls bytesEq later ih =>
      simp only [List.length_cons] at room
      have body : announceUrl buffer fuel nurls stored url = .ok (some (stored.push bytes)) := by
        rw [announceUrl, bencStr_of_urlBytes bytesEq, Exec.bind_ok]
        simp only
        rw [if_pos (by omega)]
        rfl
      rw [foldElems_cons_of_eq body, ih _ (by
        simp only [Array.size_push]
        omega), push_append_toArray]

/-- The tier that the loop over `urls` leaves. -/
def storedTier (urls : List (List UInt8)) : MiTier := ⟨urls.length, urls.toArray⟩

/-- A tier of strings is stored in full when its length fits in an `int`. -/
theorem announceTier_eq {ulst : Nat} {urls : List (List UInt8)} {ntiers : Int}
    {tiers : Array MiTier} (urlsEq : tierUrls buffer fuel ulst = .ok urls)
    (small : urls.length < 2 ^ 31) (cell : tiers.size < ntiers) :
    announceTier buffer fuel ntiers tiers ulst =
      .ok (some (tiers.push (storedTier urls))) := by
  obtain ⟨elems, elemsEq, urlsEq⟩ := Exec.bind_eq_ok.mp urlsEq
  obtain ⟨first, firstEq, visits, turns⟩ := visits_of_bencElems elemsEq
  have all := Exec.mapM_eq_ok.mp urlsEq
  have lengthEq := all.length_eq
  have count : toInt elems.length = urls.length := by
    rw [lengthEq, toInt_of_lt small]
  rw [announceTier, if_pos cell, bencNelems_of_visits firstEq visits turns, Exec.bind_ok, count,
    if_neg (by omega), firstEq, Exec.bind_ok, bencForeach_of_visits visits turns,
    foldElems_announceUrl all #[] (by
      rw [lengthEq]
      simp)]
  simp [Exec.bind_ok, Exec.pure_eq, storedTier]

theorem foldElems_announceTier {elems : List Nat} {urls : List (List (List UInt8))}
    {ntiers : Int}
    (all : List.Forall₂ (fun ulst us => tierUrls buffer fuel ulst = .ok us) elems urls)
    (small : ∀ us ∈ urls, us.length < 2 ^ 31) (stored : Array MiTier)
    (room : stored.size + elems.length ≤ ntiers) :
    foldElems (announceTier buffer fuel ntiers) elems stored =
      .ok (some (stored ++ (urls.map storedTier).toArray)) := by
  induction all generalizing stored with
  | nil => simp [foldElems, Exec.pure_eq]
  | @cons ulst us elems urls usEq later ih =>
      simp only [List.length_cons] at room
      obtain ⟨smallHead, smallTail⟩ := List.forall_mem_cons.mp small
      have body : announceTier buffer fuel ntiers stored ulst =
          .ok (some (stored.push (storedTier us))) :=
        announceTier_eq usEq smallHead (by omega)
      have roomLater : ((stored.push (storedTier us)).size : Int) + elems.length ≤ ntiers := by
        simp only [Array.size_push]
        omega
      rw [foldElems_cons_of_eq body, ih smallTail _ roomLater, push_append_toArray,
        List.map_cons]

/-- Every tier of the file, with at most `INT_MAX` URLs each, is stored. -/
theorem miAnnounceTiers_holds {p : Nat} {urls : List (List (List UInt8))}
    (urlsEq : announceUrls buffer fuel p = .ok urls) (small : urls.length < 2 ^ 31)
    (smallTiers : ∀ us ∈ urls, us.length < 2 ^ 31) :
    ∃ ann, miAnnounceTiers buffer fuel p = .ok (some ann) ∧ AnnounceHolds ann urls := by
  obtain ⟨alst, alstEq, urlsEq⟩ := Exec.bind_eq_ok.mp urlsEq
  rw [miAnnounceTiers, alstEq, Exec.bind_ok]
  cases alst with
  | none =>
      obtain ⟨url, urlEq, urlsEq⟩ := Exec.bind_eq_ok.mp urlsEq
      cases url with
      | none => cases urlsEq
      | some url =>
          cases urlsEq
          refine ⟨⟨1, #[⟨1, #[url]⟩]⟩, ?_, rfl, .cons ⟨rfl, .refl _⟩ .nil⟩
          simp only [urlEq, Exec.bind_ok, Exec.pure_eq]
  | some alst =>
      obtain ⟨elems, elemsEq, urlsEq⟩ := Exec.bind_eq_ok.mp urlsEq
      obtain ⟨first, firstEq, visits, turns⟩ := visits_of_bencElems elemsEq
      have all := Exec.mapM_eq_ok.mp urlsEq
      have lengthEq := all.length_eq
      have count : toInt elems.length = urls.length := by
        rw [lengthEq, toInt_of_lt small]
      refine ⟨⟨urls.length, (urls.map storedTier).toArray⟩, ?_, rfl, ?_⟩
      · simp only
        rw [bencNelems_of_visits firstEq visits turns, Exec.bind_ok, count, if_neg (by omega),
          firstEq, Exec.bind_ok, bencForeach_of_visits visits turns,
          foldElems_announceTier all smallTiers #[] (by
            rw [lengthEq]
            simp), Exec.bind_ok]
        simp [Exec.pure_eq]
      · rw [List.forall₂_map_left_iff, List.forall₂_same]
        exact fun us _ => ⟨rfl, .refl _⟩

end Btpd.Metainfo
