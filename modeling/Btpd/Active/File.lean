import Btpd.Benc.Memory
import Mathlib

/-!
# The file of started torrents

`active.c` keeps the info hashes of the started torrents in the file `active`,
twenty bytes each.  A record is deleted by writing the last one over it and
cutting the file.  The start routine does that while it reads on, and keeps two
positions: that of the file, and the one of the record it has read.

Positions and sizes are counted in records, and all file operations work.
-/

namespace Btpd.Active

open Btpd.Benc

variable {α : Type}

/-- The file after `r` was written at the position `pos`, which is not behind its
end. -/
def writeAt (file : List α) (pos : Nat) (r : α) : List α :=
  file.take pos ++ r :: file.drop (pos + 1)

/-- `active_add(hash)` -/
def activeAdd (file : List α) (hash : α) : List α := file ++ [hash]

/-- `active_del_pos(fp, pos, &size)`: the file and its size afterwards. -/
def activeDelPos (file : List α) (pos size : Nat) : Exec (List α × Nat) :=
  match file.getLast? with
  | some ehash => pure ((writeAt file pos ehash).take (size - 1), size - 1)
  | none => .error .uninitialized

/-- The loop of `active_del`, with the file read up to `pos`. -/
def activeDelLoop [DecidableEq α] (file : List α) (hash : α) (pos : Nat) :
    List α → Exec (List α)
  | [] => pure file
  | buf :: rest =>
      if buf = hash then do
        let (file', _) ← activeDelPos file pos file.length
        pure file'
      else
        activeDelLoop file hash (pos + 1) rest

/-- `active_del(hash)` -/
def activeDel [DecidableEq α] (file : List α) (hash : α) : Exec (List α) :=
  activeDelLoop file hash 0 file

/-! ## Starting what is recorded -/

section

variable {σ : Type}

/-- What `active_start` needs of the rest of the daemon: whether `tlib_by_hash`
finds an entry without a torrent, and what `torrent_start` returns and does. -/
structure Starter (σ α : Type) where
  idle : σ → α → Bool
  torrentStart : σ → α → Nat × σ

/-- One record of the file: whether its `torrent_start` was called and failed. -/
def Starter.consider (starter : Starter σ α) (s : σ) (hash : α) : Bool × σ :=
  if starter.idle s hash then
    let (code, s') := starter.torrentStart s hash
    (code ≠ 0, s')
  else
    (false, s)

/-- What a run of `active_start` leaves: the file, the state of the daemon, and
each record that was considered, with whether its start failed. -/
structure Outcome (σ α : Type) where
  file : List α
  state : σ
  told : List (α × Bool)
  deriving DecidableEq

/-- The loop of `active_start`.  The next record is read at `at_`, the position
of the file; `pos` and `size` are the variables of the source. -/
def activeStartLoop (starter : Starter σ α) :
    Nat → List α → Nat → Nat → Nat → σ → List (α × Bool) → Exec (Outcome σ α)
  | 0, _, _, _, _, _, _ => .error .diverge
  | fuel + 1, file, size, at_, pos, s, told =>
      match file[at_]? with
      | none => pure { file := file, state := s, told := told }
      | some hash =>
          let (failed, s') := starter.consider s hash
          if failed then do
            let (file', size') ← activeDelPos file pos size
            -- `fseek` to `pos`, and then `pos` goes on as after a start that worked
            activeStartLoop starter fuel file' size' pos (pos + 1) s' (told ++ [(hash, true)])
          else
            activeStartLoop starter fuel file size (at_ + 1) (pos + 1) s' (told ++ [(hash, false)])

/-- `active_start()` -/
def activeStart (starter : Starter σ α) (s : σ) (file : List α) : Exec (Outcome σ α) :=
  activeStartLoop starter (file.length + 1) file file.length 0 0 s []

/-- The records whose start did not fail. -/
def kept (told : List (α × Bool)) : List α := (told.filter fun t => !t.2).map Prod.fst

/-- Each record of the file was considered once, and the file holds those whose
start did not fail. -/
def Settles (file : List α) (outcome : Outcome σ α) : Prop :=
  (outcome.told.map Prod.fst).Perm file ∧ outcome.file.Perm (kept outcome.told)

/-- No start fails, in this order of the records, but perhaps the last one. -/
def Quiet (starter : Starter σ α) : σ → List α → Prop
  | _, [] => True
  | _, [_] => True
  | s, x :: y :: xs => (starter.consider s x).1 = false ∧
      Quiet starter (starter.consider s x).2 (y :: xs)

/-- The last record before all others. -/
def lastFirst (xs : List α) : List α := xs.getLast?.toList ++ xs.dropLast

/-- After the first start that fails, the other records, the last of the file
first, are quiet. -/
def OneFailure (starter : Starter σ α) : σ → List α → Prop
  | _, [] => True
  | s, x :: xs =>
      if (starter.consider s x).1 then
        Quiet starter (starter.consider s x).2 (lastFirst xs)
      else
        OneFailure starter (starter.consider s x).2 xs

end

/-! ## Deleting a record -/

theorem lastFirst_concat (xs : List α) (last : α) : lastFirst (xs ++ [last]) = last :: xs := by
  simp [lastFirst]

theorem lastFirst_perm (xs : List α) : (lastFirst xs).Perm xs := by
  rcases List.eq_nil_or_concat' xs with rfl | ⟨xs, last, rfl⟩
  · exact .refl _
  · rw [lastFirst_concat]
    exact List.perm_append_singleton last xs |>.symm

/-- The record at `pos` goes, and the last one takes its place. -/
theorem activeDelPos_eq (before : List α) (r : α) (after : List α) {pos : Nat}
    (at_r : pos = before.length) :
    activeDelPos (before ++ r :: after) pos (before ++ r :: after).length =
      .ok (before ++ lastFirst after, (before ++ lastFirst after).length) := by
  subst at_r
  rcases List.eq_nil_or_concat' after with rfl | ⟨after, last, rfl⟩
  · simp [activeDelPos, writeAt, lastFirst, Exec.pure_eq]
  · have final : (before ++ r :: (after ++ [last])).getLast? = some last := by
      rw [List.append_cons, ← List.append_assoc, List.getLast?_concat]
    have written : writeAt (before ++ r :: (after ++ [last])) before.length last =
        (before ++ last :: after) ++ [last] := by
      simp [writeAt]
    have size : (before ++ r :: (after ++ [last])).length - 1 = (before ++ last :: after).length := by
      simp
    rw [activeDelPos, final]
    simp only [written, size, List.take_left, lastFirst_concat, Exec.pure_eq]

/-- A position just behind the last record takes that one away. -/
theorem activeDelPos_end (before : List α) (r : α) :
    activeDelPos (before ++ [r]) (before.length + 1) (before ++ [r]).length =
      .ok (before, before.length) := by
  have written : writeAt (before ++ [r]) (before.length + 1) r = before ++ [r, r] := by
    rw [writeAt, List.take_of_length_le (by simp), List.drop_of_length_le (by simp),
      List.append_assoc]
    rfl
  have size : (before ++ [r]).length - 1 = before.length := by simp
  rw [activeDelPos, List.getLast?_concat]
  simp only [written, size, List.take_left, Exec.pure_eq]

/-! ## The loop -/

section

variable {σ : Type} (starter : Starter σ α)

theorem length_lastFirst (xs : List α) : (lastFirst xs).length = xs.length :=
  (lastFirst_perm xs).length_eq

theorem activeStartLoop_end (fuel : Nat) {file : List α} (size : Nat) {at_ : Nat} (pos : Nat)
    (s : σ) (told : List (α × Bool)) (at_end : file.length ≤ at_) :
    activeStartLoop starter (fuel + 1) file size at_ pos s told =
      .ok { file := file, state := s, told := told } := by
  rw [activeStartLoop, List.getElem?_eq_none at_end]
  rfl

theorem activeStartLoop_kept {fuel : Nat} {before : List α} {x : α} {rest : List α}
    {size pos : Nat} {s : σ} {told : List (α × Bool)} (works : (starter.consider s x).1 = false) :
    activeStartLoop starter (fuel + 1) (before ++ x :: rest) size before.length pos s told =
      activeStartLoop starter fuel (before ++ [x] ++ rest) size (before ++ [x]).length (pos + 1)
        (starter.consider s x).2 (told ++ [(x, false)]) := by
  have here : (before ++ x :: rest)[before.length]? = some x := by simp
  rw [activeStartLoop, here]
  simp [works]

theorem activeStartLoop_failed {fuel : Nat} {before : List α} {x : α} {rest : List α}
    {size pos : Nat} {s : σ} {told : List (α × Bool)} (fails : (starter.consider s x).1 = true) :
    activeStartLoop starter (fuel + 1) (before ++ x :: rest) size before.length pos s told =
      (activeDelPos (before ++ x :: rest) pos size >>= fun (file', size') =>
        activeStartLoop starter fuel file' size' pos (pos + 1) (starter.consider s x).2
          (told ++ [(x, true)])) := by
  have here : (before ++ x :: rest)[before.length]? = some x := by simp
  rw [activeStartLoop, here]
  simp [fails]

/-- The first failure: the last record has come to the place that is read
next. -/
theorem activeStartLoop_failed_aligned {fuel : Nat} {before : List α} {x : α} {rest : List α}
    {s : σ} {told : List (α × Bool)} (fails : (starter.consider s x).1 = true) :
    activeStartLoop starter (fuel + 1) (before ++ x :: rest) (before ++ x :: rest).length
        before.length before.length s told =
      activeStartLoop starter fuel (before ++ lastFirst rest) (before ++ lastFirst rest).length
        before.length (before.length + 1) (starter.consider s x).2 (told ++ [(x, true)]) := by
  rw [activeStartLoop_failed starter fails, activeDelPos_eq before x rest rfl, Exec.bind_ok]

/-- A later failure: the record behind the one that failed goes in its place, and
is passed over. -/
theorem activeStartLoop_failed_ahead {fuel : Nat} {before : List α} {x y : α} {rest : List α}
    {s : σ} {told : List (α × Bool)} (fails : (starter.consider s x).1 = true) :
    activeStartLoop starter (fuel + 1) (before ++ x :: y :: rest) (before ++ x :: y :: rest).length
        before.length (before.length + 1) s told =
      activeStartLoop starter fuel (before ++ [x] ++ lastFirst rest)
        (before ++ [x] ++ lastFirst rest).length (before ++ [x]).length
        ((before ++ [x]).length + 1) (starter.consider s x).2 (told ++ [(x, true)]) := by
  have behind : before.length + 1 = (before ++ [x]).length := by simp
  have split : before ++ x :: y :: rest = before ++ [x] ++ y :: rest := by simp
  rw [activeStartLoop_failed starter fails, split, activeDelPos_eq _ y rest behind, Exec.bind_ok,
    behind]

/-- A later failure of the last record: it goes. -/
theorem activeStartLoop_failed_last {fuel : Nat} {before : List α} {x : α} {s : σ}
    {told : List (α × Bool)} (fails : (starter.consider s x).1 = true) :
    activeStartLoop starter (fuel + 2) (before ++ [x]) (before ++ [x]).length before.length
        (before.length + 1) s told =
      .ok { file := before, state := (starter.consider s x).2, told := told ++ [(x, true)] } := by
  rw [activeStartLoop_failed starter fails, activeDelPos_end, Exec.bind_ok]
  exact activeStartLoop_end starter fuel _ _ _ _ (Nat.le_succ _)

/-- However the two positions stand, the loop ends, and no more records are
considered than were ahead. -/
theorem activeStartLoop_ends (fuel : Nat) (before rest : List α) (s : σ) (told : List (α × Bool))
    {pos : Nat} (near : pos = before.length ∨ pos = before.length + 1)
    (enough : rest.length < fuel) :
    ∃ outcome, activeStartLoop starter fuel (before ++ rest) (before ++ rest).length before.length
        pos s told = .ok outcome ∧ outcome.told.length ≤ told.length + rest.length := by
  induction fuel generalizing before rest s told pos with
  | zero => omega
  | succ fuel ih =>
      cases rest with
      | nil =>
          exact ⟨_, activeStartLoop_end starter fuel _ pos s told (by simp), Nat.le_add_right _ _⟩
      | cons x rest =>
          simp only [List.length_cons] at enough
          cases failed : (starter.consider s x).1 with
          | false =>
              have nearLater : pos + 1 = (before ++ [x]).length ∨
                  pos + 1 = (before ++ [x]).length + 1 := by
                rw [List.length_append, List.length_singleton]
                omega
              obtain ⟨outcome, ran, few⟩ := ih (before ++ [x]) rest (starter.consider s x).2
                (told ++ [(x, false)]) nearLater (by omega)
              refine ⟨outcome, ?_, by simp at few ⊢; omega⟩
              rw [activeStartLoop_kept starter failed]
              simpa using ran
          | true =>
              rcases near with rfl | rfl
              · obtain ⟨outcome, ran, few⟩ := ih before (lastFirst rest) (starter.consider s x).2
                  (told ++ [(x, true)]) (.inr rfl) (by rw [length_lastFirst]; omega)
                refine ⟨outcome, ?_, by simp [length_lastFirst] at few ⊢; omega⟩
                rw [activeStartLoop_failed_aligned starter failed]
                exact ran
              · cases rest with
                | nil =>
                    obtain ⟨fuel, rfl⟩ := Nat.exists_eq_add_one_of_ne_zero
                      (show fuel ≠ 0 by simp at enough; omega)
                    exact ⟨_, activeStartLoop_failed_last starter failed, by simp⟩
                | cons y rest =>
                    simp only [List.length_cons] at enough
                    obtain ⟨outcome, ran, few⟩ := ih (before ++ [x]) (lastFirst rest)
                      (starter.consider s x).2 (told ++ [(x, true)]) (.inr rfl)
                      (by rw [length_lastFirst]; omega)
                    refine ⟨outcome, ?_, by simp [length_lastFirst] at few ⊢; omega⟩
                    rw [activeStartLoop_failed_ahead starter failed]
                    exact ran

/-- What a run that considers `rest` adds to what was told, and leaves of the
file. -/
def Settled (before rest : List α) (told : List (α × Bool)) (outcome : Outcome σ α) : Prop :=
  ∃ new, outcome.told = told ++ new ∧ (new.map Prod.fst).Perm rest ∧
    outcome.file.Perm (before ++ kept new)

theorem settled_cons {before rest : List α} {x : α} {told : List (α × Bool)}
    {outcome : Outcome σ α}
    (later : Settled (before ++ [x]) rest (told ++ [(x, false)]) outcome) :
    Settled before (x :: rest) told outcome := by
  obtain ⟨new, toldEq, permRest, permFile⟩ := later
  refine ⟨(x, false) :: new, by simp [toldEq], by simpa using permRest, ?_⟩
  simpa [kept] using permFile

theorem settled_nil (before : List α) (s : σ) (told : List (α × Bool)) :
    Settled before [] told { file := before ++ [], state := s, told := told } :=
  ⟨[], by simp, .refl _, by simp [kept]⟩

/-- With the positions apart, quiet records are all considered. -/
theorem activeStartLoop_quiet (fuel : Nat) (before rest : List α) (s : σ)
    (told : List (α × Bool)) (quiet : Quiet starter s rest) (enough : rest.length < fuel) :
    ∃ outcome, activeStartLoop starter fuel (before ++ rest) (before ++ rest).length before.length
        (before.length + 1) s told = .ok outcome ∧ Settled before rest told outcome := by
  obtain ⟨fuel, rfl⟩ := Nat.exists_eq_add_one_of_ne_zero (show fuel ≠ 0 by omega)
  induction rest generalizing fuel before s told with
  | nil =>
      exact ⟨_, activeStartLoop_end starter fuel _ _ s told (by simp), settled_nil before s told⟩
  | cons x rest ih =>
      simp only [List.length_cons] at enough
      obtain ⟨fuel, rfl⟩ := Nat.exists_eq_add_one_of_ne_zero (show fuel ≠ 0 by omega)
      cases failed : (starter.consider s x).1 with
      | true =>
          cases rest with
          | cons y rest => exact absurd failed (by simp [quiet.1])
          | nil =>
              refine ⟨_, activeStartLoop_failed_last starter failed, [(x, true)], rfl, ?_, ?_⟩
              · exact .refl _
              · simp [kept]
      | false =>
          have quietLater : Quiet starter (starter.consider s x).2 rest := by
            cases rest with
            | nil => trivial
            | cons y rest => exact quiet.2
          obtain ⟨outcome, ran, settled⟩ := ih (before ++ [x]) (starter.consider s x).2
            (told ++ [(x, false)]) quietLater fuel (by omega)
          refine ⟨outcome, ?_, settled_cons settled⟩
          rw [activeStartLoop_kept starter failed]
          simpa using ran

/-- With the positions apart, a record is lost when others follow one that
fails. -/
theorem activeStartLoop_loses (fuel : Nat) (before rest : List α) (s : σ)
    (told : List (α × Bool)) (loud : ¬ Quiet starter s rest) (enough : rest.length < fuel) :
    ∃ outcome, activeStartLoop starter fuel (before ++ rest) (before ++ rest).length before.length
        (before.length + 1) s told = .ok outcome ∧
      outcome.told.length < told.length + rest.length := by
  induction rest generalizing fuel before s told with
  | nil => exact absurd trivial loud
  | cons x rest ih =>
      cases rest with
      | nil => exact absurd trivial loud
      | cons y rest =>
          simp only [List.length_cons] at enough
          obtain ⟨fuel, rfl⟩ := Nat.exists_eq_add_one_of_ne_zero (show fuel ≠ 0 by omega)
          cases failed : (starter.consider s x).1 with
          | true =>
              obtain ⟨outcome, ran, few⟩ := activeStartLoop_ends starter fuel (before ++ [x])
                (lastFirst rest) (starter.consider s x).2 (told ++ [(x, true)]) (.inr rfl)
                (by rw [length_lastFirst]; omega)
              refine ⟨outcome, ?_, by simp [length_lastFirst] at few ⊢; omega⟩
              rw [activeStartLoop_failed_ahead starter failed]
              exact ran
          | false =>
              obtain ⟨outcome, ran, few⟩ := ih fuel (before ++ [x]) (starter.consider s x).2
                (told ++ [(x, false)]) (fun quiet => loud ⟨failed, quiet⟩) (by simp; omega)
              refine ⟨outcome, ?_, by simp at few ⊢; omega⟩
              rw [activeStartLoop_kept starter failed]
              simpa using ran

/-- With the positions together, all records are considered when at most one
fails before the end. -/
theorem activeStartLoop_settles (fuel : Nat) (before rest : List α) (s : σ)
    (told : List (α × Bool)) (once : OneFailure starter s rest) (enough : rest.length < fuel) :
    ∃ outcome, activeStartLoop starter fuel (before ++ rest) (before ++ rest).length before.length
        before.length s told = .ok outcome ∧ Settled before rest told outcome := by
  obtain ⟨fuel, rfl⟩ := Nat.exists_eq_add_one_of_ne_zero (show fuel ≠ 0 by omega)
  induction rest generalizing fuel before s told with
  | nil =>
      exact ⟨_, activeStartLoop_end starter fuel _ _ s told (by simp), settled_nil before s told⟩
  | cons x rest ih =>
      simp only [List.length_cons] at enough
      obtain ⟨fuel, rfl⟩ := Nat.exists_eq_add_one_of_ne_zero (show fuel ≠ 0 by omega)
      cases failed : (starter.consider s x).1 with
      | true =>
          rw [OneFailure, if_pos failed] at once
          obtain ⟨outcome, ran, new, toldEq, permRest, permFile⟩ :=
            activeStartLoop_quiet starter (fuel + 1) before (lastFirst rest)
              (starter.consider s x).2 (told ++ [(x, true)]) once
              (by rw [length_lastFirst]; omega)
          refine ⟨outcome, ?_, (x, true) :: new, by simp [toldEq], ?_, by simpa [kept] using permFile⟩
          · rw [activeStartLoop_failed_aligned starter failed]
            exact ran
          · exact (permRest.trans (lastFirst_perm rest)).cons x
      | false =>
          rw [OneFailure, if_neg (by simp [failed])] at once
          obtain ⟨outcome, ran, settled⟩ := ih (before ++ [x]) (starter.consider s x).2
            (told ++ [(x, false)]) once fuel (by omega)
          refine ⟨outcome, ?_, settled_cons settled⟩
          rw [activeStartLoop_kept starter failed]
          simpa using ran

theorem activeStartLoop_unsettled (fuel : Nat) (before rest : List α) (s : σ)
    (told : List (α × Bool)) (twice : ¬ OneFailure starter s rest) (enough : rest.length < fuel) :
    ∃ outcome, activeStartLoop starter fuel (before ++ rest) (before ++ rest).length before.length
        before.length s told = .ok outcome ∧
      outcome.told.length < told.length + rest.length := by
  induction rest generalizing fuel before s told with
  | nil => exact absurd trivial twice
  | cons x rest ih =>
      simp only [List.length_cons] at enough
      obtain ⟨fuel, rfl⟩ := Nat.exists_eq_add_one_of_ne_zero (show fuel ≠ 0 by omega)
      cases failed : (starter.consider s x).1 with
      | true =>
          rw [OneFailure, if_pos failed] at twice
          obtain ⟨outcome, ran, few⟩ := activeStartLoop_loses starter fuel before (lastFirst rest)
            (starter.consider s x).2 (told ++ [(x, true)]) twice (by rw [length_lastFirst]; omega)
          refine ⟨outcome, ?_, by simp [length_lastFirst] at few ⊢; omega⟩
          rw [activeStartLoop_failed_aligned starter failed]
          exact ran
      | false =>
          rw [OneFailure, if_neg (by simp [failed])] at twice
          obtain ⟨outcome, ran, few⟩ := ih fuel (before ++ [x]) (starter.consider s x).2
            (told ++ [(x, false)]) twice (by omega)
          refine ⟨outcome, ?_, by simp at few ⊢; omega⟩
          rw [activeStartLoop_kept starter failed]
          simpa using ran

/-- `active_start` ends, and it settles the file exactly when no second start
fails but that of the last record it considers. -/
theorem activeStart_settles_iff (s : σ) (file : List α) :
    ∃ outcome, activeStart starter s file = .ok outcome ∧
      (Settles file outcome ↔ OneFailure starter s file) := by
  by_cases once : OneFailure starter s file
  · obtain ⟨outcome, ran, new, toldEq, permRest, permFile⟩ :=
      activeStartLoop_settles starter (file.length + 1) [] file s [] once (Nat.lt_succ_self _)
    rw [List.nil_append] at toldEq permFile
    refine ⟨outcome, ran, fun _ => once, fun _ => ?_⟩
    rw [← toldEq] at permRest permFile
    exact ⟨permRest, permFile⟩
  · obtain ⟨outcome, ran, few⟩ :=
      activeStartLoop_unsettled starter (file.length + 1) [] file s [] once (Nat.lt_succ_self _)
    refine ⟨outcome, ran, fun settles => ?_, fun settled => absurd settled once⟩
    -- a record that was not considered is missing from what was told
    have all := settles.1.length_eq
    rw [List.length_map] at all
    rw [List.length_nil, Nat.zero_add] at few
    omega

end

/-- A daemon in which every recorded torrent is idle and no torrent starts. -/
def allFail : Starter Unit (List UInt8) where
  idle _ _ := true
  torrentStart s _ := (1, s)

/-- Of three torrents that fail to start, the last one stays recorded, and the
second is never considered. -/
theorem not_settles : ∃ outcome,
    activeStart allFail () [List.replicate 20 1, List.replicate 20 2, List.replicate 20 3] =
      .ok outcome ∧
    outcome.told = [(List.replicate 20 1, true), (List.replicate 20 3, true)] ∧
    outcome.file = [List.replicate 20 3] ∧
    ¬ Settles [List.replicate 20 1, List.replicate 20 2, List.replicate 20 3] outcome := by
  refine ⟨⟨[List.replicate 20 3], (),
    [(List.replicate 20 1, true), (List.replicate 20 3, true)]⟩, rfl, rfl, rfl, ?_⟩
  rintro ⟨all, -⟩
  exact absurd all.length_eq (by decide)

end Btpd.Active
