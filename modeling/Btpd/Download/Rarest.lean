import Btpd.Download.Events

/-!
# The choice of the rarest piece

`dl_choose_rarest` as its three loops, over the state that it reads: the first
piece that can be started, the running minimum with the number of ties, and the
walk to the tie that was drawn.  The last loop has no other end than its
counter; past the last piece it would read outside the fields, which is a fault
here.
-/

namespace Btpd.Download

/-! ## The loops -/

section Loops

variable (startable : Nat → Bool) (count : Nat → Nat)

/-- `for (i = 0; i < npieces && !dl_piece_startable(p, i); i++)` with the turns left. -/
def firstStartable : Nat → Nat → Nat
  | 0, i => i
  | turns + 1, i => if !startable i then firstStartable turns (i + 1) else i

/-- `for (i++; i < npieces; i++)`: the minimum and the number of ties. -/
def scanRarest : Nat → Nat → Nat × Nat → Nat × Nat
  | 0, _, best => best
  | turns + 1, i, (minI, minC) =>
      scanRarest turns (i + 1)
        (if startable i then
          if count i = count minI then (minI, minC + 1)
          else if count i < count minI then (i, 1)
          else (minI, minC)
        else (minI, minC))

/-- `for (i = min_i; min_c > 0; i++)` with the pieces left. -/
def walkTies : Nat → Nat → Nat → Nat → Except Fault Nat
  | _, _, minI, 0 => .ok minI
  | 0, _, _, _ + 1 => .error .outOfBounds
  | left + 1, i, minI, minC + 1 =>
      if startable i && count i = count minI then walkTies left (i + 1) i minC
      else walkTies left (i + 1) minI (minC + 1)

end Loops

/-- `dl_choose_rarest` with the random number: `none` for `ENOENT`. -/
def chooseRarest (n : Net) (npieces p : Nat) (rand : Nat → Nat → Nat) :
    Except Fault (Option Nat) :=
  if n.endgame then .error .rarestEndgame
  else
    let startable := n.dlPieceStartable p
    let i := firstStartable startable npieces 0
    if i = npieces then .ok none
    else
      let best := scanRarest startable n.pieceCount (npieces - (i + 1)) (i + 1) (i, 1)
      if best.2 > 1 then
        (walkTies startable n.pieceCount (npieces - best.1) best.1 best.1 (rand 1 best.2)).map some
      else .ok (some best.1)

/-! ## The minimum -/

section Minimum

variable {startable : Nat → Bool} {count : Nat → Nat}

/-- `m` is the first of the rarest pieces below `k` that can be started, and `c` of them
are as rare. -/
structure Rarest (startable : Nat → Bool) (count : Nat → Nat) (k m c : Nat) : Prop where
  below : m < k
  starts : startable m = true
  least : ∀ j < k, startable j = true → count m ≤ count j
  first : ∀ j < m, startable j = true → count m < count j
  ties : ((List.range' m (k - m)).filter fun j => startable j && count j = count m).length = c

theorem Rarest.ties_succ {k m : Nat} (below : m < k) :
    (List.range' m (k + 1 - m)).filter (fun j => startable j && count j = count m) =
      (List.range' m (k - m)).filter (fun j => startable j && count j = count m) ++
        (if startable k && count k = count m then [k] else []) := by
  have turns : k + 1 - m = (k - m) + 1 := by omega
  have last : m + (k - m) = k := by omega
  rw [turns, List.range'_1_concat, List.filter_append, last]
  congr 1
  rw [List.filter_singleton, cond_eq_ite]

/-- One turn of the second loop. -/
theorem Rarest.next {k m c : Nat} (rarest : Rarest startable count k m c) :
    Rarest startable count (k + 1)
      (if startable k then
        if count k = count m then (m, c + 1)
        else if count k < count m then (k, 1)
        else (m, c)
      else (m, c)).1
      (if startable k then
        if count k = count m then (m, c + 1)
        else if count k < count m then (k, 1)
        else (m, c)
      else (m, c)).2 := by
  have below := rarest.below
  have least : ∀ d, (startable k = true → count d ≤ count k) →
      (∀ j < k, startable j = true → count d ≤ count j) →
      ∀ j < k + 1, startable j = true → count d ≤ count j := by
    intro d here before j inside starts
    rcases Nat.lt_succ_iff_lt_or_eq.mp inside with old | rfl
    · exact before j old starts
    · exact here starts
  by_cases starts : startable k = true
  · rw [if_pos starts]
    by_cases tie : count k = count m
    · rw [if_pos tie]
      refine ⟨by omega, rarest.starts, ?_, rarest.first, ?_⟩
      · exact least m (fun _ => Nat.le_of_eq tie.symm) rarest.least
      · rw [Rarest.ties_succ below, starts, tie]
        simp [rarest.ties]
    · rw [if_neg tie]
      by_cases less : count k < count m
      · rw [if_pos less]
        have under : ∀ j < k, startable j = true → count k < count j :=
          fun j old starts => Nat.lt_of_lt_of_le less (rarest.least j old starts)
        refine ⟨by omega, starts, ?_, under, ?_⟩
        · exact least k (fun _ => Nat.le_refl _)
            fun j old starts => Nat.le_of_lt (under j old starts)
        · show (List.filter _ (List.range' k (k + 1 - k))).length = 1
          rw [Nat.add_sub_cancel_left]
          simp [starts]
      · rw [if_neg less]
        refine ⟨by omega, rarest.starts, ?_, rarest.first, ?_⟩
        · exact least m (fun _ => by omega) rarest.least
        · rw [Rarest.ties_succ below]
          simp [tie, rarest.ties]
  · rw [if_neg starts]
    refine ⟨by omega, rarest.starts, ?_, rarest.first, ?_⟩
    · exact least m (fun here => absurd here starts) rarest.least
    · rw [Rarest.ties_succ below]
      simp [starts, rarest.ties]

/-- The second loop. -/
theorem scanRarest_rarest (turns k m c : Nat) (rarest : Rarest startable count k m c) :
    Rarest startable count (k + turns) (scanRarest startable count turns k (m, c)).1
      (scanRarest startable count turns k (m, c)).2 := by
  induction turns generalizing k m c with
  | zero => exact rarest
  | succ turns ih =>
      have shift : k + (turns + 1) = k + 1 + turns := by omega
      rw [scanRarest, shift]
      exact ih (k + 1) _ _ rarest.next

/-- The first loop. -/
theorem firstStartable_spec (startable : Nat → Bool) (turns i : Nat) :
    i ≤ firstStartable startable turns i ∧ firstStartable startable turns i ≤ i + turns ∧
      (∀ j, i ≤ j → j < firstStartable startable turns i → startable j = false) ∧
      (firstStartable startable turns i < i + turns →
        startable (firstStartable startable turns i) = true) := by
  induction turns generalizing i with
  | zero =>
      refine ⟨Nat.le_refl _, Nat.le_refl _, ?_, ?_⟩
      · intro j low high
        exact absurd high (Nat.not_lt.mpr low)
      · intro less
        exact absurd less (Nat.lt_irrefl _)
  | succ turns ih =>
      rw [firstStartable]
      by_cases starts : startable i = true
      · rw [if_neg (by simp [starts])]
        refine ⟨Nat.le_refl _, Nat.le_add_right _ _, ?_, fun _ => starts⟩
        intro j low high
        exact absurd high (Nat.not_lt.mpr low)
      · rw [if_pos (by simp [starts])]
        rcases ih (i + 1) with ⟨low, high, before, there⟩
        refine ⟨by omega, by omega, ?_, fun inside => there (by omega)⟩
        intro j from_ upto
        rcases Nat.eq_or_lt_of_le from_ with rfl | later
        · exact Bool.eq_false_iff.mpr starts
        · exact before j later upto

/-- The third loop gives the tie that was drawn. -/
theorem walkTies_eq (left i m c : Nat) :
    walkTies startable count left i m (c + 1) =
      match ((List.range' i left).filter fun j => startable j && count j = count m)[c]? with
      | some j => .ok j
      | none => .error .outOfBounds := by
  induction left generalizing i m c with
  | zero => rfl
  | succ left ih =>
      rw [walkTies, List.range'_succ, List.filter_cons]
      by_cases tie : (startable i && count i = count m) = true
      · rw [if_pos tie, if_pos tie]
        have same : count i = count m := by
          rw [Bool.and_eq_true, decide_eq_true_iff] at tie
          exact tie.2
        cases c with
        | zero => rw [walkTies, List.getElem?_cons_zero]
        | succ c => rw [ih, List.getElem?_cons_succ, same]
      · rw [if_neg tie, if_neg tie, ih]

end Minimum

/-! ## The choice -/

/-- A piece that can be started and is as rare as any such piece. -/
def Net.RarestPiece (n : Net) (npieces p i : Nat) : Prop :=
  i < npieces ∧ n.dlPieceStartable p i = true ∧
    ∀ j < npieces, n.dlPieceStartable p j = true → n.pieceCount i ≤ n.pieceCount j

/-- A random number within its bounds. -/
def WithinBounds (rand : Nat → Nat → Nat) : Prop :=
  ∀ lo hi, lo ≤ hi → lo ≤ rand lo hi ∧ rand lo hi ≤ hi

section Choice

variable {n : Net} {npieces p : Nat}

/-- The pieces among which the random number chooses. -/
def Net.tied (n : Net) (npieces p m : Nat) : List Nat :=
  (List.range' m (npieces - m)).filter fun j =>
    n.dlPieceStartable p j && n.pieceCount j = n.pieceCount m

/-- The choice among the ties. -/
def Net.draw (n : Net) (npieces p m c : Nat) : Nat → Except Fault (Option Nat)
  | 0 => .ok (some m)
  | r + 1 =>
      if c ≤ 1 then .ok (some m)
      else
        match (n.tied npieces p m)[r]? with
        | some i => .ok (some i)
        | none => .error .outOfBounds

/-- What the two scans leave: no piece, or the first of the rarest with the number of
ties, of which the random number chooses one. -/
theorem chooseRarest_cases (npieces p : Nat) (off : n.endgame = false) :
    ((∀ i < npieces, n.dlPieceStartable p i = false) ∧
      ∀ rand, chooseRarest n npieces p rand = .ok none) ∨
    ∃ m c, Rarest (n.dlPieceStartable p) n.pieceCount npieces m c ∧
      ∀ rand, chooseRarest n npieces p rand = n.draw npieces p m c (rand 1 c) := by
  rcases firstStartable_spec (n.dlPieceStartable p) npieces 0 with
    ⟨-, high, before, there⟩
  rw [Nat.zero_add] at high there
  have start : ∀ rand, chooseRarest n npieces p rand =
      if firstStartable (n.dlPieceStartable p) npieces 0 = npieces then .ok none
      else
        let i := firstStartable (n.dlPieceStartable p) npieces 0
        let best :=
          scanRarest (n.dlPieceStartable p) n.pieceCount (npieces - (i + 1)) (i + 1) (i, 1)
        if best.2 > 1 then
          (walkTies (n.dlPieceStartable p) n.pieceCount (npieces - best.1) best.1 best.1
            (rand 1 best.2)).map some
        else .ok (some best.1) := by
    intro rand
    rw [chooseRarest, off, if_neg Bool.false_ne_true]
  by_cases missing : firstStartable (n.dlPieceStartable p) npieces 0 = npieces
  · apply Or.inl
    constructor
    · exact fun j inside => before j (Nat.zero_le j) (by omega)
    · intro rand
      rw [start, if_pos missing]
  · apply Or.inr
    generalize firstStartable (n.dlPieceStartable p) npieces 0 = i at *
    have inside : i < npieces := by omega
    have starts := there inside
    have one : Rarest (n.dlPieceStartable p) n.pieceCount (i + 1) i 1 := by
      refine ⟨by omega, starts, ?_, ?_, ?_⟩
      · intro j below startsJ
        rcases Nat.lt_succ_iff_lt_or_eq.mp below with old | rfl
        · rw [before j (Nat.zero_le j) old] at startsJ
          cases startsJ
        · exact Nat.le_refl _
      · intro j below startsJ
        rw [before j (Nat.zero_le j) below] at startsJ
        cases startsJ
      · rw [Nat.add_sub_cancel_left]
        simp [starts]
    have whole := scanRarest_rarest (npieces - (i + 1)) (i + 1) i 1 one
    have total : i + 1 + (npieces - (i + 1)) = npieces := by omega
    rw [total] at whole
    refine ⟨_, _, whole, ?_⟩
    intro rand
    rw [start, if_neg missing]
    dsimp only
    generalize scanRarest (n.dlPieceStartable p) n.pieceCount (npieces - (i + 1)) (i + 1) (i, 1) =
      best
    by_cases several : best.2 > 1
    · rw [if_pos several]
      cases rand 1 best.2 with
      | zero => rw [walkTies, Net.draw]; rfl
      | succ r =>
          rw [walkTies_eq, Net.draw, if_neg (by omega), Net.tied]
          split <;> rfl
    · rw [if_neg several]
      cases rand 1 best.2 with
      | zero => rw [Net.draw]
      | succ r => rw [Net.draw, if_pos (by omega)]

/-- A tie is one of the rarest pieces, and every rarest piece is a tie. -/
theorem mem_tied_iff {m c i : Nat}
    (rarest : Rarest (n.dlPieceStartable p) n.pieceCount npieces m c) :
    i ∈ n.tied npieces p m ↔ n.RarestPiece npieces p i := by
  have below := rarest.below
  rw [Net.tied, List.mem_filter, List.mem_range'_1, Bool.and_eq_true, decide_eq_true_iff]
  constructor
  · rintro ⟨range, starts, same⟩
    refine ⟨by omega, starts, ?_⟩
    rw [same]
    exact rarest.least
  · rintro ⟨inside, starts, least⟩
    have lower := least m below rarest.starts
    have upper := rarest.least i inside starts
    have after : m ≤ i := by
      by_contra early
      have := rarest.first i (by omega) starts
      omega
    exact ⟨by omega, starts, by omega⟩

theorem rarestPiece_first {m c : Nat}
    (rarest : Rarest (n.dlPieceStartable p) n.pieceCount npieces m c) :
    n.RarestPiece npieces p m :=
  ⟨rarest.below, rarest.starts, rarest.least⟩

/-- The first of the ties is chosen when there is no other. -/
theorem tied_of_le_one {m c i : Nat}
    (rarest : Rarest (n.dlPieceStartable p) n.pieceCount npieces m c) (single : c ≤ 1)
    (piece : n.RarestPiece npieces p i) : i = m := by
  have length : (n.tied npieces p m).length = c := rarest.ties
  have first := (mem_tied_iff rarest).mpr (rarestPiece_first rarest)
  have other := (mem_tied_iff rarest).mpr piece
  match split : n.tied npieces p m with
  | [] =>
      rw [split] at first
      cases first
  | [j] =>
      rw [split, List.mem_singleton] at first other
      exact other.trans first.symm
  | _ :: _ :: _ =>
      rw [split, List.length_cons, List.length_cons] at length
      exact absurd length (by omega)

/-- With a number within the bounds the choice gives one of the rarest pieces. -/
theorem chooseRarest_result (off : n.endgame = false) (rand : Nat → Nat → Nat)
    (bounds : WithinBounds rand) :
    ∃ result, chooseRarest n npieces p rand = .ok result ∧
      (result = none ↔ ∀ i < npieces, n.dlPieceStartable p i = false) ∧
      ∀ i, result = some i → n.RarestPiece npieces p i := by
  rcases chooseRarest_cases npieces p off with ⟨noPiece, run⟩ | ⟨m, c, rarest, run⟩
  · exact ⟨none, run rand, ⟨fun _ => noPiece, fun _ => rfl⟩, by simp⟩
  · have never : ¬ ∀ j < npieces, n.dlPieceStartable p j = false := by
      intro noPiece
      have starts := rarest.starts
      rw [noPiece m rarest.below] at starts
      cases starts
    have given : ∃ i, n.draw npieces p m c (rand 1 c) = .ok (some i) ∧
        n.RarestPiece npieces p i := by
      cases drawn : rand 1 c with
      | zero => exact ⟨m, rfl, rarestPiece_first rarest⟩
      | succ r =>
          by_cases single : c ≤ 1
          · exact ⟨m, if_pos single, rarestPiece_first rarest⟩
          · have high := (bounds 1 c (by omega)).2
            have length : (n.tied npieces p m).length = c := rarest.ties
            have inside : r < (n.tied npieces p m).length := by omega
            refine ⟨(n.tied npieces p m)[r], ?_, ?_⟩
            · rw [Net.draw, if_neg single, List.getElem?_eq_getElem inside]
            · exact (mem_tied_iff rarest).mp (List.getElem_mem inside)
    rcases given with ⟨i, result, piece⟩
    refine ⟨some i, (run rand).trans result, ?_, ?_⟩
    · constructor
      · intro same
        cases same
      · exact fun noPiece => absurd noPiece never
    · rintro j same
      cases same
      exact piece

/-- Every rarest piece is chosen for some number. -/
theorem exists_chooseRarest (off : n.endgame = false) {i : Nat}
    (piece : n.RarestPiece npieces p i) :
    ∃ rand, WithinBounds rand ∧ chooseRarest n npieces p rand = .ok (some i) := by
  rcases chooseRarest_cases npieces p off with ⟨noPiece, -⟩ | ⟨m, c, rarest, run⟩
  · have starts := piece.2.1
    rw [noPiece i piece.1] at starts
    cases starts
  · rcases List.mem_iff_getElem?.mp ((mem_tied_iff rarest).mpr piece) with ⟨r, there⟩
    have inside := (List.getElem?_eq_some_iff.mp there).1
    have length : (n.tied npieces p m).length = c := rarest.ties
    -- the number that takes the walk to the tie, where the bounds allow it
    refine ⟨fun lo hi => if lo ≤ r + 1 ∧ r + 1 ≤ hi then r + 1 else lo, ?_, ?_⟩
    · intro lo hi order
      dsimp only
      split
      · assumption
      · exact ⟨Nat.le_refl lo, order⟩
    · rw [run, if_pos (by omega), Net.draw]
      by_cases single : c ≤ 1
      · rw [if_pos single, tied_of_le_one rarest single piece]
      · rw [if_neg single, there]

end Choice

/-! ## The routine of the downloader -/

/-- Only one piece is the first of the rarest. -/
theorem Rarest.unique {startable : Nat → Bool} {count : Nat → Nat} {k m c m' c' : Nat}
    (rarest : Rarest startable count k m c) (other : Rarest startable count k m' c') :
    m = m' ∧ c = c' := by
  have below := rarest.below
  have below' := other.below
  have same : m = m' := by
    rcases Nat.lt_trichotomy m m' with before | same | after
    · have := other.first m before rarest.starts
      have := rarest.least m' below' other.starts
      omega
    · exact same
    · have := rarest.first m' after other.starts
      have := other.least m below rarest.starts
      omega
  subst same
  exact ⟨rfl, rarest.ties.symm.trans other.ties⟩

/-- The running minimum of the downloader's model. -/
theorem foldl_rarer (n : Net) (p k : Nat) :
    match (List.range k).foldl (n.rarer p) none with
    | none => ∀ i < k, n.dlPieceStartable p i = false
    | some (m, c) => Rarest (n.dlPieceStartable p) n.pieceCount k m c := by
  induction k with
  | zero =>
      intro i below
      exact absurd below (Nat.not_lt_zero i)
  | succ k ih =>
      rw [List.range_succ, List.foldl_append, List.foldl_cons, List.foldl_nil]
      cases best : (List.range k).foldl (n.rarer p) none with
      | none =>
          rw [best] at ih
          rw [Net.rarer]
          by_cases starts : n.dlPieceStartable p k = true
          · rw [if_pos starts]
            refine ⟨Nat.lt_succ_self k, starts, ?_, ?_, ?_⟩
            · intro j below startsJ
              rcases Nat.lt_succ_iff_lt_or_eq.mp below with old | rfl
              · rw [ih j old] at startsJ
                cases startsJ
              · exact Nat.le_refl _
            · intro j below startsJ
              rw [ih j below] at startsJ
              cases startsJ
            · rw [Nat.add_sub_cancel_left]
              simp [starts]
          · rw [if_neg starts]
            intro i below
            rcases Nat.lt_succ_iff_lt_or_eq.mp below with old | rfl
            · exact ih i old
            · exact Bool.eq_false_iff.mpr starts
      | some best' =>
          rcases best' with ⟨m, c⟩
          rw [best] at ih
          have next := Rarest.next ih
          rw [Net.rarer]
          by_cases starts : n.dlPieceStartable p k = true
          · rw [if_pos starts] at next ⊢
            by_cases tie : n.pieceCount k = n.pieceCount m
            · rw [if_pos tie] at next ⊢
              exact next
            · rw [if_neg tie] at next ⊢
              by_cases less : n.pieceCount k < n.pieceCount m
              · rw [if_pos less] at next ⊢
                exact next
              · rw [if_neg less] at next ⊢
                exact next
          · rw [if_neg starts] at next ⊢
            exact next

/-- The random number that the daemon draws next. -/
def Torrent.draw (t : Torrent) (n : Net) (lo hi : Nat) : Nat :=
  lo + t.random n.draws % (hi - lo + 1)

theorem withinBounds_draw (t : Torrent) (n : Net) : WithinBounds (t.draw n) := by
  intro lo hi order
  have : t.random n.draws % (hi - lo + 1) < hi - lo + 1 := Nat.mod_lt _ (Nat.succ_pos _)
  rw [Torrent.draw]
  omega

theorem randBetween_bind {α : Type} (t : Torrent) (lo hi : Nat) (f : Nat → Routine α)
    (callers : List Fn) (n : Net) :
    (randBetween t lo hi >>= f) callers n =
      f (lo + t.random n.draws % (hi - lo + 1)) callers { n with draws := n.draws + 1 } :=
  rfl

/-- What `dl_choose_rarest` does with the first of the rarest pieces and its count. -/
def Net.pick (t : Torrent) (p : Nat) (n : Net) : Option (Nat × Nat) → Routine (Option Nat)
  | none => pure none
  | some (minI, minC) =>
      if minC ≤ 1 then pure (some minI)
      else do
        let r ← randBetween t 1 minC
        match (n.tied t.npieces p minI)[r - 1]? with
        | none => Prog.fault .outOfBounds
        | some i => pure (some i)

theorem dlChooseRarest_of_normal {t : Torrent} {p : Nat} {callers : List Fn} {n : Net}
    (off : n.endgame = false) : dlChooseRarest t p callers n =
      n.pick t p ((List.range t.npieces).foldl (n.rarer p) none) callers n := by
  simp only [dlChooseRarest, Prog.get, Prog.assert, bind, Prog.seq, off]
  rfl

/-- The downloader's routine chooses what the loops choose. -/
theorem dlChooseRarest_eq (t : Torrent) (p : Nat) (callers : List Fn) (n : Net) :
    (dlChooseRarest t p callers n).2.map Prod.fst = chooseRarest n t.npieces p (t.draw n) := by
  cases off : n.endgame with
  | true =>
      rw [chooseRarest, off]
      simp only [dlChooseRarest, Prog.get, Prog.assert, bind, Prog.seq, off]
      rfl
  | false =>
      have scans := foldl_rarer n p t.npieces
      rw [dlChooseRarest_of_normal off]
      rcases chooseRarest_cases t.npieces p off with
        ⟨noPiece, run⟩ | ⟨m, c, rarest, run⟩
      · rw [run]
        cases best : (List.range t.npieces).foldl (n.rarer p) none with
        | none => rfl
        | some found =>
            rw [best] at scans
            have starts := scans.starts
            rw [noPiece _ scans.below] at starts
            cases starts
      · rw [run]
        cases best : (List.range t.npieces).foldl (n.rarer p) none with
        | none =>
            rw [best] at scans
            have starts := rarest.starts
            rw [scans m rarest.below] at starts
            cases starts
        | some found =>
            rcases found with ⟨m', c'⟩
            rw [best] at scans
            rcases scans.unique rarest with ⟨rfl, rfl⟩
            have number : t.draw n 1 c' = t.random n.draws % (c' - 1 + 1) + 1 := Nat.add_comm _ _
            rw [number, Net.draw]
            by_cases single : c' ≤ 1
            · rw [if_pos single, Net.pick, if_pos single]
              rfl
            · rw [if_neg single, Net.pick, if_neg single]
              rw [randBetween_bind, Nat.add_sub_cancel_left]
              cases (n.tied t.npieces p m')[t.random n.draws % (c' - 1 + 1)]? with
              | none => rfl
              | some i => rfl

/-- So the routine gives back one of the rarest pieces, or none when none can be started. -/
theorem dlChooseRarest_returns (t : Torrent) (p : Nat) (callers : List Fn) {n : Net}
    (off : n.endgame = false) :
    ∃ result n', (dlChooseRarest t p callers n).2 = .ok (result, n') ∧
      (result = none ↔ ∀ i < t.npieces, n.dlPieceStartable p i = false) ∧
      ∀ i, result = some i → n.RarestPiece t.npieces p i := by
  have same := dlChooseRarest_eq t p callers n
  rcases chooseRarest_result (p := p) off (t.draw n) (withinBounds_draw t n) with
    ⟨result, run, chosen⟩
  rw [run] at same
  rcases ended : (dlChooseRarest t p callers n).2 with e | ⟨result', n'⟩
  · rw [ended] at same
    cases same
  · rw [ended] at same
    cases same
    exact ⟨result', n', rfl, chosen⟩

/-! ## The choice for every state -/

/-- With end game off and a random number within its bounds `dl_choose_rarest` ends inside
the fields; it gives no piece exactly when none can be started, and else one of the
rarest; and each of these is given for some number. -/
theorem dlChooseRarest_rarest (n : Net) (npieces p : Nat) (off : n.endgame = false) :
    (∀ rand, WithinBounds rand → ∃ result, chooseRarest n npieces p rand = .ok result ∧
      (result = none ↔ ∀ i < npieces, n.dlPieceStartable p i = false) ∧
      ∀ i, result = some i → n.RarestPiece npieces p i) ∧
    ∀ i, n.RarestPiece npieces p i →
      ∃ rand, WithinBounds rand ∧ chooseRarest n npieces p rand = .ok (some i) :=
  ⟨chooseRarest_result off, fun _ => exists_chooseRarest off⟩

/-- A torrent of which a peer has all pieces; another one has the first of them too. -/
def twoTied : Net :=
  { Net.create ⟨3, 4, [12], id, Vector.replicate 20 0, Vector.replicate 20 1, fun _ => [], id, 0,
      fun _ => 0⟩ ⟨0, fun _ => false, fun _ _ => false, fun _ => false, fun _ => 0⟩ with
    peer := fun _ =>
      { Peer.create ⟨3, 4, [12], id, Vector.replicate 20 0, Vector.replicate 20 1, fun _ => [], id,
          0, fun _ => 0⟩ none with pieceField := fun _ => true }
    pieceCount := fun i => if i = 0 then 2 else 1 }

/-- The last piece can be chosen, the first cannot. -/
theorem dlChooseRarest_rarest_twoTied :
    (∃ rand, WithinBounds rand ∧ chooseRarest twoTied 3 0 rand = .ok (some 2)) ∧
      ∀ rand, WithinBounds rand → chooseRarest twoTied 3 0 rand ≠ .ok (some 0) := by
  rcases dlChooseRarest_rarest twoTied 3 0 rfl with ⟨given, each⟩
  constructor
  · exact each 2 (by unfold Net.RarestPiece; decide)
  · intro rand bounds chosen
    rcases given rand bounds with ⟨result, run, -, rarest⟩
    rw [chosen] at run
    cases run
    exact absurd (rarest 0 rfl) (by unfold Net.RarestPiece; decide)

end Btpd.Download
