import Btpd.Library.Text

/-!
# Numbers in text

`strtol` and the conversions of `sscanf`, with `long` of 64 and `int` of 32 bits.
-/

namespace Btpd.Text

/-! ## `strtol` -/

/-- What `strtol` returns, whether `*endptr` has moved and whether `errno` is set. -/
structure Strtol where
  value : Int
  converted : Bool
  erange : Bool
  deriving DecidableEq, Repr

/-- An optional sign. -/
def sign : List UInt8 → Bool × List UInt8
  | [] => (false, [])
  | c :: s => if c = 45 then (true, s) else if c = 43 then (false, s) else (false, c :: s)

/-- The optional `0x`, which counts if a digit follows; `none` if the bytes end
where that digit would be. -/
def hexPrefix : List UInt8 → Option (List UInt8)
  | c :: x :: s =>
      if c = 48 ∧ (x = 120 ∨ x = 88) then
        match s with
        | [] => none
        | d :: s => some (if isDigit 16 d then d :: s else c :: x :: d :: s)
      else some (c :: x :: s)
  | s => some s

/-- The `long` nearest to the number. -/
def toLong (negative : Bool) (n : Nat) : Strtol :=
  if negative then
    if n ≤ 2 ^ 63 then ⟨-n, true, false⟩ else ⟨-2 ^ 63, true, true⟩
  else if n < 2 ^ 63 then ⟨n, true, false⟩ else ⟨2 ^ 63 - 1, true, true⟩

/-- What is read from the first digit on; `none` if the bytes end before a byte
that is no digit. -/
def digitsOf (base : Nat) (negative : Bool) (s : List UInt8) : Option Strtol :=
  if s.dropWhile (isDigit base) = [] then none
  else if s.takeWhile (isDigit base) = [] then some ⟨0, false, false⟩
  else some (toLong negative (ofDigits base (s.takeWhile (isDigit base))))

/-- `strtol`; `none` if it reads past the last of the bytes. -/
def strtol (base : Nat) (s : List UInt8) : Option Strtol := do
  let signed := sign (s.dropWhile isspace)
  let digits ← if base = 16 then hexPrefix signed.2 else some signed.2
  digitsOf base signed.1 digits

/-- A line feed is no digit. -/
theorem not_isDigit_lf (base : Nat) : isDigit base lf = false := by
  have : digitValue lf = none := by decide
  simp [isDigit, this]

theorem sign_append {s : List UInt8} (some_byte : s ≠ []) (ys : List UInt8) :
    sign (s ++ ys) = ((sign s).1, (sign s).2 ++ ys) := by
  cases s with
  | nil => exact absurd rfl some_byte
  | cons c s =>
      simp only [List.cons_append, sign]
      split
      · rfl
      · split <;> rfl

/-- The prefix is decided before the end of the line. -/
theorem hexPrefix_line (s : List UInt8) :
    ∃ t, ∀ ys, hexPrefix (s ++ lf :: ys) = some (t ++ lf :: ys) := by
  have noZero : lf ≠ 48 := by decide
  have noMark : lf ≠ 120 ∧ lf ≠ 88 := by decide
  rcases s with _ | ⟨c, _ | ⟨x, _ | ⟨d, s⟩⟩⟩
  · exact ⟨[], fun ys => by cases ys <;> simp [hexPrefix, noZero]⟩
  · exact ⟨[c], fun ys => by simp [hexPrefix, noMark]⟩
  · exact ⟨[c, x], fun ys => by simp [hexPrefix, not_isDigit_lf]⟩
  · refine ⟨if c = 48 ∧ (x = 120 ∨ x = 88) ∧ isDigit 16 d then d :: s else c :: x :: d :: s,
      fun ys => ?_⟩
    simp only [List.cons_append, hexPrefix]
    by_cases zero : c = 48 ∧ (x = 120 ∨ x = 88)
    · by_cases digit : isDigit 16 d
      · simp [zero, digit]
      · simp [zero, digit]
    · have : ¬ (c = 48 ∧ (x = 120 ∨ x = 88) ∧ isDigit 16 d) := fun h => zero ⟨h.1, h.2.1⟩
      simp [zero, this]

theorem digitsOf_line (base : Nat) (negative : Bool) (s ys : List UInt8) :
    digitsOf base negative (s ++ lf :: ys) = digitsOf base negative (s ++ [lf]) := by
  have ended : (s ++ [lf]).dropWhile (isDigit base) ≠ [] :=
    dropWhile_ne_nil_of_mem (by simp) (not_isDigit_lf base)
  have split : s ++ lf :: ys = (s ++ [lf]) ++ ys := by simp
  have longer : (s ++ lf :: ys).dropWhile (isDigit base) ≠ [] :=
    dropWhile_ne_nil_of_mem (by simp) (not_isDigit_lf base)
  have same := takeWhile_append_of_ended ended ys
  rw [← split] at same
  simp only [digitsOf, if_neg ended, if_neg longer, same]

/-- In a line that is not blank the number is decided before its end. -/
theorem strtol_line (base : Nat) {s : List UInt8} (full : s.dropWhile isspace ≠ [])
    (ys : List UInt8) : strtol base (s ++ lf :: ys) = strtol base (s ++ [lf]) := by
  simp only [strtol, dropWhile_append_of_ended full, sign_append full]
  by_cases hex : base = 16
  · rcases hexPrefix_line (sign (s.dropWhile isspace)).2 with ⟨t, each⟩
    simp only [if_pos hex, each, Option.bind_eq_bind, Option.bind_some]
    exact digitsOf_line base _ t ys
  · simp only [if_neg hex, Option.bind_eq_bind, Option.bind_some]
    exact digitsOf_line base _ _ ys

/-- In such a line it is found. -/
theorem strtol_line_ne_none (base : Nat) {s : List UInt8} (full : s.dropWhile isspace ≠ []) :
    strtol base (s ++ [lf]) ≠ none := by
  have found : ∀ (negative : Bool) (t : List UInt8), digitsOf base negative (t ++ [lf]) ≠ none := by
    intro negative t
    have ended : (t ++ [lf]).dropWhile (isDigit base) ≠ [] :=
      dropWhile_ne_nil_of_mem (by simp) (not_isDigit_lf base)
    simp only [digitsOf, if_neg ended]
    split <;> simp
  simp only [strtol, dropWhile_append_of_ended full, sign_append full]
  by_cases hex : base = 16
  · rcases hexPrefix_line (sign (s.dropWhile isspace)).2 with ⟨t, each⟩
    simp only [if_pos hex, each, Option.bind_eq_bind, Option.bind_some]
    exact found _ t
  · simp only [if_neg hex, Option.bind_eq_bind, Option.bind_some]
    exact found _ _

/-! ## `sscanf` -/

/-- What a directive of `sscanf` does with the rest of the text: it takes a
value, meets a byte it does not match, or meets the end of the text. -/
inductive Scan (α : Type)
  | got (value : α) (rest : List UInt8)
  | mismatch
  | exhausted
  deriving DecidableEq, Repr

namespace Scan

variable {α β : Type}

/-- One directive after another. -/
def andThen : Scan α → (α → List UInt8 → Scan β) → Scan β
  | got value rest, next => next value rest
  | mismatch, _ => mismatch
  | exhausted, _ => exhausted

/-- The same with more text after it. -/
def followedBy (ys : List UInt8) : Scan α → Scan α
  | got value rest => got value (rest ++ ys)
  | mismatch => mismatch
  | exhausted => exhausted

/-- A value is left with text that ends with a line feed. -/
def Stops : Scan α → Prop
  | got _ rest => EndsLine rest
  | mismatch => True
  | exhausted => True

end Scan

/-- An ordinary text in the format. -/
def scanText : List UInt8 → List UInt8 → Scan Unit
  | [], s => .got () s
  | _ :: _, [] => .exhausted
  | c :: text, x :: s => if x = c then scanText text s else .mismatch

/-- `%d`. -/
def scanInt (s : List UInt8) : Scan Int :=
  let signed := sign (s.dropWhile isspace)
  let digits := signed.2.takeWhile (isDigit 10)
  let rest := signed.2.dropWhile (isDigit 10)
  if digits = [] then
    if rest = [] then .exhausted else .mismatch
  else .got (Int.bmod (toLong signed.1 (ofDigits 10 digits)).value (2 ^ 32)) rest

/-- A directive decides within a text that ends with a line feed, unless it
exhausts it. -/
def Local {α : Type} (directive : List UInt8 → Scan α) : Prop :=
  ∀ s, EndsLine s → directive s ≠ .exhausted →
    (directive s).Stops ∧ ∀ ys, directive (s ++ ys) = (directive s).followedBy ys

theorem scanText_local {text : List UInt8} (inLine : lf ∉ text) : Local (scanText text) := by
  induction text with
  | nil => exact fun s ends _ => ⟨ends, fun _ => rfl⟩
  | cons c text ih =>
      intro s ends more
      cases s with
      | nil => exact absurd rfl ends.ne_nil
      | cons x s =>
          simp only [List.cons_append, scanText] at more ⊢
          by_cases same : x = c
          · simp only [if_pos same] at more ⊢
            have left : s ≠ [] := by
              rintro rfl
              rcases ends with ⟨u, whole⟩
              have : x = lf := by
                cases u with
                | nil => simpa using whole
                | cons y u => simp at whole
              exact inLine (by simp [← same, this])
            exact ih (fun mem => inLine (List.mem_cons_of_mem _ mem)) s
              (EndsLine.of_append (u := [x]) ends left) more
          · simp only [if_neg same]
            exact ⟨trivial, fun _ => rfl⟩

theorem scanInt_local : Local scanInt := by
  intro s ends more
  have full : s.dropWhile isspace ≠ [] := by
    intro all
    exact more (by simp [scanInt, all, sign])
  have signed : ∀ u, EndsLine u → u ≠ [] → (sign u).2 = [] ∨ EndsLine (sign u).2 := by
    intro u ends _
    cases u with
    | nil => exact Or.inl rfl
    | cons c u =>
        have tail : u = [] ∨ EndsLine u := by
          by_cases empty : u = []
          · exact Or.inl empty
          · exact Or.inr (EndsLine.of_append (u := [c]) ends empty)
        simp only [sign]
        split
        · exact tail
        · split
          · exact tail
          · exact Or.inr ends
  have rest : EndsLine (s.dropWhile isspace) := by
    have split := List.takeWhile_append_dropWhile (p := isspace) (l := s)
    rw [← split] at ends
    exact ends.of_append full
  rcases signed _ rest full with none_left | after
  · exact absurd (by simp [scanInt, none_left]) more
  · have ended : (sign (s.dropWhile isspace)).2.dropWhile (isDigit 10) ≠ [] :=
      dropWhile_ne_nil_of_mem after.mem (not_isDigit_lf 10)
    have stops : EndsLine ((sign (s.dropWhile isspace)).2.dropWhile (isDigit 10)) := by
      have split := List.takeWhile_append_dropWhile (p := isDigit 10)
        (l := (sign (s.dropWhile isspace)).2)
      rw [← split] at after
      exact after.of_append ended
    have longer : ∀ ys, (sign (s.dropWhile isspace)).2.dropWhile (isDigit 10) ++ ys ≠ [] :=
      fun ys none_left => ended (List.append_eq_nil_iff.mp none_left).1
    constructor
    · simp only [scanInt, if_neg ended]
      split
      · trivial
      · exact stops
    · intro ys
      simp only [scanInt, dropWhile_append_of_ended full, sign_append full,
        takeWhile_append_of_ended ended, dropWhile_append_of_ended ended, if_neg ended,
        if_neg (longer ys)]
      split <;> rfl

theorem Local.andThen {α β : Type} {first : List UInt8 → Scan α}
    {second : α → List UInt8 → Scan β} (here : Local first) (there : ∀ a, Local (second a)) :
    Local fun s => (first s).andThen second := by
  intro s ends more
  cases taken : first s with
  | exhausted => exact absurd (by simp [taken, Scan.andThen]) more
  | mismatch =>
      have decided := here s ends (by simp [taken])
      rw [taken] at decided
      simp only [taken, Scan.andThen]
      exact ⟨trivial, fun ys => by rw [decided.2 ys]; rfl⟩
  | got value rest =>
      have decided := here s ends (by simp [taken])
      rw [taken] at decided
      simp only [taken, Scan.andThen] at more ⊢
      have later := there value rest decided.1 more
      refine ⟨later.1, fun ys => ?_⟩
      rw [decided.2 ys]
      exact later.2 ys

/-! ### Strings that end with a zero byte -/

/-- The same of a text with a zero byte behind it, at which the text does not go on. -/
def Scan.terminated {α : Type} : Scan α → Scan α
  | .got value rest => .got value (rest ++ [0])
  | .mismatch => .mismatch
  | .exhausted => .mismatch

/-- A directive that does not read past a zero byte. -/
def Terminates {α : Type} (directive : List UInt8 → Scan α) : Prop :=
  ∀ s, directive (s ++ [0]) = (directive s).terminated

theorem scanText_terminates {text : List UInt8} (noNul : 0 ∉ text) :
    Terminates (scanText text) := by
  induction text with
  | nil => exact fun _ => rfl
  | cons c text ih =>
      rw [List.mem_cons, not_or] at noNul
      intro s
      cases s with
      | nil => exact if_neg noNul.1
      | cons x s =>
          rw [List.cons_append, scanText, scanText]
          split
          · exact ih noNul.2 s
          · rfl

theorem scanInt_terminates : Terminates scanInt := by
  intro s
  have spaces : (s ++ [0]).dropWhile isspace = s.dropWhile isspace ++ [0] := by
    rw [List.dropWhile_append]
    split
    · rename_i all
      rw [List.isEmpty_iff.mp all]
      rfl
    · rfl
  have signed : ∀ t : List UInt8, sign (t ++ [0]) = ((sign t).1, (sign t).2 ++ [0]) := by
    intro t
    cases t with
    | nil => rfl
    | cons c t => exact sign_append (List.cons_ne_nil c t) [0]
  have digits : ∀ t : List UInt8, (t ++ [0]).takeWhile (isDigit 10) = t.takeWhile (isDigit 10) ∧
      (t ++ [0]).dropWhile (isDigit 10) = t.dropWhile (isDigit 10) ++ [0] := by
    intro t
    have noDigit : isDigit 10 0 = false := by decide
    induction t with
    | nil => simp [noDigit]
    | cons c t ih =>
        rw [List.cons_append]
        by_cases digit : isDigit 10 c = true
        · rw [List.takeWhile_cons_of_pos digit, List.takeWhile_cons_of_pos digit,
            List.dropWhile_cons_of_pos digit, List.dropWhile_cons_of_pos digit, ih.1, ih.2]
          exact ⟨rfl, rfl⟩
        · rw [List.takeWhile_cons_of_neg digit, List.takeWhile_cons_of_neg digit,
            List.dropWhile_cons_of_neg digit, List.dropWhile_cons_of_neg digit]
          exact ⟨rfl, rfl⟩
  simp only [scanInt, spaces, signed, digits]
  split
  · rw [if_neg (List.append_ne_nil_of_right_ne_nil _ (List.cons_ne_nil _ _))]
    split
    · rfl
    · rfl
  · rfl

theorem Terminates.andThen {α β : Type} {first : List UInt8 → Scan α}
    {second : α → List UInt8 → Scan β} (here : Terminates first)
    (there : ∀ a, Terminates (second a)) : Terminates fun s => (first s).andThen second := by
  intro s
  dsimp only
  rw [here s]
  cases first s with
  | got value rest => exact there value rest
  | mismatch => rfl
  | exhausted => rfl

end Btpd.Text
