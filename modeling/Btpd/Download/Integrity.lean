import Btpd.Download.Bans
import Mathlib

/-!
# The data of held pieces

A piece that the daemon holds has the data that its hash promises, and nothing that comes later
changes a byte of it.
-/

namespace Btpd.Download

variable {t : Torrent} {n : Net} {steps : List (System.Taken Net Event)}
  {step : System.Taken Net Event}

/-- Every held piece is allocated, and its data has the hash of the piece. -/
def Content.Intact (t : Torrent) (cm : Content) : Prop :=
  ∀ i < t.npieces, cm.pieceField i = true →
    cm.posField i = true ∧ t.sha1 (cm.piece t i) = t.pieceHash i

/-- A held piece stays held, with the same data. -/
def Content.Lasts (t : Torrent) (cm cm' : Content) : Prop :=
  ∀ i < t.npieces, cm.pieceField i = true →
    cm'.pieceField i = true ∧ cm'.piece t i = cm.piece t i

theorem Content.Lasts.trans {cm cm' cm'' : Content} (first : cm.Lasts t cm')
    (second : cm'.Lasts t cm'') : cm.Lasts t cm'' := by
  intro i inside held
  rcases first i inside held with ⟨held', same⟩
  rcases second i inside held' with ⟨held'', same'⟩
  exact ⟨held'', same'.trans same⟩

namespace Turn

theorem lasts (turn : Turn t steps step) (intact : step.before.cm.Intact t) :
    step.before.cm.Lasts t step.after.cm := by
  intro i inside held
  cases turn with
  | quiet _ _ _ pieceField _ data =>
      rw [pieceField]
      exact ⟨held, Content.read_of_data data⟩
  | block p index begin data delivers tested =>
      have other : i ≠ index := by
        rintro rfl
        exact Bool.false_ne_true (tested.unverified.symm.trans held)
      rw [tested.others i other]
      exact ⟨held, tested.data i inside other (intact i inside held).1⟩

theorem intact (turn : Turn t steps step) (intact : step.before.cm.Intact t) :
    step.after.cm.Intact t := by
  have lasts := turn.lasts intact
  intro i inside held
  have before : step.before.cm.pieceField i = true →
      (step.before.cm.posField i = true → step.after.cm.posField i = true) →
      step.after.cm.posField i = true ∧
        t.sha1 (step.after.cm.piece t i) = t.pieceHash i := by
    intro was posField
    rcases intact i inside was with ⟨placed, hash⟩
    rw [(lasts i inside was).2]
    exact ⟨posField placed, hash⟩
  cases turn with
  | quiet _ _ _ pieceField posField _ =>
      rw [pieceField] at held
      exact before held (posField i)
  | block p index begin data delivers tested =>
      by_cases same : i = index
      · subst same
        exact ⟨tested.placed, (tested.verified held).1⟩
      · rw [tested.others i same] at held
        exact before held (tested.posField i)

end Turn

end Btpd.Download
