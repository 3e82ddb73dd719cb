import Btpd.Download.Integrity
import Btpd.Download.Serving
import Btpd.Download.Wire
import Mathlib

/-!
# The data that is served

Whatever block the daemon serves is cut out of a piece that has passed its test.
-/

namespace Btpd.Download

variable {t : Torrent} {n : Net} {visited : List Net} {held : Nat → Bool}
  {steps : List (System.Taken Net Event)}

/-- Unless the request is an unsafe one, the header of a block names one of a held piece, and the
data behind it is what the content had when the piece was held already. -/
def cutOut (t : Torrent) (visited : List Net) (held : Nat → Bool) (index begin length : Nat)
    (data : Option (List UInt8)) : Prop :=
  ¬ Unsafe t index begin length → Served t held index begin length ∧
    ∀ block, data = some block → ∃ n ∈ visited, n.cm.pieceField index = true ∧
      block = n.cm.readBlock t index begin length

/-- Another piece is verified, or another state visited. -/
theorem cutOut.mono {visited' : List Net} {held' : Nat → Bool} {index begin length : Nat}
    {data : Option (List UInt8)} (whole : cutOut t visited held index begin length data)
    (more : ∀ n ∈ visited, n ∈ visited') (keeps : ∀ i, held i = true → held' i = true) :
    cutOut t visited' held' index begin length data := by
  intro safe
  rcases whole safe with ⟨served, read⟩
  refine ⟨⟨served.inside, keeps index served.held, served.some, served.short, served.fits⟩, ?_⟩
  intro block same
  rcases read block same with ⟨n, mem, rest⟩
  exact ⟨n, more n mem, rest⟩

/-- The messages to a peer, each block cut out of a held piece. -/
def CutLine (t : Torrent) (visited : List Net) (held : Nat → Bool) (l : Line) : Prop :=
  l.Spoken (cutOut t visited held) t.fieldBytes

theorem CutLine.mono {visited' : List Net} {held' : Nat → Bool} {l : Line}
    (cut : CutLine t visited held l) (more : ∀ n ∈ visited, n ∈ visited')
    (keeps : ∀ i, held i = true → held' i = true) : CutLine t visited' held' l := by
  rcases cut with ⟨rest, logEq, messages⟩
  exact ⟨rest, logEq, messages.mono fun _ _ _ _ whole => whole.mono more keeps⟩

theorem CutLine.verified {v : View} {l : Line} (cut : CutLine t visited v.held l) (piece : Nat) :
    CutLine t visited (v.verified piece).held l :=
  cut.mono (fun _ mem => mem) fun _ => View.held_verified

end Btpd.Download
