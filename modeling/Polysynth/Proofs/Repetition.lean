import Polysynth.Proofs.MixableSong
import Polysynth.Proofs.Rendering

namespace Polysynth

def Generator.isTone : Generator → Bool
  | saw | triangle | square => true
  | noise93 | noise32k => false

section Tones

variable {g : Generator} {w w' : Wave} (table : IncrementTable) (rate : Nat)

theorem Wave.next_of_tone (hg : g.isTone = true) :
    ∃ level, ∀ increment note, Wave.next g increment note = Wave.tone level increment := by
  cases g with
  | saw => exact ⟨sawLevel, fun _ _ => rfl⟩
  | triangle => exact ⟨triangleLevel, fun _ _ => rfl⟩
  | square => exact ⟨squareLevel, fun _ _ => rfl⟩
  | noise93 => cases hg
  | noise32k => cases hg

end Tones

namespace Part

def round (p : Part) (table : IncrementTable) (rate : Nat) : List UInt8 :=
  p.passage table rate ++ [silence]

variable {p : Part} (table : IncrementTable) (rate : Nat)

end Part

namespace Voice

variable {p : Part} (table : IncrementTable) (rate : Nat)

end Voice

end Polysynth
