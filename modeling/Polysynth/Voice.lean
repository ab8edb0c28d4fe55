import Polysynth.Increment
import Polysynth.Song

namespace Polysynth

structure Voice where
  part : Part
  /-- The bytes of the stream after the current event. -/
  ahead : List UInt8
  /-- The samples left of the current event. -/
  remaining : Nat := 0
  /-- The phase step of the current note; 0 is silent. -/
  increment : UInt16 := 0
  wave : Wave := {}
  /-- The pitch of the last note. -/
  note : UInt8 := 0
  active : Bool
  deriving DecidableEq

namespace Voice

def start (p : Part) : Voice := { part := p, ahead := p.stream, active := p.playing }

def reset (v : Voice) : Voice := start v.part

def position (v : Voice) : Nat := v.part.stream.length - v.ahead.length

/-- Takes up the next event. At the end of the stream a looping voice goes back to the start with
one silent sample, and any other voice stops. -/
def resolve (table : IncrementTable) (samplesPerTick : Nat) (v : Voice) : Voice :=
  match Event.decode v.ahead with
  | some (.rest ticks, ahead) =>
    { v with
      ahead := ahead, increment := 0, wave := { v.wave with phase := 0 }
      remaining := ticks.toNat * samplesPerTick }
  | some (.note pitch ticks, ahead) =>
    { v with
      ahead := ahead, increment := table.get pitch, note := pitch
      remaining := ticks.toNat * samplesPerTick }
  | none =>
    if v.part.looping then
      { v with
        ahead := v.part.stream, increment := 0, wave := { v.wave with phase := 0 }, remaining := 1 }
    else { v with active := false }

/-- Plays one sample of the current event. An event of no ticks still takes one. -/
def sound (v : Voice) : UInt8 × Voice :=
  if v.increment = 0 then (silence, { v with remaining := v.remaining - 1 })
  else
    let (sample, wave) := v.wave.next v.part.generator v.increment v.note
    (sample, { v with wave := wave, remaining := v.remaining - 1 })

def next (table : IncrementTable) (samplesPerTick : Nat) (v : Voice) : UInt8 × Voice :=
  if v.active then
    let v := if v.remaining = 0 then v.resolve table samplesPerTick else v
    if v.active then v.sound else (silence, v)
  else (silence, v)

end Voice

end Polysynth
