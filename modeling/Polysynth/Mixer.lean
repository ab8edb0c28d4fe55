import Polysynth.Handoff
import Polysynth.Voice

namespace Polysynth

def maxAttenuation : Nat := 7

/-- Whether any `tracks` samples, each shifted by `exponent`, add up to a sample. A sample deviates
from silence by -128 to 127. -/
def fits (tracks exponent : Nat) : Bool :=
  tracks * (127 >>> exponent) ≤ 127 && tracks * (128 >>> exponent) ≤ 128

/-- The least exponent below `maxAttenuation` whose power of two reaches `tracks`, else
`maxAttenuation`. -/
def attenuationFor (tracks : Nat) : Nat :=
  ((List.range maxAttenuation).find? (fun e => tracks ≤ 1 <<< e)).getD maxAttenuation

inductive MixError where
  | zeroSamplesPerTick
  | attenuation (tracks exponent : Nat)
  | tooManyTracks (capacity : Nat)
  deriving DecidableEq

def MixError.message : MixError → String
  | zeroSamplesPerTick => "Samples per tick must be non-zero"
  | attenuation tracks exponent =>
    s!"Attenuation exponent {exponent} cannot mix {tracks} tracks without overflow"
  | tooManyTracks capacity => s!"Too many tracks (capacity {capacity})"

structure Mixer where
  capacity : Nat
  table : IncrementTable
  samplesPerTick : UInt16
  attenuation : Nat
  voices : List Voice := []
  deriving DecidableEq

namespace Mixer

def playerCapacity : Nat := 8

def empty (capacity : Nat) (table : IncrementTable) (samplesPerTick : UInt16) (attenuation : Nat) :
    Except MixError Mixer :=
  if samplesPerTick = 0 then .error .zeroSamplesPerTick
  else if maxAttenuation < attenuation then .error (.attenuation 0 attenuation)
  else
    .ok { capacity := capacity, table := table, samplesPerTick := samplesPerTick
          attenuation := attenuation }

/-- Adds a voice at the start of its part, if the sum of all voices still fits a sample. -/
def add (p : Part) (m : Mixer) : Except MixError Mixer :=
  let tracks := m.voices.length + 1
  if !fits tracks m.attenuation then .error (.attenuation tracks m.attenuation)
  else if m.capacity < tracks then .error (.tooManyTracks m.capacity)
  else .ok { m with voices := m.voices ++ [Voice.start p] }

def addAll (m : Mixer) : List Part → Except MixError Mixer
  | [] => .ok m
  | p :: ps => (m.add p).bind (fun m => m.addAll ps)

def ofSong (capacity : Nat) (table : IncrementTable) (s : Song) : Except MixError Mixer :=
  (empty capacity table s.samplesPerTick s.attenuation).bind (fun m => m.addAll s.parts)

def deviation (attenuation : Nat) (sample : UInt8) : Int16 :=
  (sample.toUInt16.toInt16 - 128) >>> Int16.ofNat attenuation

def mix (attenuation : Nat) (samples : List UInt8) : UInt8 :=
  (samples.foldl (fun sum s => sum + deviation attenuation s) 0 + 128).toUInt16.toUInt8

def next (m : Mixer) : UInt8 × Mixer :=
  let played := m.voices.map (Voice.next m.table m.samplesPerTick.toNat)
  (mix m.attenuation (played.map Prod.fst), { m with voices := played.map Prod.snd })

def finished (m : Mixer) : Bool := m.voices.all (fun v => !v.active)

def reset (m : Mixer) : Mixer := { m with voices := m.voices.map Voice.reset }

def primed (m : Mixer) : Handoff Mixer := ({ source := m } : Handoff Mixer).prime next 0

/-- Passes until every voice has stopped, but no more than `n`. -/
def renderPasses : Nat → Handoff Mixer → Handoff Mixer
  | 0, h => h
  | n + 1, h => if h.source.finished then h else renderPasses n (h.pass next 0).2

def render (max : Nat) (m : Mixer) : Array UInt8 := (renderPasses max m.primed).emitted

end Mixer

end Polysynth
