import Polysynth.Wave

namespace Polysynth

/-- A sample as a number from -1 up to, but not including, 1. -/
def amplitude (sample : UInt8) : Float32 := (Float32.ofNat sample.toNat - 128) / 128

/-- Conversion to the rate of a device. Source samples are repeated or dropped as the rates
demand. -/
structure Hold where
  sourceRate : Nat
  deviceRate : Nat
  /-- Source time owed to the device, in parts of a source sample. -/
  owed : Nat
  current : UInt8 := silence
  deriving DecidableEq

namespace Hold

/-- A hold whose first frame takes the first source sample. The device rate is at least 1. -/
def start (sourceRate deviceRate : Nat) : Hold :=
  let device := max deviceRate 1
  { sourceRate := sourceRate, deviceRate := device, owed := device - sourceRate }

def owe (h : Hold) : Hold := { h with owed := h.owed + h.sourceRate }

/-- Asks the source for one sample. Silence is held where there is none. -/
def ask (source : List UInt8) (h : Hold) : Hold :=
  { h with owed := h.owed - h.deviceRate, current := source.head?.getD silence }

def asks : Nat → List UInt8 → Hold → Hold × List UInt8
  | 0, source, h => (h, source)
  | n + 1, source, h => asks n source.tail (h.ask source)

def due (h : Hold) : Nat := (h.owed + h.sourceRate) / h.deviceRate

/-- The next frame of the device, which is the sample held once all that are due were asked for. -/
def frame (source : List UInt8) (h : Hold) : UInt8 × Hold × List UInt8 :=
  let (made, source) := asks h.due source h.owe
  (made.current, made, source)

structure Run where
  frames : Array UInt8
  /-- The source samples asked for, whether there were any or not. -/
  pulls : Nat
  hold : Hold
  source : List UInt8

def extend : Nat → Run → Run
  | 0, r => r
  | n + 1, r =>
    let (frame, hold, source) := r.hold.frame r.source
    extend n
      { frames := r.frames.push frame, pulls := r.pulls + r.hold.due
        hold := hold, source := source }

def run (n : Nat) (h : Hold) (source : List UInt8) : Run :=
  extend n { frames := #[], pulls := 0, hold := h, source := source }

/-- The frames after which `n` more source samples have been taken. -/
def framesFor (n : Nat) (h : Hold) : Nat :=
  (n * h.deviceRate - h.owed + h.sourceRate - 1) / h.sourceRate

end Hold

end Polysynth
