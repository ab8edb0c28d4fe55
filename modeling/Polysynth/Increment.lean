import Polysynth.Decimal
import Polysynth.Event
import Polysynth.Wave

namespace Polysynth

/-- For each pitch, how far the phase of a wave moves per sample. -/
abbrev IncrementTable : Type := Vector UInt16 pitchCount

namespace IncrementTable

def standard : IncrementTable :=
  #v[97, 103, 109, 116, 122, 130, 137, 146, 154, 163, 173, 183,
    194, 206, 218, 231, 245, 259, 275, 291, 309, 327, 346, 367,
    389, 412, 436, 462, 490, 519, 550, 582, 617, 654, 693, 734,
    778, 824, 873, 925, 980, 1038, 1100, 1165, 1234, 1308, 1385, 1468,
    1555, 1647, 1745, 1849, 1959, 2076, 2199, 2330, 2468, 2615, 2771, 2936,
    3110, 3295, 3491, 3699, 3918, 4151, 4398, 4660, 4937, 5230, 5542, 5871]

/-- The increment of a pitch. A pitch beyond the table has none, which is written 0. -/
def get (t : IncrementTable) (pitch : UInt8) : UInt16 :=
  if h : pitch.toNat < pitchCount then Vector.get t ⟨pitch.toNat, h⟩ else 0

inductive Fault where
  | invalidInput (rate : Nat) (root : Float)
  | outOfRange (note increment : Nat)

def Fault.message : Fault → String
  | invalidInput rate root =>
    let hertz := (Decimal.Double.ofBits root.toBits).text
    s!"invalid increment table input: sample rate {rate}, root {hertz} Hz"
  | outOfRange note increment => s!"increment {increment} for note {note} does not fit 1..=65535"

def standardRoot : Float := 32.7

def semitone : Float := 1.0594630943592953

def frequency (root : Float) : Nat → Float
  | 0 => root
  | n + 1 => frequency root n * semitone

/-- The part of 65536 that a wave of this frequency covers per sample, rounded. -/
def increment (rate : Nat) (hertz : Float) : Nat :=
  (Decimal.Double.ofBits (65536 / (Float.ofNat rate / hertz)).toBits).round 0xffffffffffffffff

def entry (rate : Nat) (root : Float) (note : Nat) : Except Fault UInt16 :=
  let n := increment rate (frequency root note)
  if 1 ≤ n ∧ n ≤ 65535 then .ok (UInt16.ofNat n) else .error (.outOfRange note n)

def build (rate : Nat) (root : Float) : Except Fault IncrementTable :=
  if rate = 0 ∨ !root.isFinite ∨ root ≤ 0 then .error (.invalidInput rate root)
  else (Vector.range pitchCount).mapM (entry rate root)

end IncrementTable

end Polysynth
