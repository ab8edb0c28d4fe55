import Polysynth.Score.Token
import Polysynth.Wave

namespace Polysynth.Score

inductive Key where
  | samplesPerTick
  | generators
  | ticksPerWhole
  | cutTicks
  deriving DecidableEq

namespace Key

/-- Every key, in the order in which a missing one is reported. -/
def all : List Key := [samplesPerTick, generators, ticksPerWhole, cutTicks]

def name : Key → String
  | samplesPerTick => "samps_per_tick"
  | generators => "generators"
  | ticksPerWhole => "ticks_per_whole"
  | cutTicks => "cut_ticks"

def ofName? (s : String) : Option Key := all.find? (fun k => k.name == s)

end Key

inductive HeaderFault where
  | malformed (text : String)
  | unknownKey (key : String)
  | invalidValue (key : Key) (value : String)
  | unknownGenerator (name : String)
  deriving DecidableEq

/-- The entries read so far. A later entry replaces an earlier one of the same key. -/
structure Header where
  samplesPerTick : Option UInt16 := none
  generators : Option (List Generator) := none
  ticksPerWhole : Option Nat := none
  cutTicks : Option Nat := none
  deriving DecidableEq

structure Settings where
  samplesPerTick : UInt16
  generators : List Generator
  timing : Timing
  deriving DecidableEq

namespace Header

/-- Splits an entry at its first colon. Neither side may be blank. -/
def entry? (text : List Char) : Option (List Char × List Char) :=
  match Text.splitFirst? ':' text with
  | none => none
  | some (k, v) =>
    let key := Text.trim k
    let value := Text.trim v
    if key.isEmpty || value.isEmpty then none else some (key, value)

def readGenerators : List (List Char) → Except HeaderFault (List Generator)
  | [] => .ok []
  | name :: names =>
    match Generator.ofName? (String.ofList name) with
    | none => .error (.unknownGenerator (String.ofList name))
    | some g => (readGenerators names).map (fun gs => g :: gs)

def set (h : Header) (key : Key) (value : List Char) : Except HeaderFault Header :=
  let refused := HeaderFault.invalidValue key (String.ofList value)
  match key with
  | .samplesPerTick =>
    match Text.plainBelow? 0x10000 value with
    | none => .error refused
    | some n =>
      if n = 0 then .error refused else .ok { h with samplesPerTick := some (UInt16.ofNat n) }
  | .generators =>
    (readGenerators ((Text.pieces (fun c => c == ',') value).map Text.trim)).map
      (fun gs => { h with generators := some gs })
  | .ticksPerWhole =>
    match Text.plainBelow? Length.limit value with
    | none => .error refused
    | some n => .ok { h with ticksPerWhole := some n }
  | .cutTicks =>
    match Text.plainBelow? (maxRestTicks + 1) value with
    | none => .error refused
    | some n => .ok { h with cutTicks := some n }

def read (h : Header) (text : List Char) : Except HeaderFault Header :=
  match entry? text with
  | none => .error (.malformed (String.ofList text))
  | some (key, value) =>
    match Key.ofName? (String.ofList key) with
    | none => .error (.unknownKey (String.ofList key))
    | some k => h.set k value

/-- The complete header, or the first key that it lacks. -/
def settings (h : Header) : Except Key Settings := do
  let rate ← h.samplesPerTick.elim (.error .samplesPerTick) .ok
  let generators ← h.generators.elim (.error .generators) .ok
  let whole ← h.ticksPerWhole.elim (.error .ticksPerWhole) .ok
  let cut ← h.cutTicks.elim (.error .cutTicks) .ok
  return { samplesPerTick := rate, generators := generators, timing := ⟨whole, cut⟩ }

end Header

end Polysynth.Score
