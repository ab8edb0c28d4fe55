import Polysynth.Event
import Polysynth.Wave

namespace Polysynth

/-- The longest run of leading characters whose UTF-8 form takes at most `room` bytes. -/
def clip (room : Nat) : List Char → List Char
  | [] => []
  | c :: cs => if c.utf8Size ≤ room then c :: clip (room - c.utf8Size) cs else []

structure Part where
  stream : List UInt8
  generator : Generator
  playing : Bool := true
  looping : Bool := true
  deriving DecidableEq

structure Track where
  data : List UInt8
  generator : Generator
  /-- A looping track starts again at its end. -/
  looping : Bool := true
  deriving DecidableEq

structure Song where
  title : String := ""
  samplesPerTick : UInt16 := 1
  /-- How far each voice is shifted right before the voices are added. -/
  attenuation : Nat := 0
  tracks : List Track := []
  deriving DecidableEq

namespace Track

def duration? (t : Track) : Option Nat := Polysynth.duration? t.data

def part (t : Track) : Part := { stream := t.data, generator := t.generator, looping := t.looping }

end Track

namespace Song

def titleRoom : Nat := 32

def setTitle (title : String) (s : Song) : Song :=
  { s with title := String.ofList (clip titleRoom title.toList) }

def named (title : String) : Song := setTitle title {}

def setLooping (looping : Bool) (s : Song) : Song :=
  { s with tracks := s.tracks.map (fun t => { t with looping := looping }) }

def addTrack (t : Track) (s : Song) : Song := { s with tracks := s.tracks ++ [t] }

def parts (s : Song) : List Part := s.tracks.map Track.part

/-- The length of the longest track in ticks. A song has none if one of its tracks has none. -/
def duration? (s : Song) : Option Nat :=
  (s.tracks.mapM Track.duration?).map (fun lengths => lengths.foldl max 0)

def durationSamples? (s : Song) : Option Nat :=
  s.duration?.map (fun ticks => ticks * s.samplesPerTick.toNat)

end Song

def Event.samples (samplesPerTick : Nat) (e : Event) : Nat :=
  max 1 (e.ticks.toNat * samplesPerTick)

/-- How many samples a track sounds when it does not loop. -/
def Track.span (samplesPerTick : Nat) (t : Track) : Nat :=
  (events t.data).foldr (fun e samples => e.samples samplesPerTick + samples) 0

def Song.span (s : Song) : Nat :=
  (s.tracks.map (Track.span s.samplesPerTick.toNat)).foldl max 0

end Polysynth
