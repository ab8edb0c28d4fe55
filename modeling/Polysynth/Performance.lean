import Polysynth.Decimal
import Polysynth.Player

namespace Polysynth

inductive Notice where
  | tableBuilt (rate : Nat) (root : Float) (table : IncrementTable)
  | scoreRead (song : Song)
  | songLoaded (song : Song)
  | rendered (samples : Nat)
  | exported (samples : Nat) (path : String)
  | playbackStarted
  | playbackStopped
  | deviceOpened (device : Device)
  | synthesising (deviceRate : Nat)
  | tracksFinished (samples : Nat)
  | overruns (count : Nat)
  | cannotPlay (error : MixError)
  | cannotOpen (error : AudioError)
  | cannotStart (error : AudioError)
  | cannotStop (error : AudioError)

def seconds (places samples : Nat) : String := Decimal.fixed places samples sampleRate

namespace Notice

def level : Notice → String
  | tableBuilt _ _ _ => "DEBUG"
  | scoreRead _ => "DEBUG"
  | songLoaded _ => "INFO"
  | rendered _ => "DEBUG"
  | exported _ _ => "INFO"
  | playbackStarted => "INFO"
  | playbackStopped => "INFO"
  | deviceOpened _ => "INFO"
  | synthesising _ => "DEBUG"
  | tracksFinished _ => "INFO"
  | overruns _ => "WARN"
  | cannotPlay _ => "ERROR"
  | cannotOpen _ => "ERROR"
  | cannotStart _ => "ERROR"
  | cannotStop _ => "WARN"

/-- The text of a notice. There is none about a song that is too long to have a length: a log that
asks for it ends the program. -/
def message? : Notice → Option String
  | tableBuilt rate root table =>
    let hertz := (Decimal.Double.ofBits root.toBits).text
    some s!"increment table at {rate} Hz from {hertz} Hz: {table.get 0}..={table.get 71}"
  | scoreRead s =>
    some (s!"score: {s.tracks.length} tracks, {s.samplesPerTick} samples per tick, " ++
      s!"attenuation {s.attenuation}")
  | songLoaded s => do
    let length ← s.durationSamples?
    return s!"loaded \"{s.title}\": {s.tracks.length} tracks, " ++
      s!"{s.samplesPerTick} samples per tick, {seconds 1 length}s per pass"
  | rendered n => some s!"rendered {n} samples"
  | exported n path => some s!"wrote {n} samples to {path}"
  | playbackStarted => some "playback started"
  | playbackStopped => some "playback stopped"
  | deviceOpened d => some s!"audio device {d.name} at {d.rate} Hz, {d.channels} channels"
  | synthesising rate => some s!"synthesising at {sampleRate} Hz for a {rate} Hz device"
  | tracksFinished n => some s!"all tracks finished after {n} samples"
  | overruns n => some s!"{n} sample overruns during playback"
  | cannotPlay e => some s!"cannot start playback: {e.message}"
  | cannotOpen e => some s!"cannot open audio output: {e.message}"
  | cannotStart e => some s!"cannot start audio stream: {e.message}"
  | cannotStop e => some s!"audio stop failed: {e.message}"

def line? (n : Notice) : Option String := n.message?.map (fun text => s!"{n.level} {text}")

end Notice

structure Performance where
  notices : List Notice
  /-- Playback ended by itself. -/
  ended : Bool := true
  /-- The frames that the device played, those of silence left out. -/
  heard : Array UInt8 := #[]

namespace Performance

/-- How often the position of playback is published, in samples. -/
def positionInterval : Nat := sampleRate / 100

def passesUntil (position : Nat) : Nat :=
  (position + positionInterval - 1) / positionInterval * positionInterval

def onOutput (o : Output) (m : Mixer) (passes : Nat) : Performance :=
  let p := (Player.start m o).play passes
  let ended := p.stage != .playing
  let slot := p.handoff.slot
  let finished := if ended then [Notice.tracksFinished p.handoff.emitted.size] else []
  let late := if slot.overruns = 0 then [] else [Notice.overruns slot.overruns.toNat]
  let p := p.finish
  let stopped :=
    match p.stage with
    | .stopped (some e) => [Notice.cannotStop e]
    | _ => []
  { notices := .synthesising o.device.rate :: finished ++ late ++ stopped
    ended := ended
    heard := p.heard }

/-- Plays a song until it ends, but no more than `passes` samples. -/
def ofSong (d : Option Device) (s : Song) (passes : Nat) : Performance :=
  match Mixer.ofSong Mixer.playerCapacity IncrementTable.standard s with
  | .error e => { notices := [.cannotPlay e] }
  | .ok m =>
    match Output.ofDevice d with
    | .error e => { notices := [.cannotOpen e] }
    | .ok o =>
      let opened := Notice.deviceOpened o.device
      match o.build with
      | (.error e, _) => { notices := [opened, .cannotStart e] }
      | (.ok _, o) =>
        match o.start with
        | (.error e, _) => { notices := [opened, .cannotStart e] }
        | (.ok _, o) =>
          let p := onOutput o m passes
          { p with notices := opened :: p.notices }

end Performance

end Polysynth
