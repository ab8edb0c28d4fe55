import Polysynth.Arguments
import Polysynth.Session

namespace Polysynth

structure Outcome where
  exit : UInt8
  stdout : String := ""
  stderr : String := ""
  deriving DecidableEq

/-- The outcome of a program that ends where it should not, after it has shown some text. What is
said about that is left out. -/
def Outcome.crash (stdout : String) : Outcome := { exit := 101, stdout := stdout }

namespace CommandLine

private def trackLine (i : Nat) (t : Track) : Option String := do
  let index := Text.flushRight 2 (toString i)
  let name := Text.flushLeft 8 t.generator.name
  let ticks := Text.flushRight 5 (toString (← t.duration?))
  return s!"  {index}: {name} {ticks} ticks, {t.data.length} bytes\n"

/-- Shows pieces of text up to the first that cannot be made, and says whether all were shown. -/
def shown : List (Option String) → String × Bool
  | [] => ("", true)
  | none :: _ => ("", false)
  | some text :: more => (text ++ (shown more).1, (shown more).2)

def describe (s : Song) : String × Bool :=
  shown ([some s!"Title:    {s.title}\nTracks:   {s.tracks.length}\n"] ++
    s.tracks.mapIdx trackLine ++
    [some s!"Tick:     {s.samplesPerTick} samples\nShift:    {s.attenuation}\n",
      s.durationSamples?.map (fun n => s!"Length:   {seconds 2 n}s\n\n")])

def playText (once : Bool) : String :=
  (if once then "Playing...\n" else "Playing (looping, Ctrl-C to quit)...\n") ++
    "\n\rDone.          \n"

variable {m : Type → Type} [Monad m]

def renderTo (fs : FileSystem m) (path : String) (maxSeconds : UInt32) (s : Session) :
    m Outcome := do
  let start := s!"Rendering to {path} (at most {maxSeconds}s)...\n"
  match ← s.exportWav fs path maxSeconds with
  | none => return .crash start
  | some (.error e, _) =>
    return { exit := 1, stdout := start, stderr := s!"Failed to write {path}: {e.message}\n" }
  | some (.ok n, _) =>
    let done := s!"Rendered {n} samples ({seconds 2 n}s)\nDone.\n"
    return { exit := 0, stdout := start ++ done }

def load (a : Arguments) (text : String) : Except SessionError Session :=
  let loaded := ({} : Session).loadScore text
  loaded.result.map fun _ =>
    let s := loaded.session
    let s := match Path.stem? a.path with
      | none => s
      | some title => s.setTitle title
    s.setLooping (!a.once)

/-- Does what the arguments ask for. No audio device is at hand, so playback ends at once. -/
def run (fs : FileSystem m) (a : Arguments) : m Outcome := do
  match ← fs.readText a.path with
  | .error e => return { exit := 1, stderr := s!"Failed to read {a.path}: {e.message}\n" }
  | .ok text =>
    match load a text with
    | .error e => return { exit := 1, stderr := s!"Failed to load {a.path}: {e.message}\n" }
    | .ok s =>
      match describe s.song with
      | (about, false) => return .crash about
      | (about, true) =>
        if a.info then return { exit := 0, stdout := about }
        else
          match a.wav with
          | none => return { exit := 0, stdout := about ++ playText a.once }
          | some path =>
            let o ← renderTo fs path a.maxSeconds s
            return { o with stdout := about ++ o.stdout }

/-- Runs the program. Arguments that cannot be read end it with 2. -/
def runWith (fs : FileSystem m) (args : List String) : m Outcome :=
  match Arguments.read args with
  | .error .misuse => return { exit := 2 }
  | .error .help => return { exit := 0, stdout := Arguments.helpText }
  | .ok a => run fs a

end CommandLine

end Polysynth
