import Polysynth.FileSystem
import Polysynth.Performance
import Polysynth.Score.Load
import Polysynth.Wav

namespace Polysynth

inductive SessionError where
  | score (error : Score.Error)
  | mix (error : MixError)
  | file (error : FileError)
  deriving DecidableEq

def SessionError.message : SessionError → String
  | score e => s!"score error: {e.message}"
  | mix e => s!"engine error: {e.message}"
  | file e => s!"i/o error: {e.message}"

structure Playback where
  finished : Bool
  deriving DecidableEq

structure Session where
  song : Song := Song.named "Untitled"
  playback : Option Playback := none
  deriving DecidableEq

namespace Session

/-- The result of a step, the session after it, and what was reported on the way. -/
structure Step (α : Type) where
  result : α
  session : Session
  notices : List Notice := []

structure Status where
  playing : Bool
  finished : Bool
  hasPosition : Bool

def status (s : Session) : Status :=
  match s.playback with
  | none => ⟨false, false, false⟩
  | some p => ⟨!p.finished, p.finished, !p.finished⟩

def stop (s : Session) : Step Unit :=
  match s.playback with
  | none => { result := (), session := s }
  | some _ =>
    { result := (), session := { s with playback := none }, notices := [.playbackStopped] }

def mixer (song : Song) : Except MixError Mixer :=
  Mixer.ofSong Mixer.playerCapacity IncrementTable.standard song

/-- Takes a song that can be mixed, and ends playback. Any other song changes nothing. -/
def loadSong (song : Song) (s : Session) : Step (Except SessionError Unit) :=
  match mixer song with
  | .error e => { result := .error (.mix e), session := s }
  | .ok _ =>
    let stopped := s.stop
    { result := .ok ()
      session := { stopped.session with song := song }
      notices := stopped.notices ++ [.songLoaded song] }

def loadScore (text : String) (s : Session) : Step (Except SessionError Unit) :=
  match Score.load text with
  | .error e => { result := .error (.score e), session := s }
  | .ok song =>
    let loaded := s.loadSong song
    { loaded with notices := .scoreRead song :: loaded.notices }

def setTitle (title : String) (s : Session) : Session := { s with song := s.song.setTitle title }

def setLooping (looping : Bool) (s : Session) : Session :=
  { s with song := s.song.setLooping looping }

def play (d : Option Device) (passes : Option Nat) (s : Session) : Step Performance :=
  let stopped := s.stop
  let p := Performance.ofSong d s.song (passes.getD (max 1 s.song.span))
  { result := p
    session := { stopped.session with playback := some { finished := p.ended } }
    notices := stopped.notices ++ [.playbackStarted] ++ p.notices }

/-- The largest buffer that can be asked for, in bytes. -/
def bufferLimit : Nat := 0x7fffffffffffffff

/-- Renders at most `max` samples of the song. The buffer is made for all of them at once, so a song
that can be mixed gives no answer if `max` is beyond `bufferLimit`: the program ends. -/
def render (max : Nat) (s : Session) : Option (Except SessionError (Array UInt8) × List Notice) :=
  match mixer s.song with
  | .error e => some (.error (.mix e), [])
  | .ok m =>
    if max ≤ bufferLimit then
      let samples := m.render max
      some (.ok samples, [.rendered samples.size])
    else none

def renderWav (seconds : UInt32) (s : Session) :
    Option (Except SessionError (Array UInt8) × List Notice) := do
  match ← s.render (sampleRate * seconds.toNat) with
  | (.error e, notices) => return (.error e, notices)
  | (.ok samples, notices) => return (.ok (Wav.image samples (UInt32.ofNat sampleRate)), notices)

def exportWav {m : Type → Type} [Monad m] (fs : FileSystem m) (path : String) (seconds : UInt32)
    (s : Session) : m (Option (Except SessionError Nat × List Notice)) := do
  match s.render (sampleRate * seconds.toNat) with
  | none => return none
  | some (.error e, notices) => return some (.error e, notices)
  | some (.ok samples, notices) =>
    match ← fs.write path (Wav.chunks samples (UInt32.ofNat sampleRate)) with
    | .error e => return some (.error (.file e), notices)
    | .ok _ => return some (.ok samples.size, notices ++ [.exported samples.size path])

end Session

end Polysynth
