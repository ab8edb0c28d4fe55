import Polysynth.Mixer
import Polysynth.Output

namespace Polysynth

inductive Stage where
  | playing
  /-- So many samples of silence are still to be queued. -/
  | draining (left : Nat)
  /-- The output was stopped, and perhaps the device refused to pause. -/
  | stopped (fault : Option AudioError)
  deriving DecidableEq

structure Player where
  handoff : Handoff Mixer
  output : Output
  stage : Stage := .playing
  /-- Every frame that the device has played. -/
  played : Array UInt8 := #[]

namespace Player

def tail : Nat := sampleRate

def blockSize : Nat := 256

def start (m : Mixer) (o : Output) : Player := { handoff := m.primed, output := o }

def halt (p : Player) : Player :=
  match p.stage with
  | .playing => { p with stage := .draining tail }
  | _ => p

def pass (p : Player) : Player :=
  let sample := p.handoff.slot.interrupt.1
  let handoff := (p.handoff.pass Mixer.next 0).2
  let p := { p with handoff := handoff, output := (p.output.write [sample]).2 }
  if handoff.source.finished then p.halt else p

/-- Offers a block of silence to the queue, which takes what it has room for. -/
def offer (block left : Nat) (p : Player) : Player :=
  let (n, output) := p.output.write (List.replicate block silence)
  { p with output := output, stage := .draining (left - n) }

def drain (left : Nat) (p : Player) : Player := p.offer (min left blockSize) left

def stop (p : Player) : Player :=
  match p.output.stop with
  | (.ok _, output) => { p with output := output, stage := .stopped none }
  | (.error e, output) => { p with output := output, stage := .stopped (some e) }

/-- One turn of the loop. While the queue is full, the loop waits. -/
def advance (p : Player) : Player :=
  match p.stage with
  | .playing => if p.output.queue.length < Output.queueCapacity then p.pass else p
  | .draining 0 => p.stop
  | .draining left => p.drain left
  | .stopped _ => p

def listen (n : Nat) (p : Player) : Player :=
  let (frames, output) := p.output.frames n
  { p with output := output, played := p.played ++ frames }

/-- The device plays until the queue is empty. -/
def listenAll (p : Player) : Player :=
  p.listen ((p.output.callback.map (Hold.framesFor p.output.queue.length)).getD 0)

/-- One turn of the loop on a device that takes samples as fast as they come. -/
def turn (p : Player) : Player := p.advance.listenAll

/-- Turns until the song is over, but no more than `n`. -/
def play : Nat → Player → Player
  | 0, p => p
  | n + 1, p =>
    match p.stage with
    | .playing => p.turn.play n
    | _ => p

/-- Halts playback and waits until the output has stopped. Every turn queues a block of silence, and
the one after the last block stops the output. -/
def finish (p : Player) : Player := Nat.repeat turn (tail / blockSize + 2) p.halt

def heard (p : Player) : Array UInt8 := p.played.filter (fun s => s != silence)

end Player

end Polysynth
