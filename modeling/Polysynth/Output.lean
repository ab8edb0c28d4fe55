import Polysynth.Hold

namespace Polysynth

inductive Device.Call where
  | config
  | build
  | play
  | pause
  deriving DecidableEq

structure Device where
  name : String
  /-- Frames per second. -/
  rate : Nat := sampleRate
  channels : Nat := 1
  /-- The reason for which the device refuses a call. -/
  refusal : Device.Call → Option String := fun _ => none

inductive AudioError where
  | noDevice
  | deviceInit (reason : String)
  | streamCreate (reason : String)
  | playback (reason : String)
  deriving DecidableEq

def AudioError.message : AudioError → String
  | noDevice => "no audio device available"
  | deviceInit reason => s!"device init error: {reason}"
  | streamCreate reason => s!"stream create error: {reason}"
  | playback reason => s!"playback error: {reason}"

structure Output where
  device : Device
  /-- Samples written and not yet taken, oldest first. -/
  queue : List UInt8 := []
  /-- The device may take samples from the queue. -/
  running : Bool := false
  /-- The hold of the callback that the device was given. -/
  callback : Option Hold := none
  /-- There is a stream that can be started and paused. -/
  streaming : Bool := false

namespace Output

def queueCapacity : Nat := sampleRate / 10

def ofDevice : Option Device → Except AudioError Output
  | none => .error .noDevice
  | some d =>
    match d.refusal .config with
    | some reason => .error (.deviceInit reason)
    | none => .ok { device := d }

/-- Gives the device its callback and starts the stream. A stream that does not start is dropped,
and its callback with it. -/
def build (o : Output) : Except AudioError Unit × Output :=
  match o.device.refusal .build with
  | some reason => (.error (.streamCreate reason), o)
  | none =>
    match o.device.refusal .play with
    | some reason => (.error (.playback reason), o)
    | none =>
      (.ok (),
        { o with callback := some (Hold.start sampleRate o.device.rate), streaming := true })

def control (call : Device.Call) (o : Output) : Except AudioError Unit :=
  if o.streaming then
    match o.device.refusal call with
    | some reason => .error (.playback reason)
    | none => .ok ()
  else .ok ()

-- The device may take samples, or not, even if it refuses to start or pause the stream.
def start (o : Output) : Except AudioError Unit × Output :=
  (o.control .play, { o with running := true })

def stop (o : Output) : Except AudioError Unit × Output :=
  (o.control .pause, { o with running := false })

/-- Queues as many samples as there is room for, and says how many. -/
def write (samples : List UInt8) (o : Output) : Nat × Output :=
  let accepted := samples.take (queueCapacity - o.queue.length)
  (accepted.length, { o with queue := o.queue ++ accepted })

/-- The next `n` frames of the device. It has none without a callback, and plays silence while
the output does not run. -/
def frames (n : Nat) (o : Output) : Array UInt8 × Output :=
  match o.callback with
  | none => (#[], o)
  | some hold =>
    if o.running then
      let r := hold.run n o.queue
      (r.frames, { o with queue := r.source, callback := some r.hold })
    else (Array.replicate n silence, o)

inductive Filled where
  /-- The device has no callback, and its buffer stays as it was. -/
  | untouched
  | entries (samples : List UInt8)
  /-- Frames without channels cannot be filled. -/
  | noChannels

/-- The device calls for `len` entries. A frame is the same entry on every channel, and the last
frame may be cut short. -/
def fill (len : Nat) (o : Output) : Filled × Output :=
  if o.callback.isNone then (.untouched, o)
  else if !o.running then (.entries (List.replicate len silence), o)
  else if o.device.channels = 0 then (.noChannels, o)
  else
    let (samples, o) := o.frames ((len + o.device.channels - 1) / o.device.channels)
    (.entries ((samples.toList.flatMap (List.replicate o.device.channels)).take len), o)

end Output

end Polysynth
