import Mathlib.Logic.Relation
import Polysynth.Proofs.Playback

namespace Polysynth

open Relation

namespace Device

/-- The frames of a buffer of `len` entries. The last one may be cut short. -/
def framesIn (len : Nat) (d : Device) : Nat := (len + d.channels - 1) / d.channels

variable {d : Device}

theorem framesIn_mul (hc : 0 < d.channels) (n : Nat) : d.framesIn (n * d.channels) = n := by
  rw [framesIn, Nat.add_sub_assoc hc, Nat.mul_comm, Nat.mul_add_div hc]
  simp [Nat.div_eq_of_lt, hc]

theorem le_framesIn_mul (hc : 0 < d.channels) (len : Nat) :
    len ≤ d.framesIn len * d.channels := by
  have hd := Nat.div_add_mod (len + d.channels - 1) d.channels
  have hm := Nat.mod_lt (len + d.channels - 1) hc
  rw [framesIn, Nat.mul_comm]
  omega

end Device

namespace Output

variable {o : Output} {hold : Hold}

/-- A buffer holds its frames, each on every channel. -/
theorem fill_eq (hh : o.callback = some hold) (hc : 0 < o.device.channels) (len : Nat) :
    o.fill len =
      (.entries (((o.frames (o.device.framesIn len)).1.toList.flatMap
        (List.replicate o.device.channels)).take len), (o.frames (o.device.framesIn len)).2) := by
  cases hr : o.running with
  | true => simp [fill, frames, Device.framesIn, hh, hr, Nat.ne_of_gt hc]
  | false =>
    have hl := Nat.min_eq_left (Device.le_framesIn_mul hc len)
    simp [fill, frames, hh, hr, List.flatMap_replicate, List.take_replicate, hl]

theorem write_silence (n : Nat) (o : Output) :
    o.write (List.replicate n silence) =
      (min (queueCapacity - o.queue.length) n,
        { o with queue := o.queue ++
          List.replicate (min (queueCapacity - o.queue.length) n) silence }) := by
  simp [write, List.take_replicate]

end Output

namespace Stage

/-- How much silence has been queued. -/
def quieted : Stage → Nat
  | playing => 0
  | draining left => Player.tail - left
  | stopped _ => Player.tail

end Stage

namespace Player

theorem quieted_stageAfter (m : Mixer) : (stageAfter m).quieted = 0 := by
  unfold stageAfter
  split
  · exact Nat.sub_self tail
  · rfl

def fault : Except AudioError Unit → Option AudioError
  | .ok _ => none
  | .error e => some e

/-- The output is stopped even if the device refuses to pause. -/
theorem stop_eq (p : Player) : p.stop = { p with
    output := { p.output with running := false }
    stage := .stopped (fault (p.output.control .pause)) } := by
  unfold stop Output.stop
  cases p.output.control .pause with
  | ok _ => rfl
  | error e => rfl

/-- The loop goes on, or is told to halt. Of a block of silence that it offers, the queue may take
less than it has room for. -/
inductive Loop : Player → Player → Prop where
  | advance (p : Player) : Loop p p.advance
  | halt (p : Player) : Loop p p.halt
  | part {p : Player} {left block : Nat} (draining : p.stage = .draining left)
      (within : block ≤ min left blockSize) : Loop p (p.offer block left)

def quiet (left n : Nat) (p : Player) : Player :=
  { p with
    output := { p.output with queue := p.output.queue ++ List.replicate n silence }
    stage := .draining (left - n) }

theorem offer_eq (block left : Nat) (p : Player) :
    p.offer block left = p.quiet left (min (Output.queueCapacity - p.output.queue.length) block) := by
  rw [offer, Output.write_silence]
  rfl

theorem halt_over (p : Player) : p.halt.stage ≠ .playing ∧ p.halt.handoff = p.handoff := by
  unfold halt
  split
  · exact ⟨nofun, rfl⟩
  · next hs => exact ⟨hs, rfl⟩

/-- A turn queues a block of silence, or what is left of it, or what there is room for. -/
theorem advance_draining {p : Player} {left : Nat} (hs : p.stage = .draining left)
    (hl : 0 < left) :
    p.advance =
      p.quiet left (min left (min blockSize (Output.queueCapacity - p.output.queue.length))) := by
  obtain ⟨n, rfl⟩ := Nat.exists_eq_add_one_of_ne_zero (Nat.ne_of_gt hl)
  simp only [advance, hs, drain, offer_eq]
  rw [Nat.min_comm, Nat.min_assoc]

theorem advance_drained {p : Player} (hs : p.stage = .draining 0) : p.advance = p.stop := by
  simp only [advance, hs]

theorem advance_full {p : Player} (hs : p.stage = .playing)
    (hq : Output.queueCapacity ≤ p.output.queue.length) : p.advance = p := by
  simp only [advance, hs, Nat.not_lt.mpr hq, if_false]

/-- All that the loop can do at a time. -/
inductive Goes : Player → Player → Prop where
  | wait (p : Player) : Goes p p
  | pass {p : Player} (playing : p.stage = .playing)
      (room : p.output.queue.length < Output.queueCapacity) : Goes p p.pass
  | leave {p : Player} (playing : p.stage = .playing) : Goes p { p with stage := .draining tail }
  | quiet {p : Player} {left n : Nat} (draining : p.stage = .draining left) (rest : n ≤ left)
      (room : n ≤ Output.queueCapacity - p.output.queue.length) : Goes p (p.quiet left n)
  | stop {p : Player} (drained : p.stage = .draining 0) : Goes p p.stop

theorem goes_advance (p : Player) : Goes p p.advance := by
  cases hs : p.stage with
  | playing =>
    rcases Nat.lt_or_ge p.output.queue.length Output.queueCapacity with hr | hq
    · rw [advance_playing hs hr]
      exact .pass hs hr
    · rw [advance_full hs hq]
      exact .wait p
  | draining left =>
    rcases Nat.eq_zero_or_pos left with rfl | hl
    · rw [advance_drained hs]
      exact .stop hs
    · rw [advance_draining hs hl]
      exact .quiet hs (by omega) (by omega)
  | stopped fault =>
    simp only [advance, hs]
    exact .wait p

theorem goes_halt (p : Player) : Goes p p.halt := by
  cases hs : p.stage with
  | playing =>
    simp only [halt, hs]
    exact .leave hs
  | draining left =>
    simp only [halt, hs]
    exact .wait p
  | stopped fault =>
    simp only [halt, hs]
    exact .wait p

theorem Loop.goes {p p' : Player} (h : Loop p p') : Goes p p' := by
  cases h with
  | advance => exact goes_advance p
  | halt => exact goes_halt p
  | part draining within =>
    rw [offer_eq]
    exact .quiet draining (by omega) (by omega)

/-- A stopped output keeps its queue and its hold. -/
theorem listen_of_stopped {p : Player} (hs : p.output.running = false) (n : Nat) :
    ∃ m, p.listen n = { p with played := p.played ++ Array.replicate m silence } := by
  cases hc : p.output.callback with
  | none => exact ⟨0, by simp [listen, Output.frames, hc]⟩
  | some hold => exact ⟨n, by simp [listen, Output.frames, hc, hs]⟩

end Player

structure Wire where
  player : Player
  /-- The frames of the buffer that are yet to be played. -/
  wanted : Nat := 0
  /-- The first of them is being made. -/
  framing : Bool := false
  pushed : List UInt8 := []
  popped : List UInt8 := []

namespace Wire

def start (m : Mixer) (o : Output) : Wire := { player := .start m o }

/-- The loop has gone on to `p`. What stands behind the samples that were queued before was
pushed. -/
def push (p : Player) (w : Wire) : Wire :=
  { w with
    player := p, pushed := w.pushed ++ p.output.queue.drop w.player.output.queue.length }

def owe (hold : Hold) (w : Wire) : Wire :=
  { w with
    player := { w.player with output := { w.player.output with callback := some hold.owe } }
    framing := true }

/-- The device asks for a sample. What is gone from the front of the queue was popped. -/
def pull (hold : Hold) (w : Wire) : Wire :=
  let queue := w.player.output.queue
  let (made, rest) := hold.asks 1 queue
  { w with
    player := { w.player with
      output := { w.player.output with queue := rest, callback := some made } }
    popped := w.popped ++ queue.take (queue.length - rest.length) }

def sound (hold : Hold) (w : Wire) : Wire :=
  { w with
    player := { w.player with played := w.player.played.push hold.current }
    wanted := w.wanted - 1
    framing := false }

/-- What the device does to make the frames that it wants. -/
inductive Feed : Wire → Wire → Prop where
  | owe {w : Wire} {hold : Hold} (callback : w.player.output.callback = some hold)
      (wanted : 0 < w.wanted) (between : w.framing = false) : Feed w (w.owe hold)
  | pull {w : Wire} {hold : Hold} (callback : w.player.output.callback = some hold)
      (within : w.framing = true) (due : hold.deviceRate ≤ hold.owed) : Feed w (w.pull hold)
  | sound {w : Wire} {hold : Hold} (callback : w.player.output.callback = some hold)
      (within : w.framing = true) (made : hold.owed < hold.deviceRate) : Feed w (w.sound hold)

/-- The device asks whether the output runs only when it begins a buffer. While it fills one, the
loop may go on at any time. -/
inductive Step : Wire → Wire → Prop where
  | loop {w : Wire} {p : Player} (goes : w.player.Loop p) : Step w (w.push p)
  | call {w : Wire} (len : Nat) (idle : w.wanted = 0) (running : w.player.output.running = true)
      (channels : 0 < w.player.output.device.channels) :
      Step w { w with wanted := w.player.output.device.framesIn len }
  | mute {w : Wire} (len : Nat) (idle : w.wanted = 0)
      (stopped : w.player.output.running = false) :
      Step w { w with player := w.player.listen (w.player.output.device.framesIn len) }
  | feed {w w' : Wire} (fills : Feed w w') : Step w w'

variable {w w' : Wire} {hold : Hold}

/-- What every step keeps holds all along a run. -/
theorem keeps (kept : Wire → Prop) (step : ∀ {w w'}, kept w → Step w w' → kept w')
    (h : kept w) (hr : ReflTransGen Step w w') : kept w' := by
  induction hr with
  | refl => exact h
  | tail _ hs ih => exact step ih hs

/-- The loop only adds behind the queue, so what it pushed can be read off the queue. -/
theorem pushed_push {p : Player} {added : List UInt8}
    (hq : p.output.queue = w.player.output.queue ++ added) :
    (w.push p).pushed = w.pushed ++ added := by
  rw [push, hq, List.drop_left]

theorem push_self (w : Wire) : w.push w.player = w := by
  simp [push]

theorem pull_eq (hold : Hold) (w : Wire) :
    w.pull hold = { w with
      player := { w.player with
        output := { w.player.output with
          queue := w.player.output.queue.tail
          callback := some (hold.ask w.player.output.queue) } }
      popped := w.popped ++ w.player.output.queue.head?.toList } := by
  unfold pull
  cases w.player.output.queue with
  | nil => rfl
  | cons x rest => simp [Hold.asks]

/-- What was pushed is what was popped and what is queued, and it is the song and the silence
behind it. -/
structure Conserved (m : Mixer) (w : Wire) : Prop where
  song : ∃ n, w.player.handoff = Handoff.inStep Mixer.next m n
  flow : w.pushed = w.popped ++ w.player.output.queue
  bound : w.player.output.queue.length ≤ Output.queueCapacity
  sent : w.pushed =
    w.player.handoff.emitted.toList ++ List.replicate w.player.stage.quieted silence
  left : ∀ {left}, w.player.stage = .draining left → left ≤ Player.tail

namespace Conserved

variable {m : Mixer}

theorem start {d : Device} {o : Output} (ho : Output.Opened d o) :
    Conserved m (Wire.start m o) where
  song := ⟨0, rfl⟩
  flow := ho.flowing.2.1.symm
  bound := by
    change o.queue.length ≤ _
    rw [ho.flowing.2.1]
    exact Nat.zero_le _
  sent := rfl
  left := by
    intro left h
    cases h

theorem pass (h : Conserved m w) (hs : w.player.stage = .playing)
    (hr : w.player.output.queue.length < Output.queueCapacity) :
    Conserved m (w.push w.player.pass) := by
  obtain ⟨n, hn⟩ := h.song
  have hp := Player.pass_eq hs hr
  have hq : w.player.pass.output.queue = w.player.output.queue ++ [w.player.handoff.slot.held] := by
    rw [hp]
  -- A pass that ends the song has queued no silence yet, so `sent` goes on as it was.
  constructor
  case song =>
    refine ⟨n + 1, ?_⟩
    simp only [Wire.push, hp, hn, Handoff.pass_inStep]
  case flow =>
    rw [pushed_push hq, h.flow, List.append_assoc, ← hq]
    rfl
  case bound =>
    simp only [Wire.push, hq, List.length_append, List.length_singleton]
    omega
  case sent =>
    have he := h.sent
    rw [hs] at he
    rw [pushed_push hq]
    simp only [Wire.push, hp, Player.quieted_stageAfter, Handoff.emitted_pass, Array.toList_push]
    simpa [Stage.quieted] using he
  case left =>
    intro left hl
    simp only [Wire.push, hp, Player.stageAfter] at hl
    split at hl
    · cases hl
      exact Nat.le_refl _
    · cases hl

theorem leave (h : Conserved m w) (hs : w.player.stage = .playing) :
    Conserved m (w.push { w.player with stage := .draining Player.tail }) := by
  have he := h.sent
  rw [hs] at he
  have hp := pushed_push (w := w) (p := { w.player with stage := .draining Player.tail })
    (List.append_nil _).symm
  rw [List.append_nil] at hp
  refine ⟨h.song, hp.trans h.flow, h.bound, ?_, ?_⟩
  · rw [hp]
    simpa [Wire.push, Stage.quieted] using he
  · intro left hl
    cases hl
    exact Nat.le_refl _

/-- Silence that was queued is no longer left to be queued. -/
theorem quiet (h : Conserved m w) {left n : Nat} (hs : w.player.stage = .draining left)
    (hn : n ≤ left) (hr : n ≤ Output.queueCapacity - w.player.output.queue.length) :
    Conserved m (w.push (w.player.quiet left n)) := by
  have hl := h.left hs
  have hb := h.bound
  have hp := pushed_push (w := w) (p := w.player.quiet left n) rfl
  constructor
  case song => exact h.song
  case flow =>
    rw [hp, h.flow, List.append_assoc]
    rfl
  case bound =>
    simp only [Wire.push, Player.quiet, List.length_append, List.length_replicate]
    omega
  case sent =>
    have he := h.sent
    have ht : Player.tail - (left - n) = Player.tail - left + n := by omega
    rw [hs] at he
    rw [hp, he]
    simp only [Wire.push, Player.quiet, Stage.quieted]
    rw [ht, List.append_assoc, List.replicate_append_replicate]
  case left =>
    intro left' hl'
    cases hl'
    omega

/-- Stopping leaves the queue as it is. -/
theorem stop (h : Conserved m w) (hs : w.player.stage = .draining 0) :
    Conserved m (w.push w.player.stop) := by
  have he := h.sent
  have hp : (w.push w.player.stop).pushed = w.pushed ++ [] :=
    pushed_push (by rw [Player.stop_eq, List.append_nil])
  rw [hs] at he
  rw [List.append_nil] at hp
  rw [Player.stop_eq] at hp ⊢
  refine ⟨h.song, hp.trans h.flow, h.bound, hp.trans he, ?_⟩
  intro left hl
  cases hl

theorem loop (h : Conserved m w) {p : Player} (hp : w.player.Loop p) : Conserved m (w.push p) := by
  cases hp.goes with
  | wait =>
    rw [push_self]
    exact h
  | pass playing room => exact h.pass playing room
  | leave playing => exact h.leave playing
  | quiet draining rest room => exact h.quiet draining rest room
  | stop drained => exact h.stop drained

theorem pull (h : Conserved m w) (hold : Hold) : Conserved m (w.pull hold) := by
  rw [pull_eq]
  refine ⟨h.song, ?_, ?_, h.sent, h.left⟩
  · have hf := h.flow
    cases hq : w.player.output.queue with
    | nil => simpa [hq] using hf
    | cons x rest => simpa [hq] using hf
  · have hb := h.bound
    simp only [List.length_tail]
    omega

theorem mute (h : Conserved m w) (hs : w.player.output.running = false) (n : Nat) :
    Conserved m { w with player := w.player.listen n } := by
  obtain ⟨_, hl⟩ := Player.listen_of_stopped hs n
  rw [hl]
  exact ⟨h.song, h.flow, h.bound, h.sent, h.left⟩

theorem feed (h : Conserved m w) (hf : Feed w w') : Conserved m w' := by
  cases hf with
  | pull => exact h.pull _
  | owe | sound => exact ⟨h.song, h.flow, h.bound, h.sent, h.left⟩

theorem step (h : Conserved m w) (hs : Step w w') : Conserved m w' := by
  cases hs with
  | loop goes => exact h.loop goes
  | call => exact ⟨h.song, h.flow, h.bound, h.sent, h.left⟩
  | mute len _ stopped => exact h.mute stopped _
  | feed fills => exact h.feed fills

end Conserved

def Live (w : Wire) : Prop :=
  w.player.output.running = true ∨ ∃ fault, w.player.stage = .stopped fault

theorem Live.running (hl : w.Live) (hs : ∀ fault, w.player.stage ≠ .stopped fault) :
    w.player.output.running = true := by
  rcases hl with hr | ⟨fault, hf⟩
  · exact hr
  · exact absurd hf (hs fault)

structure Beside (w w' : Wire) : Prop where
  device : w'.player.output.device = w.player.output.device
  callback : w'.player.output.callback = w.player.output.callback
  live : w.Live → w'.Live
  played : w'.player.played = w.player.played
  wanted : w'.wanted = w.wanted
  framing : w'.framing = w.framing
  popped : w'.popped = w.popped

/-- The loop and the device share the queue, and nothing else of the output. -/
theorem Beside.loop {p : Player} (h : w.player.Loop p) : Beside w (w.push p) := by
  cases h.goes with
  | wait =>
    rw [push_self]
    exact ⟨rfl, rfl, id, rfl, rfl, rfl, rfl⟩
  | pass playing room =>
    rw [push, Player.pass_eq playing room]
    exact ⟨rfl, rfl, fun hl => .inl (hl.running (by simp [playing])), rfl, rfl, rfl, rfl⟩
  | leave playing =>
    exact ⟨rfl, rfl, fun hl => .inl (hl.running (by simp [playing])), rfl, rfl, rfl, rfl⟩
  | quiet draining =>
    exact ⟨rfl, rfl, fun hl => .inl (hl.running (by simp [draining])), rfl, rfl, rfl, rfl⟩
  | stop =>
    rw [push, Player.stop_eq]
    exact ⟨rfl, rfl, fun _ => .inr ⟨_, rfl⟩, rfl, rfl, rfl, rfl⟩

structure Attached (d : Device) (w : Wire) : Prop where
  device : w.player.output.device = d
  live : w.Live
  hold : ∃ hold, w.player.output.callback = some hold ∧ hold.sourceRate = sampleRate ∧
    hold.deviceRate = max d.rate 1 ∧ (w.framing = false → hold.owed < hold.deviceRate)
  idle : w.wanted = 0 → w.framing = false

namespace Attached

variable {d : Device}

theorem start {m : Mixer} {o : Output} (ho : Output.Opened d o) : Attached d (Wire.start m o) := by
  obtain ⟨hf, _, hd⟩ := ho.flowing
  exact ⟨hd, .inl hf.running, ⟨_, hf.callback, rfl, rfl, fun _ => hf.settled.owed⟩, fun _ => rfl⟩

theorem beside (h : Attached d w) (hb : Beside w w') : Attached d w' where
  device := hb.device.trans h.device
  live := hb.live h.live
  hold := by
    rw [hb.callback, hb.framing]
    exact h.hold
  idle := by
    rw [hb.wanted, hb.framing]
    exact h.idle

theorem feed (h : Attached d w) (hf : Feed w w') : Attached d w' := by
  obtain ⟨hold, hc, hp, hd, ho⟩ := h.hold
  cases hf with
  | owe callback wanted _ =>
    cases hc.symm.trans callback
    refine ⟨h.device, h.live, ⟨_, rfl, hp, hd, ?_⟩, ?_⟩
    · intro hf
      cases hf
    · intro hw
      exact absurd hw (Nat.ne_of_gt wanted)
  | pull callback within =>
    cases hc.symm.trans callback
    rw [pull_eq]
    refine ⟨h.device, h.live, ⟨_, rfl, hp, hd, ?_⟩, h.idle⟩
    intro hf
    cases within.symm.trans hf
  | sound callback _ made =>
    cases hc.symm.trans callback
    exact ⟨h.device, h.live, ⟨_, hc, hp, hd, fun _ => made⟩, fun _ => rfl⟩

theorem step (h : Attached d w) (hs : Step w w') : Attached d w' := by
  cases hs with
  | loop goes => exact h.beside (.loop goes)
  | call len idle => exact ⟨h.device, h.live, h.hold, fun _ => h.idle idle⟩
  | mute len _ stopped =>
    obtain ⟨m, hl⟩ := Player.listen_of_stopped stopped (w.player.output.device.framesIn len)
    rw [hl]
    exact ⟨h.device, h.live, h.hold, h.idle⟩
  | feed fills => exact h.feed fills

end Attached

end Wire

end Polysynth
