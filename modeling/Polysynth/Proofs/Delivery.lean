import Polysynth.Proofs.Wire

namespace Polysynth

open Relation

/-- Silence is the only sample that cannot be heard. -/
theorem amplitude_eq_zero (s : UInt8) : (amplitude s == 0) = (s == silence) := by
  -- There are no laws of floating point to cite, so all the amplitudes are computed.
  have h : ∀ i : Fin 256, (amplitude (UInt8.ofFin i) == 0) = (UInt8.ofFin i == silence) := by
    decide +kernel
  exact h s.toFin

def audible (samples : List UInt8) : List UInt8 := samples.filter (fun s => s != silence)

theorem audible_append (xs ys : List UInt8) : audible (xs ++ ys) = audible xs ++ audible ys :=
  List.filter_append xs ys

theorem audible_silence (n : Nat) : audible (List.replicate n silence) = [] := by
  simp [audible]

theorem audible_repeat (k : Nat) (xs : List UInt8) :
    audible (xs.flatMap (List.replicate k)) = (audible xs).flatMap (List.replicate k) := by
  induction xs with
  | nil => rfl
  | cons x xs ih =>
    rw [List.flatMap_cons, audible_append, ih]
    by_cases hx : x = silence
    · simp [hx, audible]
    · simp [hx, audible]

/-- What is heard of frames is told by their samples alone. -/
theorem filter_amplitude (samples : List UInt8) :
    (samples.map amplitude).filter (fun x => x != 0) = (audible samples).map amplitude := by
  rw [List.filter_map, audible]
  congr 1
  apply List.filter_congr
  intro s _
  exact congrArg not (amplitude_eq_zero s)

namespace Wire

variable {w w' : Wire} {hold : Hold} {d : Device} {m : Mixer}

/-- On a device `k` times as fast, what can be heard of the popped samples was played `k` times
each, but for `due` frames of the sample held now. -/
structure Repeats (k : Nat) (w : Wire) (hold : Hold) (due : Nat) : Prop where
  callback : w.player.output.callback = some hold
  source : hold.sourceRate = sampleRate
  device : hold.deviceRate = k * sampleRate
  owed : hold.owed + (if w.framing then due else due + 1) * sampleRate = k * sampleRate
  held : hold.current = silence ∨ w.popped.getLast? = some hold.current
  heard : audible (w.player.played.toList ++ List.replicate due hold.current) =
    audible (w.popped.flatMap (List.replicate k))

namespace Repeats

variable {k due : Nat}

theorem start {m : Mixer} {d : Device} {o : Output} (ho : Output.Opened d o) (hk : 1 ≤ k)
    (hd : d.rate = k * sampleRate) :
    Repeats k (Wire.start m o) (Hold.start sampleRate d.rate) 0 := by
  have hs : sampleRate ≤ k * sampleRate := Nat.le_mul_of_pos_left _ hk
  have hr : (Hold.start sampleRate d.rate).deviceRate = k * sampleRate := by
    have h1 : 1 ≤ k * sampleRate := Nat.le_trans (by decide) hs
    rw [hd]
    exact Nat.max_eq_left h1
  refine ⟨ho.flowing.1.callback, rfl, hr, ?_, .inl rfl, rfl⟩
  have ho : (Hold.start sampleRate d.rate).owed = k * sampleRate - sampleRate :=
    congrArg (· - sampleRate) hr
  rw [ho]
  simp only [Wire.start, Bool.false_eq_true, if_false, Nat.zero_add, Nat.one_mul]
  exact Nat.sub_add_cancel hs

theorem owe (h : Repeats k w hold due) (hf : w.framing = false) :
    Repeats k (w.owe hold) hold.owe due := by
  refine ⟨rfl, h.source, h.device, ?_, h.held, h.heard⟩
  have ho := h.owed
  simp only [hf, Bool.false_eq_true, if_false, Nat.add_mul, Nat.one_mul] at ho
  simp only [Wire.owe, Hold.owe, if_true, h.source]
  omega

/-- A sample is popped when no frame of the last one is due. -/
theorem pull (h : Repeats k w hold due) (hf : w.framing = true)
    (hd : hold.deviceRate ≤ hold.owed) :
    Repeats k (w.pull hold) (hold.ask w.player.output.queue) k := by
  have ho := h.owed
  rw [h.device] at hd
  simp only [hf, if_true] at ho
  have hdue : due = 0 := by
    have hz : due * sampleRate = 0 := by omega
    simpa [sampleRate] using hz
  have hh := h.heard
  rw [hdue, List.replicate_zero, List.append_nil] at hh
  rw [pull_eq]
  refine ⟨rfl, h.source, h.device, ?_, ?_, ?_⟩
  · simp only [Hold.ask, hf, if_true, h.device]
    omega
  · cases hq : w.player.output.queue with
    | nil => exact .inl rfl
    | cons x rest => exact .inr (by simp [Hold.ask])
  · rw [audible_append]
    dsimp only
    rw [hh, List.flatMap_append, audible_append]
    cases w.player.output.queue with
    | nil => simp [audible, Hold.ask]
    | cons x rest => simp [Hold.ask]

theorem sound (h : Repeats k w hold due) (hf : w.framing = true)
    (hd : hold.owed < hold.deviceRate) : ∃ due', Repeats k (w.sound hold) hold due' := by
  have ho := h.owed
  rw [h.device] at hd
  simp only [hf, if_true] at ho
  have hpos : due ≠ 0 := by
    rintro rfl
    omega
  obtain ⟨due', rfl⟩ := Nat.exists_eq_succ_of_ne_zero hpos
  refine ⟨due', h.callback, h.source, h.device, ho, h.held, ?_⟩
  have hh := h.heard
  rw [List.replicate_succ] at hh
  simpa [Wire.sound] using hh

/-- A device that finds the output stopped plays silence, and that is not heard. -/
theorem mute (h : Repeats k w hold due) (hs : w.player.output.running = false) (n : Nat) :
    Repeats k { w with player := w.player.listen n } hold due := by
  obtain ⟨m, hl⟩ := Player.listen_of_stopped hs n
  rw [hl]
  refine ⟨h.callback, h.source, h.device, h.owed, h.held, ?_⟩
  have hh := h.heard
  rw [audible_append] at hh
  simpa [audible_append, audible_silence] using hh

theorem beside (h : Repeats k w hold due) (hb : Beside w w') : Repeats k w' hold due where
  callback := hb.callback.trans h.callback
  source := h.source
  device := h.device
  owed := by
    rw [hb.framing]
    exact h.owed
  held := by
    rw [hb.popped]
    exact h.held
  heard := by
    rw [hb.played, hb.popped]
    exact h.heard

theorem feed (h : Repeats k w hold due) (hf : Feed w w') : ∃ hold due, Repeats k w' hold due := by
  have hc := h.callback
  cases hf with
  | owe callback _ between =>
    cases hc.symm.trans callback
    exact ⟨_, _, h.owe between⟩
  | pull callback within isDue =>
    cases hc.symm.trans callback
    exact ⟨_, _, h.pull within isDue⟩
  | sound callback within made =>
    cases hc.symm.trans callback
    exact ⟨_, h.sound within made⟩

theorem step (h : Repeats k w hold due) (hs : Step w w') : ∃ hold due, Repeats k w' hold due := by
  cases hs with
  | loop goes => exact ⟨_, _, h.beside (.loop goes)⟩
  | call => exact ⟨_, _, h.callback, h.source, h.device, h.owed, h.held, h.heard⟩
  | mute len _ stopped => exact ⟨_, _, h.mute stopped _⟩
  | feed fills => exact h.feed fills

end Repeats

def pulls (q : Nat) (hold : Hold) (w : Wire) : Wire :=
  { w with
    player := { w.player with
      output := { w.player.output with
        queue := w.player.output.queue.drop q
        callback := some (hold.asked q w.player.output.queue) } }
    popped := w.popped ++ w.player.output.queue.take q }

/-- All that a frame takes is popped one sample at a time. -/
theorem run_pulls (hc : w.player.output.callback = some hold) (hf : w.framing = true) {q : Nat}
    (hq : q * hold.deviceRate ≤ hold.owed) : ReflTransGen Feed w (w.pulls q hold) := by
  induction q with
  | zero =>
    have hz : w.pulls 0 hold = w := by simp [pulls, Hold.asked, ← hc]
    rw [hz]
  | succ q ih =>
    rw [Nat.add_mul, Nat.one_mul] at hq
    have hp : Feed (w.pulls q hold) ((w.pulls q hold).pull (hold.asked q w.player.output.queue)) :=
      .pull rfl hf (Nat.le_sub_of_add_le' hq)
    have hn : (w.pulls q hold).pull (hold.asked q w.player.output.queue) =
        w.pulls (q + 1) hold := by
      rw [pull_eq]
      simp [pulls, Hold.asked, Hold.ask, List.take_add_one, Nat.add_mul, Nat.sub_sub]
    rw [← hn]
    exact (ih (Nat.le_of_add_right_le hq)).tail hp

def frame (hold : Hold) (w : Wire) : Wire :=
  { w with
    player := { w.player with
      output := { w.player.output with
        queue := (hold.frame w.player.output.queue).2.2
        callback := some (hold.frame w.player.output.queue).2.1 }
      played := w.player.played.push (hold.frame w.player.output.queue).1 }
    wanted := w.wanted - 1
    popped := w.popped ++ w.player.output.queue.take hold.due }

/-- A frame of the hold is made in steps: its time passes, its samples are popped and the last of
them is played. -/
theorem run_frame (hc : w.player.output.callback = some hold) (hd : 0 < hold.deviceRate)
    (hw : 0 < w.wanted) (hf : w.framing = false) : ReflTransGen Feed w (w.frame hold) := by
  let made := hold.owe.asked hold.due w.player.output.queue
  have hm : (hold.frame w.player.output.queue).2.1 = made := by rw [Hold.frame_eq]
  have hp : ReflTransGen Feed (w.owe hold) ((w.owe hold).pulls hold.due hold.owe) :=
    run_pulls rfl rfl (Nat.div_mul_le_self _ _)
  have ho : made.owed < made.deviceRate := by
    rw [← hm, Hold.owed_frame, (hold.rates_frame _).2]
    exact Nat.mod_lt _ hd
  have he : ((w.owe hold).pulls hold.due hold.owe).sound made = w.frame hold := by
    simp only [sound, pulls, owe, frame, Hold.frame_eq, hf, made]
  rw [← he]
  exact (ReflTransGen.single (.owe hc hw hf)).trans (hp.tail (.sound rfl rfl ho))

structure Idle (w : Wire) : Prop where
  wanted : w.wanted = 0
  framing : w.framing = false

def LeadsTo (r : Wire → Wire → Prop) (w : Wire) (p : Player) : Prop :=
  ∃ w', ReflTransGen r w w' ∧ w'.Idle ∧ w'.player = p

theorem LeadsTo.of_run {r : Wire → Wire → Prop} {p : Player} (hr : ReflTransGen r w w')
    (h : w'.LeadsTo r p) : w.LeadsTo r p := by
  obtain ⟨w₁, hr₁, hi, hp⟩ := h
  exact ⟨w₁, hr.trans hr₁, hi, hp⟩

theorem run_of_feed (h : ReflTransGen Feed w w') : ReflTransGen Step w w' := by
  induction h with
  | refl => exact .refl
  | tail _ hs ih => exact ih.tail (.feed hs)

theorem LeadsTo.step {p : Player} (h : w.LeadsTo Feed p) : w.LeadsTo Step p := by
  obtain ⟨w', hr, hi, hp⟩ := h
  exact ⟨w', run_of_feed hr, hi, hp⟩

/-- Frame after frame, the device plays what a hold gives. -/
theorem leadsTo_extend {n : Nat} (before : Array UInt8) {r : Hold.Run} (hw : w.wanted = n)
    (hf : w.framing = false) (hq : w.player.output.queue = r.source)
    (hc : w.player.output.callback = some r.hold) (hs : r.hold.Settled)
    (hp : w.player.played = before ++ r.frames) :
    w.LeadsTo Feed { w.player with
      output := { w.player.output with
        queue := (Hold.extend n r).source, callback := some (Hold.extend n r).hold }
      played := before ++ (Hold.extend n r).frames } := by
  induction n generalizing w r with
  | zero =>
    refine ⟨w, .refl, ⟨hw, hf⟩, ?_⟩
    simp only [Hold.extend, ← hq, ← hc, ← hp]
  | succ n ih =>
    have hr := run_frame hc hs.device (by omega) hf
    have hn := ih (w := w.frame r.hold) (r := r.next)
      (by simp [frame, hw]) hf (by simp [frame, hq, Hold.Run.next])
      (by simp [frame, hq, Hold.Run.next]) (hs.frame r.source)
      (by simp [frame, hq, hp, Hold.Run.next])
    exact .of_run hr hn

theorem leadsTo_run (hf : w.framing = false) (hc : w.player.output.callback = some hold)
    (hs : hold.Settled) :
    w.LeadsTo Feed { w.player with
      output := { w.player.output with
        queue := (hold.run w.wanted w.player.output.queue).source
        callback := some (hold.run w.wanted w.player.output.queue).hold }
      played := w.player.played ++ (hold.run w.wanted w.player.output.queue).frames } :=
  leadsTo_extend w.player.played rfl hf rfl hc hs (by simp)

theorem leadsTo_listen (hi : w.Idle) (hf : w.player.output.Flowing hold) (n : Nat) :
    ({ w with wanted := n } : Wire).LeadsTo Feed (w.player.listen n) := by
  rw [Player.listen, hf.frames]
  exact leadsTo_run (w := { w with wanted := n }) hi.framing hf.callback hf.settled

/-- The device has no choice in how it makes its frames. -/
theorem Feed.unique : Relator.RightUnique Feed := by
  intro w a b ha hb
  cases ha with
  | owe callback _ between =>
    cases hb with
    | owe callback' =>
      cases callback.symm.trans callback'
      rfl
    | pull _ within => cases between.symm.trans within
    | sound _ within => cases between.symm.trans within
  | pull callback within due =>
    cases hb with
    | owe _ _ between => cases between.symm.trans within
    | pull callback' =>
      cases callback.symm.trans callback'
      rfl
    | sound callback' _ made =>
      cases callback.symm.trans callback'
      exact absurd made (Nat.not_lt.mpr due)
  | sound callback within made =>
    cases hb with
    | owe _ _ between => cases between.symm.trans within
    | pull callback' _ due =>
      cases callback.symm.trans callback'
      exact absurd made (Nat.not_lt.mpr due)
    | sound callback' =>
      cases callback.symm.trans callback'
      rfl

theorem Idle.eq_of_feed (hi : w.Idle) (h : ReflTransGen Feed w w') : w' = w := by
  cases h using ReflTransGen.head_induction_on with
  | refl => rfl
  | head hs _ =>
    cases hs with
    | owe _ wanted => exact absurd hi.wanted (Nat.ne_of_gt wanted)
    | pull _ within => cases hi.framing.symm.trans within
    | sound _ within => cases hi.framing.symm.trans within

end Wire

/-- A turn of the loop, a stop signal, or a buffer of some length that the device fills. -/
inductive Move where
  | advance
  | halt
  | call (len : Nat)

def Move.take (p : Player) : Move → Player
  | advance => p.advance
  | halt => p.halt
  | call len => p.listen (p.output.device.framesIn len)

namespace Wire

variable {w w' : Wire} {hold : Hold} {d : Device} {m : Mixer}

theorem Attached.flowing (h : Attached d w) (hi : w.Idle)
    (hr : w.player.output.running = true) :
    ∃ hold, w.player.output.Flowing hold ∧ hold.sourceRate = sampleRate ∧
      hold.deviceRate = max d.rate 1 := by
  obtain ⟨hold, hc, hs, hd, ho⟩ := h.hold
  refine ⟨hold, ⟨hr, hc, ?_, ho hi.framing⟩, hs, hd⟩
  rw [hs]
  decide

/-- However a buffer is filled, if the loop does not go on meanwhile, it is filled as the program
fills it. -/
theorem Attached.listen_of_feed (h : Attached d w) (hi : w.Idle)
    (hr : w.player.output.running = true) {n : Nat}
    (hf : ReflTransGen Feed { w with wanted := n } w') (hz : w'.wanted = 0) :
    w'.player = w.player.listen n := by
  obtain ⟨hold, hflow, _⟩ := h.flowing hi hr
  obtain ⟨last, hlast, hidle, hp⟩ := leadsTo_listen hi hflow n
  have ha : Attached d { w with wanted := n } := ⟨h.device, h.live, h.hold, fun _ => hi.framing⟩
  have ha' : Attached d w' := keeps (Attached d) Attached.step ha (run_of_feed hf)
  have hi' : w'.Idle := ⟨hz, ha'.idle hz⟩
  rw [← hp]
  rcases ReflTransGen.total_of_right_unique Feed.unique hf hlast with hm | hm
  · rw [hi'.eq_of_feed hm]
  · rw [hidle.eq_of_feed hm]

/-- Without channels the device has no frames, and it is as if it had not asked. -/
theorem Attached.leadsTo_call (h : Attached d w) (hi : w.Idle) (len : Nat) :
    w.LeadsTo Step (w.player.listen (w.player.output.device.framesIn len)) := by
  cases hr : w.player.output.running with
  | false => exact ⟨_, .single (.mute len hi.wanted hr), ⟨hi.wanted, hi.framing⟩, rfl⟩
  | true =>
    obtain ⟨hold, hf, _⟩ := h.flowing hi hr
    have hl := (leadsTo_listen hi hf (w.player.output.device.framesIn len)).step
    rcases Nat.eq_zero_or_pos w.player.output.device.channels with hc | hc
    · have hz : w.player.output.device.framesIn len = 0 := by
        rw [Device.framesIn, hc, Nat.div_zero]
      have hw : ({ w with wanted := 0 } : Wire) = w := by rw [← hi.wanted]
      rw [hz, hw] at hl
      rw [hz]
      exact hl
    · exact .of_run (.single (.call len hi.wanted hr hc)) hl

structure Ready (m : Mixer) (d : Device) (w : Wire) : Prop where
  conserved : Conserved m w
  attached : Attached d w
  idle : w.Idle

theorem Ready.start {o : Output} (ho : Output.Opened d o) : Ready m d (Wire.start m o) :=
  ⟨.start ho, .start ho, rfl, rfl⟩

theorem Ready.of_run (h : Ready m d w) (hr : ReflTransGen Step w w') (hi : w'.Idle) :
    Ready m d w' :=
  ⟨keeps (Conserved m) Conserved.step h.conserved hr,
    keeps (Attached d) Attached.step h.attached hr, hi⟩

theorem Ready.move (h : Ready m d w) (move : Move) :
    ∃ w', ReflTransGen Step w w' ∧ Ready m d w' ∧ w'.player = move.take w.player := by
  have hm : w.LeadsTo Step (move.take w.player) := by
    cases move with
    | advance =>
      exact ⟨_, .single (.loop (.advance _)), ⟨h.idle.wanted, h.idle.framing⟩, rfl⟩
    | halt => exact ⟨_, .single (.loop (.halt _)), ⟨h.idle.wanted, h.idle.framing⟩, rfl⟩
    | call len => exact h.attached.leadsTo_call h.idle len
  obtain ⟨w', hr, hi, hp⟩ := hm
  exact ⟨w', hr, h.of_run hr hi, hp⟩

/-- Moves of the program are runs of steps in which neither side cuts into a buffer of the other. -/
theorem Ready.moves (h : Ready m d w) (moves : List Move) :
    ∃ w', ReflTransGen Step w w' ∧ Ready m d w' ∧ w'.player = moves.foldl Move.take w.player := by
  induction moves generalizing w with
  | nil => exact ⟨w, .refl, h, rfl⟩
  | cons move moves ih =>
    obtain ⟨w₁, hr₁, h₁, hp₁⟩ := h.move move
    obtain ⟨w', hr, h', hp⟩ := ih h₁
    rw [hp₁] at hp
    exact ⟨w', hr₁.trans hr, h', hp⟩

/-- A buffer that was begun can be finished, and the loop does nothing meanwhile. -/
theorem run_idle (ha : Attached d w) : ∃ w', ReflTransGen Feed w w' ∧ w'.Idle ∧
    w'.player.handoff = w.player.handoff := by
  obtain ⟨hold, hc, hsource, hdevice, ho⟩ := ha.hold
  have hs : 0 < hold.sourceRate := by
    rw [hsource]
    decide
  have hd : 0 < hold.deviceRate := by
    rw [hdevice]
    exact Nat.le_max_right _ _
  cases hf : w.framing with
  | false =>
    obtain ⟨w', hr, hi, hp⟩ := leadsTo_run hf hc ⟨hs, ho hf⟩
    exact ⟨w', hr, hi, by rw [hp]⟩
  | true =>
    -- The frame being made comes first. All that it is owed is popped at once.
    let q := hold.owed / hold.deviceRate
    let made := hold.asked q w.player.output.queue
    have hm : made.owed < made.deviceRate := by
      have hq : made.owed = hold.owed % hold.deviceRate := by
        rw [Nat.mod_eq_sub_mul_div, Nat.mul_comm]
        rfl
      rw [hq]
      exact Nat.mod_lt _ hd
    have hr : ReflTransGen Feed w ((w.pulls q hold).sound made) :=
      (run_pulls hc hf (Nat.div_mul_le_self _ _)).tail (.sound rfl hf hm)
    obtain ⟨w', hr', hi, hp⟩ :=
      leadsTo_run (w := (w.pulls q hold).sound made) rfl rfl ⟨hs, hm⟩
    exact ⟨w', hr.trans hr', hi, by rw [hp]; rfl⟩

end Wire

namespace Stage

/-- How many turns the loop still needs at most, if the queue always has room. -/
def turnsLeft : Stage → Nat
  | playing => Player.tail + 2
  | draining left => left + 1
  | stopped _ => 0

theorem eq_stopped {s : Stage} (h : s.turnsLeft = 0) : ∃ fault, s = .stopped fault := by
  cases s with
  | playing => cases h
  | draining left => cases h
  | stopped fault => exact ⟨fault, rfl⟩

end Stage

namespace Player

variable {p p' p₁ : Player}

/-- The song is over, and the loop is nearer to its end than it was, or no more is queued. -/
structure Onward (p p' : Player) : Prop where
  ended : p'.stage ≠ .playing
  handoff : p'.handoff = p.handoff
  nearer : p'.stage.turnsLeft < p.stage.turnsLeft ∨
    p'.stage.turnsLeft = p.stage.turnsLeft ∧ p'.output.queue.length ≤ p.output.queue.length

namespace Onward

theorem refl (hs : p.stage ≠ .playing) : Onward p p :=
  ⟨hs, rfl, .inr ⟨rfl, Nat.le_refl _⟩⟩

theorem trans (h : Onward p p₁) (h₁ : Onward p₁ p') : Onward p p' := by
  refine ⟨h₁.ended, h₁.handoff.trans h.handoff, ?_⟩
  have hn := h.nearer
  have hn₁ := h₁.nearer
  omega

theorem turnsLeft_le (h : Onward p p') : p'.stage.turnsLeft ≤ p.stage.turnsLeft := by
  have hn := h.nearer
  omega

theorem loop (hs : p.stage ≠ .playing) (h : Loop p p') : Onward p p' := by
  cases h.goes with
  | wait => exact .refl hs
  | pass playing | leave playing => exact absurd playing hs
  | quiet draining rest =>
    refine ⟨Stage.noConfusion, rfl, ?_⟩
    rw [draining]
    simp only [quiet, Stage.turnsLeft, List.length_append, List.length_replicate]
    omega
  | stop drained =>
    rw [stop_eq]
    refine ⟨Stage.noConfusion, rfl, .inl ?_⟩
    rw [drained]
    exact Nat.one_pos

end Onward

/-- A turn that finds room brings the loop nearer to its end. -/
theorem advance_nearer (hs : p.stage ≠ .playing)
    (hq : p.output.queue.length < Output.queueCapacity) :
    p.advance.stage.turnsLeft ≤ p.stage.turnsLeft - 1 := by
  cases hd : p.stage with
  | playing => exact absurd hd hs
  | stopped fault =>
    simp only [advance, hd]
    exact Nat.le_refl _
  | draining left =>
    rcases Nat.eq_zero_or_pos left with rfl | hl
    · rw [advance_drained hd, stop_eq]
      exact Nat.zero_le _
    · have hb : 0 < blockSize := by decide
      rw [advance_draining hd hl]
      simp only [quiet, Stage.turnsLeft]
      omega

end Player

/-- The device fills a buffer that lasts as long as a sample of the song, and the loop goes on some
time after that. -/
def Move.Serves (d : Device) (round : List Move) : Prop :=
  ∃ before len between after, round = before ++ .call len :: (between ++ .advance :: after) ∧
    max d.rate 1 ≤ d.framesIn len * sampleRate

namespace Wire

variable {w w' : Wire} {hold : Hold} {d : Device} {m : Mixer}

namespace Ready

/-- The device never adds to the queue. -/
theorem queue_listen (h : Ready m d w) (n : Nat) :
    (w.player.listen n).output.queue.length ≤ w.player.output.queue.length := by
  cases hr : w.player.output.running with
  | false =>
    obtain ⟨_, hl⟩ := Player.listen_of_stopped hr n
    rw [hl]
  | true =>
    obtain ⟨hold, hf, _⟩ := h.attached.flowing h.idle hr
    have hq : (w.player.listen n).output.queue = w.player.output.queue.drop (hold.taken n) :=
      (hf.after_frames n).2
    rw [hq, List.length_drop]
    exact Nat.sub_le _ _

/-- A buffer that lasts as long as a sample leaves room in the queue. -/
theorem room_listen (h : Ready m d w) (hs : 0 < w.player.stage.turnsLeft) {n : Nat}
    (hn : max d.rate 1 ≤ n * sampleRate) :
    (w.player.listen n).output.queue.length < Output.queueCapacity := by
  have hr : w.player.output.running = true := by
    apply h.attached.live.running
    intro fault hf
    rw [hf] at hs
    cases hs
  obtain ⟨hold, hf, hsource, hdevice⟩ := h.attached.flowing h.idle hr
  have hq : (w.player.listen n).output.queue = w.player.output.queue.drop (hold.taken n) :=
    (hf.after_frames n).2
  have ht : 1 ≤ hold.taken n := by
    rw [Hold.taken, Nat.le_div_iff_mul_le hf.settled.device, hsource, hdevice]
    omega
  have hb := h.conserved.bound
  have hc : 0 < Output.queueCapacity := by decide
  rw [hq, List.length_drop]
  omega

theorem onward (h : Ready m d w) (hs : w.player.stage ≠ .playing) (move : Move) :
    w.player.Onward (move.take w.player) := by
  cases move with
  | advance => exact .loop hs (.advance _)
  | halt => exact .loop hs (.halt _)
  | call len => exact ⟨hs, rfl, .inr ⟨rfl, h.queue_listen _⟩⟩

/-- After the song, moves in any order only lead nearer to the stop. -/
theorem onwards (h : Ready m d w) (hs : w.player.stage ≠ .playing) (moves : List Move) :
    w.player.Onward (moves.foldl Move.take w.player) := by
  induction moves generalizing w with
  | nil => exact .refl hs
  | cons move moves ih =>
    have ho := h.onward hs move
    obtain ⟨w₁, _, h₁, hp⟩ := h.move move
    rw [← hp] at ho
    rw [List.foldl_cons, ← hp]
    exact ho.trans (ih h₁ ho.ended)

/-- Either the loop came nearer to its end before its turn, or the room that the device made is
still there. -/
theorem round (h : Ready m d w) (hs : w.player.stage ≠ .playing) {round : List Move}
    (hr : Move.Serves d round) :
    (round.foldl Move.take w.player).stage.turnsLeft ≤ w.player.stage.turnsLeft - 1 := by
  obtain ⟨before, len, between, after, rfl, hn⟩ := hr
  rw [List.foldl_append, List.foldl_cons, List.foldl_append, List.foldl_cons]
  obtain ⟨w₁, _, h₁, hp₁⟩ := h.moves before
  obtain ⟨w₂, _, h₂, hp₂⟩ := h₁.move (.call len)
  obtain ⟨w₃, _, h₃, hp₃⟩ := h₂.moves between
  obtain ⟨w₄, _, h₄, hp₄⟩ := h₃.move .advance
  have ho₁ := h.onwards hs before
  rw [← hp₁] at ho₁ ⊢
  have ho₂ := h₁.onward ho₁.ended (.call len)
  have hroom : 0 < w₁.player.stage.turnsLeft →
      w₂.player.output.queue.length < Output.queueCapacity := by
    intro hl
    rw [hp₂]
    apply h₁.room_listen hl
    rw [h₁.attached.device]
    exact hn
  rw [← hp₂] at ho₂ ⊢
  have ho₃ := h₂.onwards ho₂.ended between
  rw [← hp₃] at ho₃ ⊢
  have ho₄ := h₃.onward ho₃.ended .advance
  have hnear : w₃.player.output.queue.length < Output.queueCapacity →
      w₄.player.stage.turnsLeft ≤ w₃.player.stage.turnsLeft - 1 := by
    rw [hp₄]
    exact Player.advance_nearer ho₃.ended
  rw [← hp₄] at ho₄ ⊢
  have h1 := ho₁.turnsLeft_le
  have h2 := ho₂.turnsLeft_le
  have h3 := ho₃.nearer
  have h4 := ho₄.turnsLeft_le
  have h5 := (h₄.onwards ho₄.ended after).turnsLeft_le
  omega

/-- Each round takes a turn off. -/
theorem rounds (h : Ready m d w) (hs : w.player.stage ≠ .playing) {rounds : List (List Move)}
    (hr : ∀ round ∈ rounds, Move.Serves d round) :
    (rounds.flatten.foldl Move.take w.player).stage.turnsLeft ≤
      w.player.stage.turnsLeft - rounds.length := by
  induction rounds generalizing w with
  | nil => exact Nat.le_refl _
  | cons round rounds ih =>
    obtain ⟨hround, hrounds⟩ := List.forall_mem_cons.mp hr
    obtain ⟨w₁, _, h₁, hp⟩ := h.moves round
    have hn := h.round hs hround
    have ho := (h.onwards hs round).ended
    rw [← hp] at hn ho
    have hl := ih h₁ ho hrounds
    rw [List.flatten_cons, List.foldl_append, ← hp, List.length_cons]
    omega

/-- Once it is halted, the loop stops after so many rounds as there are samples of silence, and one
more. -/
theorem stops (h : Ready m d w) {rounds : List (List Move)}
    (hr : ∀ round ∈ rounds, Move.Serves d round) (hn : Player.tail + 1 ≤ rounds.length) :
    let p := rounds.flatten.foldl Move.take w.player.halt
    (∃ fault, p.stage = .stopped fault) ∧ p.handoff = w.player.handoff := by
  intro p
  obtain ⟨w₁, _, h₁, hp⟩ := h.move .halt
  have hs : w₁.player.stage ≠ .playing ∧ w₁.player.handoff = w.player.handoff := by
    rw [hp]
    exact w.player.halt_over
  have hle : w₁.player.stage.turnsLeft ≤ Player.tail + 1 := by
    cases hd : w₁.player.stage with
    | playing => exact absurd hd hs.1
    | draining left => exact Nat.succ_le_succ (h₁.conserved.left hd)
    | stopped fault => exact Nat.zero_le _
  have hl := h₁.rounds hs.1 hr
  have ho := h₁.onwards hs.1 rounds.flatten
  rw [hp] at hl ho
  refine ⟨Stage.eq_stopped ?_, ho.handoff.trans (hp ▸ hs.2)⟩
  rw [hp] at hle
  exact Nat.le_zero.mp (Nat.le_trans hl (by omega))

end Ready

/-- The loop can be brought to its end from everywhere: it is halted, and the device goes on. -/
theorem run_end (hc : Conserved m w) (ha : Attached d w) (hch : 0 < d.channels) :
    ∃ w', ReflTransGen Step w w' ∧ (∃ fault, w'.player.stage = .stopped fault) ∧
      w'.player.handoff = w.player.handoff := by
  obtain ⟨w₁, hf₁, hi₁, hh₁⟩ := run_idle ha
  have hr₁ := run_of_feed hf₁
  have h₁ : Ready m d w₁ :=
    ⟨keeps (Conserved m) Conserved.step hc hr₁, keeps (Attached d) Attached.step ha hr₁, hi₁⟩
  let round : List Move := [.call (max d.rate 1 * d.channels), .advance]
  have hserves : Move.Serves d round := by
    refine ⟨[], _, [], [], rfl, ?_⟩
    rw [Device.framesIn_mul hch]
    exact Nat.le_mul_of_pos_right _ (by decide)
  let rounds := List.replicate (Player.tail + 1) round
  have hall : ∀ r ∈ rounds, Move.Serves d r := by
    intro r hm
    rw [List.eq_of_mem_replicate hm]
    exact hserves
  obtain ⟨hs, hh⟩ := h₁.stops hall (Nat.le_of_eq List.length_replicate.symm)
  obtain ⟨w', hr', _, hp⟩ := h₁.moves (.halt :: rounds.flatten)
  rw [List.foldl_cons] at hp
  refine ⟨w', hr₁.trans hr', ?_, ?_⟩
  · rw [hp]
    exact hs
  · rw [hp]
    exact hh.trans hh₁

/-- The queue is shorter than the silence, so nothing but silence can be in it at the end. -/
theorem Conserved.popped_of_quieted (h : Conserved m w)
    (ho : w.player.stage.quieted = Player.tail) :
    w.popped = w.player.handoff.emitted.toList ++
        List.replicate (Player.tail - w.player.output.queue.length) silence ∧
      w.player.output.queue = List.replicate w.player.output.queue.length silence := by
  have hb := h.bound
  have ht : Output.queueCapacity ≤ Player.tail := by decide
  have hs : w.popped ++ w.player.output.queue =
      (w.player.handoff.emitted.toList ++
        List.replicate (Player.tail - w.player.output.queue.length) silence) ++
      List.replicate w.player.output.queue.length silence := by
    rw [← h.flow, h.sent, ho, List.append_assoc, List.replicate_append_replicate]
    congr 2
    omega
  exact List.append_inj' hs List.length_replicate.symm

/-- The silence behind the song adds nothing to what is heard. -/
theorem Conserved.audible_pushed (h : Conserved m w) :
    audible w.pushed = audible w.player.handoff.emitted.toList := by
  rw [h.sent, audible_append, audible_silence, List.append_nil]

/-- Nothing is heard that was not emitted, and nothing in another order. -/
theorem Repeats.played_le {k due : Nat} (h : Repeats k w hold due) (hc : Conserved m w) :
    audible w.player.played.toList <+:
      (audible w.player.handoff.emitted.toList).flatMap (List.replicate k) := by
  rw [← hc.audible_pushed, ← audible_repeat, hc.flow, List.flatMap_append, audible_append,
    ← h.heard, audible_append, List.append_assoc]
  exact List.prefix_append _ _

/-- Silence was popped last, so no frame of the song is due any more. -/
theorem Repeats.played_eq {k due : Nat} (h : Repeats k w hold due) (hc : Conserved m w)
    (ho : w.player.stage.quieted = Player.tail) :
    audible w.player.played.toList =
      (audible w.player.handoff.emitted.toList).flatMap (List.replicate k) := by
  obtain ⟨hp, _⟩ := hc.popped_of_quieted ho
  have hb := hc.bound
  have ht : Output.queueCapacity < Player.tail := by decide
  have hz : hold.current = silence := by
    rcases h.held with hs | hs
    · exact hs
    · have hl : Player.tail - w.player.output.queue.length ≠ 0 := by omega
      rw [hp] at hs
      simpa [List.getLast?_append, List.getLast?_replicate, hl] using hs.symm
  have hh := h.heard
  rw [hz, audible_append, audible_silence, List.append_nil, hp, audible_repeat, audible_append,
    audible_silence, List.append_nil] at hh
  exact hh

theorem run_repeats {k : Nat} {o : Output} (ho : Output.Opened d o) (hk : 1 ≤ k)
    (hd : d.rate = k * sampleRate) (hr : ReflTransGen Step (start m o) w) :
    ∃ hold due, Repeats k w hold due :=
  keeps (fun w => ∃ hold due, Repeats k w hold due)
    (fun ⟨_, _, h⟩ hs => h.step hs) ⟨_, _, Repeats.start ho hk hd⟩ hr

/-- Wherever pushes and pops are put between each other, the device pops what the loop pushes, in
order, and nothing else. When the loop has queued its silence, a second of it stands behind the
song, and the device has popped all of the song, so that nothing of it is lost when the output is
stopped. A turn pushes one sample of the song, or as much of the silence as a block holds and the
queue has room for. So the loop stops once it was halted, whatever moves were made before, if only
the device goes on. A buffer that the loop does not cut into is filled as the program fills it. On
a device that is a whole number of times as fast as the song, the frames that are not zero are
those of the song, each repeated so often, even if the device finds the queue empty now and then. -/
theorem song_is_delivered {m : Mixer} {d : Device} {o : Output} (ho : Output.Opened d o) :
    (∀ moves : List Move, ∃ w, ReflTransGen Step (start m o) w ∧
      w.player = moves.foldl Move.take (Player.start m o)) ∧
    (∀ p : Player, p.stage = .playing →
      let next := (p.handoff.pass Mixer.next 0).2
      (2205 ≤ p.output.queue.length → p.advance = p) ∧
      (p.output.queue.length < 2205 → p.advance = { p with
        handoff := next
        output := { p.output with queue := p.output.queue ++ [p.handoff.slot.held] }
        stage := if next.source.finished then .draining 22050 else .playing })) ∧
    (∀ (p : Player) (left : Nat), p.stage = .draining left →
      let n := min left (min 256 (2205 - p.output.queue.length))
      (0 < left → p.advance = { p with
        output := { p.output with queue := p.output.queue ++ List.replicate n silence }
        stage := .draining (left - n) }) ∧
      (left = 0 → ∃ fault, p.advance = { p with
        output := { p.output with running := false }
        stage := .stopped fault })) ∧
    (∀ (moves : List Move) (rounds : List (List Move)),
      (∀ round ∈ rounds, Move.Serves d round) → 22051 ≤ rounds.length →
      let before := moves.foldl Move.take (Player.start m o)
      let p := rounds.flatten.foldl Move.take before.halt
      let emitted := before.handoff.emitted.toList
      (∃ fault, p.stage = .stopped fault) ∧
      ∃ w, ReflTransGen Step (start m o) w ∧ w.player = p ∧
        w.pushed = emitted ++ List.replicate 22050 silence ∧ emitted <+: w.popped) ∧
    ∀ w, ReflTransGen Step (start m o) w →
      let emitted := w.player.handoff.emitted.toList
      let output := w.player.output
      let drained := w.player.stage = .draining 0
      let stopped := ∃ fault, w.player.stage = .stopped fault
      emitted = (draw Mixer.next emitted.length m).1.toList ∧
      w.popped <+: w.pushed ∧ w.pushed = w.popped ++ output.queue ∧ output.queue.length ≤ 2205 ∧
      w.pushed = emitted ++ List.replicate w.player.stage.quieted silence ∧
      (drained ∨ stopped → w.pushed = emitted ++ List.replicate 22050 silence ∧
        emitted <+: w.popped ∧ ∀ x ∈ output.queue, x = silence) ∧
      (w.wanted = 0 → output.running = true → ∀ n w',
        ReflTransGen Feed { w with wanted := n } w' → w'.wanted = 0 →
          w'.player = w.player.listen n) ∧
      (0 < d.channels →
        (∃ w', ReflTransGen Step w w' ∧ (∃ fault, w'.player.stage = .stopped fault) ∧
          w'.player.handoff = w.player.handoff) ∧
        ∀ len, output.fill len =
          (.entries (((output.frames (output.device.framesIn len)).1.toList.flatMap
            (List.replicate d.channels)).take len), (output.frames (output.device.framesIn len)).2)) ∧
      ∀ k, 1 ≤ k → d.rate = k * sampleRate →
        let sounds := (w.player.played.toList.map amplitude).filter (fun x => x != 0)
        let song :=
          ((emitted.filter (fun s => s != silence)).flatMap (List.replicate k)).map amplitude
        sounds <+: song ∧ (drained ∨ stopped → sounds = song) := by
  refine ⟨?_, ?_, ?_, ?_, ?_⟩
  · intro moves
    obtain ⟨w, hr, _, hp⟩ := (Ready.start ho).moves moves
    exact ⟨w, hr, hp⟩
  · intro p hs next
    refine ⟨Player.advance_full hs, ?_⟩
    intro hq
    exact (Player.advance_playing hs hq).trans (Player.pass_eq hs hq)
  · intro p left hs n
    refine ⟨Player.advance_draining hs, ?_⟩
    rintro rfl
    exact ⟨_, (Player.advance_drained hs).trans p.stop_eq⟩
  · intro moves rounds hserve hn before p emitted
    obtain ⟨w₁, hr₁, h₁, hp₁⟩ := (Ready.start (m := m) ho).moves moves
    obtain ⟨w, hr, h, hp⟩ := h₁.moves (.halt :: rounds.flatten)
    obtain ⟨hs, hh⟩ := h₁.stops hserve hn
    have hb : w₁.player = before := hp₁
    rw [List.foldl_cons, hb] at hp
    rw [hb] at hs hh
    have hq : w.player.stage.quieted = Player.tail := by
      obtain ⟨fault, hf⟩ := hs
      rw [hp]
      exact congrArg Stage.quieted hf
    have he : w.player.handoff.emitted.toList = emitted := by
      rw [hp]
      exact congrArg (fun h => h.emitted.toList) hh
    have hsent := h.conserved.sent
    have hpopped := (h.conserved.popped_of_quieted hq).1
    rw [hq, he] at hsent
    rw [he] at hpopped
    exact ⟨hs, w, hr₁.trans hr, hp, hsent, ⟨_, hpopped.symm⟩⟩
  · intro w hr emitted output drained stopped
    have hc : Conserved m w := keeps (Conserved m) Conserved.step (.start ho) hr
    have ha : Attached d w := keeps (Attached d) Attached.step (.start ho) hr
    have hquiet : drained ∨ stopped → w.player.stage.quieted = Player.tail := by
      rintro (hs | ⟨fault, hs⟩)
      · exact congrArg Stage.quieted hs
      · exact congrArg Stage.quieted hs
    obtain ⟨n, hn⟩ := hc.song
    obtain ⟨hold, hh, _⟩ := ha.hold
    refine ⟨?_, ⟨_, hc.flow.symm⟩, hc.flow, hc.bound, hc.sent, ?_, ?_, ?_, ?_⟩
    · have he : emitted = (draw Mixer.next n m).1.toList := by
        simp only [emitted, hn, Handoff.inStep]
      rw [he, length_toList_draw]
    · intro hover
      obtain ⟨hp, hq⟩ := hc.popped_of_quieted (hquiet hover)
      refine ⟨?_, ⟨_, hp.symm⟩, ?_⟩
      · rw [hc.sent, hquiet hover]
        rfl
      · intro x hx
        rw [hq] at hx
        exact List.eq_of_mem_replicate hx
    · intro hw hrun n w' hfeed hz
      exact ha.listen_of_feed ⟨hw, ha.idle hw⟩ hrun hfeed hz
    · intro hch
      refine ⟨run_end hc ha hch, ?_⟩
      intro len
      rw [← ha.device] at hch ⊢
      exact Output.fill_eq hh hch len
    · intro k hk hd sounds song
      obtain ⟨hold, due, hrep⟩ := run_repeats ho hk hd hr
      have hs : sounds = (audible w.player.played.toList).map amplitude := filter_amplitude _
      rw [hs]
      refine ⟨(hrep.played_le hc).map _, ?_⟩
      intro hover
      exact congrArg _ (hrep.played_eq hc (hquiet hover))

/-- A note and a rest, on two channels at twice the rate. The device finds the queue empty after the
first sample. -/
theorem song_is_delivered_twice_as_fast :
    let d : Device := { name := "speaker", rate := 2 * sampleRate, channels := 2 }
    let o : Output :=
      { device := d, running := true, callback := some (Hold.start sampleRate (2 * sampleRate))
        streaming := true }
    let song : Song :=
      { samplesPerTick := 2
        tracks := [{ data := [60, 1, 129], generator := .triangle, looping := false }] }
    let m := Mixer.assembled Mixer.playerCapacity .standard song
    let samples : List UInt8 := [0, 24, silence, silence]
    Output.Opened d o ∧ ∃ w, ReflTransGen Step (start m o) w ∧
      (∃ fault, w.player.stage = .stopped fault) ∧
      w.pushed = samples ++ List.replicate 22050 silence ∧ samples <+: w.popped ∧
      (w.player.played.toList.map amplitude).filter (fun x => x != 0) =
        [0, 0, 24, 24].map amplitude := by
  intro d o song m samples
  have ho : Output.Opened d o := ⟨_, _, rfl, rfl, rfl⟩
  let moves : List Move := [.advance, .call 7, .call 6, .advance, .advance, .call 3, .advance]
  let round : List Move := [.call 4, .advance]
  have hserves : Move.Serves d round := ⟨[], 4, [], [], rfl, by decide⟩
  have he : (moves.foldl Move.take (Player.start m o)).handoff.emitted.toList = samples := by
    unfold moves samples m song o d
    decide +kernel
  obtain ⟨_, _, _, hends, hall⟩ := song_is_delivered (m := m) ho
  obtain ⟨hstop, w, hr, hp, hpushed, hpopped⟩ := hends moves (List.replicate 22051 round)
    (fun _ hm => List.eq_of_mem_replicate hm ▸ hserves) (by rw [List.length_replicate])
  rw [he] at hpushed hpopped
  rw [← hp] at hstop
  obtain ⟨_, _, _, _, hsent, _, _, _, hk⟩ := hall w hr
  have hsound := (hk 2 (by decide) rfl).2 (.inr hstop)
  have hemitted : w.player.handoff.emitted.toList = samples := by
    obtain ⟨fault, hf⟩ := hstop
    rw [hf, hpushed] at hsent
    exact (List.append_cancel_right hsent).symm
  rw [hemitted] at hsound
  exact ⟨ho, w, hr, hstop, hpushed, hpopped, hsound⟩

end Wire

end Polysynth
