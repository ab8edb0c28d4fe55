import Polysynth.Output

namespace Polysynth

namespace Hold

def taken (n : Nat) (h : Hold) : Nat := (h.owed + n * h.sourceRate) / h.deviceRate

/-- The device is owed less than a source sample, as it is between frames. -/
structure Settled (h : Hold) : Prop where
  source : 0 < h.sourceRate
  owed : h.owed < h.deviceRate

/-- A hold in the middle of a frame, after `q` more samples were asked for. -/
def asked (q : Nat) (source : List UInt8) (h : Hold) : Hold :=
  { h with
    owed := h.owed - q * h.deviceRate
    current := if q = 0 then h.current else (source[q - 1]?).getD silence }

variable {h : Hold}

theorem asked_zero (source : List UInt8) (h : Hold) : asked 0 source h = h := by
  simp [asked]

theorem asked_succ (q : Nat) (source : List UInt8) (h : Hold) :
    asked (q + 1) source h = asked q source.tail (h.ask source) := by
  have ho : h.owed - (q + 1) * h.deviceRate = h.owed - h.deviceRate - q * h.deviceRate := by
    rw [Nat.add_mul, Nat.one_mul, Nat.add_comm, Nat.sub_add_eq]
  cases q with
  | zero => simp [asked, ask, List.head?_eq_getElem?]
  | succ q => simp [asked, ask, ho]

/-- Of all the samples asked for, the hold keeps the last. -/
theorem asks_eq (q : Nat) (source : List UInt8) (h : Hold) :
    asks q source h = (asked q source h, source.drop q) := by
  induction q generalizing source h with
  | zero => rw [asked_zero]; rfl
  | succ q ih => rw [asks, ih, asked_succ, List.drop_tail]

/-- A frame takes all the samples that are due and plays the last of them. -/
theorem frame_eq (source : List UInt8) (h : Hold) :
    h.frame source =
      ((asked h.due source h.owe).current, asked h.due source h.owe, source.drop h.due) := by
  rw [frame, asks_eq]

/-- A frame leaves the remainder of what was owed. -/
theorem owed_frame (source : List UInt8) (h : Hold) :
    (h.frame source).2.1.owed = (h.owed + h.sourceRate) % h.deviceRate := by
  rw [frame_eq, Nat.mod_eq_sub_mul_div, Nat.mul_comm]
  rfl

theorem rates_frame (source : List UInt8) (h : Hold) :
    (h.frame source).2.1.sourceRate = h.sourceRate ∧
      (h.frame source).2.1.deviceRate = h.deviceRate := by
  rw [frame_eq]
  exact ⟨rfl, rfl⟩

/-- A fresh hold owes the device less than a sample, whatever the rates. -/
theorem settled_start {source : Nat} (hs : 0 < source) (device : Nat) :
    (Hold.start source device).Settled := by
  refine ⟨hs, ?_⟩
  have hd : 1 ≤ max device 1 := Nat.le_max_right device 1
  change max device 1 - source < max device 1
  omega

theorem Settled.device (hs : h.Settled) : 0 < h.deviceRate :=
  Nat.lt_of_le_of_lt (Nat.zero_le _) hs.owed

theorem Settled.frame (hs : h.Settled) (source : List UInt8) : (h.frame source).2.1.Settled := by
  obtain ⟨hsource, hdevice⟩ := h.rates_frame source
  constructor
  · rw [hsource]
    exact hs.source
  · rw [hdevice, owed_frame]
    exact Nat.mod_lt _ hs.device

theorem Settled.taken_zero (hs : h.Settled) : h.taken 0 = 0 := by
  rw [taken, Nat.zero_mul, Nat.add_zero]
  exact Nat.div_eq_of_lt hs.owed

/-- One frame takes its samples, and the frames after it go on from the time that is left over. -/
theorem Settled.taken_succ (hs : h.Settled) (n : Nat) (source : List UInt8) :
    h.taken (n + 1) = h.due + (h.frame source).2.1.taken n := by
  have hsum : h.owed + (n + 1) * h.sourceRate =
      h.deviceRate * ((h.owed + h.sourceRate) / h.deviceRate) +
        ((h.owed + h.sourceRate) % h.deviceRate + n * h.sourceRate) := by
    have hd := Nat.div_add_mod (h.owed + h.sourceRate) h.deviceRate
    rw [Nat.add_mul]
    omega
  rw [taken, hsum, Nat.mul_add_div hs.device, taken, owed_frame, frame_eq]
  rfl

def Run.next (r : Run) : Run where
  frames := r.frames.push (r.hold.frame r.source).1
  pulls := r.pulls + r.hold.due
  hold := (r.hold.frame r.source).2.1
  source := (r.hold.frame r.source).2.2

theorem extend_succ (n : Nat) (r : Run) : extend (n + 1) r = extend n r.next := rfl

/-- Any number of frames take the samples that their time is worth. -/
theorem extend_source (n : Nat) {r : Run} (hs : r.hold.Settled) :
    (extend n r).source = r.source.drop (r.hold.taken n) ∧ (extend n r).hold.Settled := by
  induction n generalizing r with
  | zero =>
    rw [hs.taken_zero]
    exact ⟨rfl, hs⟩
  | succ n ih =>
    obtain ⟨hd, hn⟩ := ih (r := r.next) (hs.frame r.source)
    refine ⟨?_, hn⟩
    rw [extend_succ, hs.taken_succ n r.source, hd, Run.next, frame_eq]
    exact List.drop_drop

/-- So many frames as are played for `n` samples do take them. -/
theorem Settled.le_taken_framesFor (hs : h.Settled) (n : Nat) : n ≤ h.taken (h.framesFor n) := by
  have hc := Nat.div_add_mod (n * h.deviceRate - h.owed + h.sourceRate - 1) h.sourceRate
  have hm := Nat.mod_lt (n * h.deviceRate - h.owed + h.sourceRate - 1) hs.source
  have hp := hs.source
  rw [taken, framesFor, Nat.le_div_iff_mul_le hs.device, Nat.mul_comm _ h.sourceRate]
  omega

structure Direct (h : Hold) : Prop where
  rates : h.deviceRate = h.sourceRate
  owed : h.owed = 0

theorem Direct.framesFor_one (hd : h.Direct) (hs : h.Settled) : h.framesFor 1 = 1 := by
  have hp := hs.source
  rw [framesFor, hd.rates, hd.owed, Nat.one_mul, Nat.sub_zero]
  exact Nat.div_eq_of_lt_le (by omega) (by omega)

/-- One frame plays one sample as it is. -/
theorem Direct.run_one (hd : h.Direct) (hs : h.Settled) (x : UInt8) :
    (h.run 1 [x]).frames = #[x] ∧ (h.run 1 [x]).source = [] ∧ (h.run 1 [x]).hold.Direct := by
  have hdue : h.due = 1 := by
    rw [due, hd.rates, hd.owed, Nat.zero_add, Nat.div_self hs.source]
  have hf : h.frame [x] = (x, { h with owed := 0, current := x }, []) := by
    simp [frame_eq, hdue, asked, owe, hd.rates, hd.owed]
  have hr : h.run 1 [x] = Run.next { frames := #[], pulls := 0, hold := h, source := [x] } := rfl
  rw [hr]
  rw [Run.next, hf]
  exact ⟨rfl, rfl, hd.rates, rfl⟩

end Hold

namespace Output

theorem write_of_room {samples : List UInt8} {o : Output}
    (h : o.queue.length + samples.length ≤ queueCapacity) :
    o.write samples = (samples.length, { o with queue := o.queue ++ samples }) := by
  have ht : samples.take (queueCapacity - o.queue.length) = samples :=
    List.take_of_length_le (by omega)
  simp [write, ht]

structure Flowing (o : Output) (hold : Hold) : Prop where
  running : o.running = true
  callback : o.callback = some hold
  settled : hold.Settled

variable {o : Output} {hold : Hold}

theorem Flowing.frames (hf : o.Flowing hold) (n : Nat) :
    o.frames n =
      ((hold.run n o.queue).frames,
        { o with queue := (hold.run n o.queue).source, callback := some (hold.run n o.queue).hold }) := by
  simp [Output.frames, hf.callback, hf.running]

/-- The device takes from the front of the queue, and can go on from there. -/
theorem Flowing.after_frames (hf : o.Flowing hold) (n : Nat) :
    (o.frames n).2.Flowing (hold.run n o.queue).hold ∧
      (o.frames n).2.queue = o.queue.drop (hold.taken n) := by
  obtain ⟨hd, hs⟩ := Hold.extend_source n
    (r := { frames := #[], pulls := 0, hold := hold, source := o.queue }) hf.settled
  rw [hf.frames]
  exact ⟨⟨hf.running, rfl, hs⟩, hd⟩

/-- An output on a device that was opened, given its callback and started, as playback does it. -/
def Opened (d : Device) (o : Output) : Prop :=
  ∃ found built, ofDevice (some d) = .ok found ∧ found.build = (.ok (), built) ∧
    built.start = (.ok (), o)

/-- There is only one output that opening, building and starting a device can give. -/
theorem Opened.eq {d : Device} (ho : Opened d o) :
    o = { device := d, running := true, callback := some (Hold.start sampleRate d.rate)
          streaming := true } := by
  obtain ⟨found, built, hf, hb, hs⟩ := ho
  unfold ofDevice at hf
  split at hf
  · cases hf
  · rename_i e he
    cases he
    split at hf
    · cases hf
    · cases hf
      unfold build at hb
      split at hb
      · cases hb
      · dsimp only at hb
        split at hb
        · cases hb
        · cases hb
          exact (Prod.mk.inj hs).2.symm

theorem Opened.flowing {d : Device} (ho : Opened d o) :
    o.Flowing (Hold.start sampleRate d.rate) ∧ o.queue = [] ∧ o.device = d := by
  rw [ho.eq]
  exact ⟨⟨rfl, rfl, Hold.settled_start (by decide) d.rate⟩, rfl, rfl⟩

end Output

end Polysynth
