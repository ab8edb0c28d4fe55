import Polysynth.Proofs.RateConversion
import Polysynth.Proofs.Wire

namespace Polysynth

namespace Hold

variable {h h' : Hold} {source source' : List UInt8}

/-- Some frames, made by the loop one after the other. The lists are what the source answered, and
the samples that were played. -/
inductive Fills : Nat → Hold → List UInt8 → List (Option UInt8) → List UInt8 → Hold →
    List UInt8 → Prop where
  | nil {h : Hold} {source : List UInt8} : Fills 0 h source [] [] h source
  | frame {n : Nat} {h mid h' : Hold} {source between source' : List UInt8}
      {found more : List (Option UInt8)} {frames : List UInt8}
      (loop : Settles h.owe source found mid between)
      (after : Fills n mid between more frames h' source') :
      Fills (n + 1) h source (found ++ more) (mid.current :: frames) h' source'

theorem answers_add (p q : Nat) (source : List UInt8) :
    answers (p + q) source = answers p source ++ answers q (source.drop p) := by
  simp [answers, List.range_add]

/-- The samples among the answers are the first of the source. -/
theorem filterMap_answers (q : Nat) (source : List UInt8) :
    (answers q source).filterMap id = source.take q := by
  induction q generalizing source with
  | zero => simp [answers]
  | succ q ih =>
    rw [answers_succ]
    cases source with
    | nil => simpa using ih []
    | cons x source => simpa using ih source

theorem extend_add (m n : Nat) (r : Run) : extend (m + n) r = extend n (extend m r) := by
  induction m generalizing r with
  | zero => rw [Nat.zero_add]; rfl
  | succ m ih => rw [Nat.add_right_comm, extend_succ, extend_succ, ih]

/-- A run goes on from the hold and the source it has come to, and only adds to its frames. -/
theorem extend_eq_run (n : Nat) (r : Run) :
    (extend n r).frames.toList = r.frames.toList ++ (r.hold.run n r.source).frames.toList ∧
      (extend n r).hold = (r.hold.run n r.source).hold ∧
      (extend n r).source = (r.hold.run n r.source).source := by
  induction n generalizing r with
  | zero => simp [extend, run]
  | succ n ih =>
    obtain ⟨hf, hh, hs⟩ := ih r.next
    obtain ⟨hf', hh', hs'⟩ := ih (Run.next ⟨#[], 0, r.hold, r.source⟩)
    rw [run, extend_succ, extend_succ, hf, hf', hh, hh', hs, hs']
    refine ⟨?_, rfl, rfl⟩
    simp [Run.next]

theorem run_add (m n : Nat) (h : Hold) (source : List UInt8) :
    let first := h.run m source
    let second := first.hold.run n first.source
    (h.run (m + n) source).frames.toList = first.frames.toList ++ second.frames.toList ∧
      (h.run (m + n) source).hold = second.hold ∧
      (h.run (m + n) source).source = second.source := by
  intro first second
  have he : h.run (m + n) source = extend n first := extend_add m n _
  rw [he]
  exact extend_eq_run n first

theorem size_frames_extend (n : Nat) (r : Run) : (extend n r).frames.size = r.frames.size + n := by
  induction n generalizing r with
  | zero => rfl
  | succ n ih =>
    rw [extend_succ, ih]
    simp only [Run.next, Array.size_push]
    omega

theorem length_frames_run (n : Nat) (h : Hold) (source : List UInt8) :
    (h.run n source).frames.toList.length = n := by
  rw [Array.length_toList, run, size_frames_extend]
  exact Nat.zero_add n

theorem Reached.run {s d : Nat} (hr : Reached s d h) (n : Nat) (source : List UInt8) :
    Reached s d (h.run n source).hold := by
  induction n generalizing h source with
  | zero => exact hr
  | succ n ih =>
    have hh := (run_add 1 n h source).2.1
    rw [Nat.add_comm] at hh
    rw [hh]
    exact ih (hr.frame source) (h.frame source).2.2

/-- The frames of a run are made by the loop. -/
theorem Settled.fills_run (hs : h.Settled) (n : Nat) (source : List UInt8) :
    Fills n h source (answers (h.taken n) source) (h.run n source).frames.toList
      (h.run n source).hold (h.run n source).source := by
  induction n generalizing h source with
  | zero =>
    rw [hs.taken_zero]
    exact .nil
  | succ n ih =>
    obtain ⟨hf, hh, hsrc⟩ := run_add 1 n h source
    have ho : (h.run 1 source).frames.toList = [(h.frame source).1] := rfl
    have hm := ih (hs.frame source) (h.frame source).2.2
    have hl := (hs.settles_iff source).mpr ⟨rfl, rfl, rfl⟩
    have hd : (h.frame source).2.2 = source.drop h.due := by rw [frame_eq]
    rw [Nat.add_comm] at hf hh hsrc
    rw [hs.taken_succ n source, answers_add, hf, hh, hsrc, ho, ← hd]
    exact .frame hl hm

end Hold

namespace Output

inductive Action where
  | build
  | start
  | stop
  | write (samples : List UInt8)
  /-- One sample, which waits for room. -/
  | put (sample : UInt8)
  /-- From now on the device answers calls in another way. -/
  | answer (refusal : Device.Call → Option String)
  /-- The device calls for a buffer of so many entries. -/
  | call (len : Nat)

namespace Action

/-- Whether the output runs from now on, if the action has a say in that. -/
def switch? : Action → Option Bool
  | start => some true
  | stop => some false
  | _ => none

def frames (channels : Nat) : Action → Nat
  | call len => (len + channels - 1) / channels
  | _ => 0

def Writeless : Action → Prop
  | start | stop | answer _ | call _ => True
  | build | write _ | put _ => False

end Action

def runs (before : Bool) (as : List Action) : Bool :=
  (as.filterMap Action.switch?).getLast?.getD before

def framesPlayed (channels : Nat) (running : Bool) : List Action → Nat
  | [] => 0
  | a :: as =>
    (if running then a.frames channels else 0) +
      framesPlayed channels (a.switch?.getD running) as

def drawn (len : Nat) (o : Output) : List UInt8 × List UInt8 :=
  match o.callback with
  | none => ([], [])
  | some hold =>
    if o.running then
      (o.queue.take (hold.taken (o.device.framesIn len)),
        (hold.run (o.device.framesIn len) o.queue).frames.toList)
    else ([], [])

structure Ledger where
  output : Output
  accepted : List UInt8 := []
  popped : List UInt8 := []
  /-- The frames that were played while the output ran. -/
  heard : List UInt8 := []

namespace Ledger

def after (l : Ledger) : Action → Ledger
  | .build => { l with output := l.output.build.2 }
  | .start => { l with output := l.output.start.2 }
  | .stop => { l with output := l.output.stop.2 }
  | .write samples =>
    { l with
      output := (l.output.write samples).2
      accepted := l.accepted ++ samples.take (l.output.write samples).1 }
  | .put sample =>
    { l with output := (l.output.write [sample]).2, accepted := l.accepted ++ [sample] }
  | .answer refusal =>
    { l with output := { l.output with device := { l.output.device with refusal := refusal } } }
  | .call len =>
    { l with
      output := (l.output.fill len).2
      popped := l.popped ++ (l.output.drawn len).1
      heard := l.heard ++ (l.output.drawn len).2 }

def run (l : Ledger) (as : List Action) : Ledger := as.foldl after l

end Ledger

/-- The device gets its callback once, when it accepts it and plays, and a sample that waits for
room is queued when there is some. -/
def Allowed (as : List Action) (l : Ledger) : Action → Prop
  | .build =>
    .build ∉ as ∧ l.output.device.refusal .build = none ∧ l.output.device.refusal .play = none
  | .put _ => l.output.queue.length < queueCapacity
  | _ => True

inductive Trace (d : Device) : List Action → Ledger → Prop where
  | opened {o : Output} (found : ofDevice (some d) = .ok o) : Trace d [] { output := o }
  | act {as : List Action} {l : Ledger} {a : Action} (before : Trace d as l)
      (allowed : Allowed as l a) : Trace d (as ++ [a]) (l.after a)

variable {d : Device} {as bs : List Action} {a : Action} {l : Ledger} {hold : Hold}

theorem runs_cons (r : Bool) (a : Action) (as : List Action) :
    runs r (a :: as) = runs (a.switch?.getD r) as := by
  unfold runs
  cases hs : a.switch? with
  | none => rw [List.filterMap_cons_none hs]; rfl
  | some b =>
    rw [List.filterMap_cons_some hs, List.getLast?_cons]
    rfl

theorem runs_append (r : Bool) (as bs : List Action) :
    runs r (as ++ bs) = runs (runs r as) bs := by
  induction as generalizing r with
  | nil => rfl
  | cons a as ih => rw [List.cons_append, runs_cons, runs_cons, ih]

theorem runs_concat (r : Bool) (as : List Action) (a : Action) :
    runs r (as ++ [a]) = a.switch?.getD (runs r as) := by
  rw [runs_append, runs_cons]
  rfl

theorem Action.Writeless.allowed (hw : a.Writeless) : Allowed as l a := by
  cases a with
  | build | write samples | put sample => cases hw
  | start | stop | answer refusal | call len => trivial

structure Accounted (d : Device) (as : List Action) (l : Ledger) : Prop where
  channels : l.output.device.channels = d.channels
  rate : l.output.device.rate = d.rate
  flow : l.accepted = l.popped ++ l.output.queue
  bound : l.output.queue.length ≤ queueCapacity
  running : l.output.running = runs false as
  built : l.output.callback = none ↔ .build ∉ as
  hold : ∀ hold, l.output.callback = some hold → hold.Reached sampleRate d.rate

section Fill

variable {o : Output}

theorem fill_without_callback (hh : o.callback = none) (len : Nat) :
    o.fill len = (.untouched, o) := by
  simp [fill, hh]

/-- A stopped output plays silence and keeps its queue. -/
theorem fill_stopped (hh : o.callback = some hold) (hr : o.running = false) (len : Nat) :
    o.fill len = (.entries (List.replicate len silence), o) := by
  simp [fill, hh, hr]

def buffer (channels len : Nat) (frames : List UInt8) : List UInt8 :=
  (frames.flatMap (List.replicate channels)).take len

theorem fill_running (hc : 1 ≤ o.device.channels) (hh : o.callback = some hold)
    (hr : o.running = true) (len : Nat) :
    let r := hold.run (o.device.framesIn len) o.queue
    o.fill len = (.entries (buffer o.device.channels len r.frames.toList),
      { o with queue := r.source, callback := some r.hold }) := by
  rw [fill_eq hh hc]
  simp [frames, hh, hr, buffer]

theorem getElem?_flatMap_replicate {k : Nat} (hk : 1 ≤ k) (xs : List UInt8) (j : Nat) :
    (xs.flatMap (List.replicate k))[j]? = xs[j / k]? := by
  induction xs generalizing j with
  | nil => simp
  | cons x xs ih =>
    rw [List.flatMap_cons]
    by_cases hj : j < k
    · rw [List.getElem?_append_left (by simpa using hj), Nat.div_eq_of_lt hj]
      simp [hj]
    · have hle : k ≤ j := Nat.le_of_not_lt hj
      rw [List.getElem?_append_right (by simpa using hle), List.length_replicate, ih,
        Nat.div_eq_sub_div hk hle, List.getElem?_cons_succ]

/-- Every entry of a buffer is the sample of the frame it belongs to. -/
theorem getElem?_buffer {channels len j : Nat} (hc : 1 ≤ channels) (hj : j < len)
    (frames : List UInt8) : (buffer channels len frames)[j]? = frames[j / channels]? := by
  rw [buffer, List.getElem?_take_of_lt hj, getElem?_flatMap_replicate hc]

theorem length_buffer {channels len : Nat} {frames : List UInt8}
    (hl : len ≤ frames.length * channels) : (buffer channels len frames).length = len := by
  simp [buffer, hl]

end Fill

namespace Ledger

/-- A call that finds the output running plays a run of the hold. -/
theorem after_call_running (hc : 1 ≤ l.output.device.channels)
    (hh : l.output.callback = some hold) (hr : l.output.running = true) (len : Nat) :
    let r := hold.run (l.output.device.framesIn len) l.output.queue
    l.after (.call len) =
      { output := { l.output with queue := r.source, callback := some r.hold }
        accepted := l.accepted
        popped := l.popped ++ l.output.queue.take (hold.taken (l.output.device.framesIn len))
        heard := l.heard ++ r.frames.toList } := by
  simp [after, fill_running hc hh hr, drawn, hh, hr]

/-- Any other call leaves all as it was. -/
theorem after_call_idle (hi : l.output.callback = none ∨ l.output.running = false) (len : Nat) :
    l.after (.call len) = l := by
  cases hh : l.output.callback with
  | none => simp [after, fill_without_callback hh, drawn, hh]
  | some hold =>
    have hr : l.output.running = false := by simpa [hh] using hi
    simp [after, fill_stopped hh hr, drawn, hh, hr]

end Ledger

namespace Accounted

theorem opened {o : Output} (h : ofDevice (some d) = .ok o) : Accounted d [] { output := o } := by
  have ho : o = { device := d } := by
    simp only [ofDevice] at h
    split at h
    · cases h
    · cases h
      rfl
  rw [ho]
  exact ⟨rfl, rfl, rfl, Nat.zero_le _, rfl, by simp, by simp⟩

theorem built_concat (ha : a ≠ .build) (as : List Action) : .build ∉ as ++ [a] ↔ .build ∉ as := by
  simp [ha.symm]

/-- An action of another kind that changes nothing. -/
theorem idle (h : Accounted d as l) (hs : a.switch? = none) (ha : a ≠ .build) :
    Accounted d (as ++ [a]) l := by
  refine ⟨h.channels, h.rate, h.flow, h.bound, ?_, ?_, h.hold⟩
  · rw [runs_concat, hs]
    exact h.running
  · rw [built_concat ha]
    exact h.built

theorem build (h : Accounted d as l) (hb : l.output.device.refusal .build = none)
    (hp : l.output.device.refusal .play = none) :
    Accounted d (as ++ [.build]) (l.after .build) := by
  have ho : l.output.build.2 =
      { l.output with
        callback := some (Hold.start sampleRate l.output.device.rate), streaming := true } := by
    simp [Output.build, hb, hp]
  simp only [Ledger.after, ho]
  refine ⟨h.channels, h.rate, h.flow, h.bound, ?_, ?_, ?_⟩
  · rw [runs_concat]
    exact h.running
  · simp
  · intro hold hh
    cases hh
    rw [h.rate]
    exact .start

theorem control (h : Accounted d as l) {running : Bool} (ha : a.switch? = some running) :
    Accounted d (as ++ [a]) { l with output := { l.output with running := running } } := by
  have hne : a ≠ .build := by
    rintro rfl
    cases ha
  refine ⟨h.channels, h.rate, h.flow, h.bound, ?_, ?_, h.hold⟩
  · rw [runs_concat, ha]
    rfl
  · rw [built_concat hne]
    exact h.built

/-- Samples that there is room for are queued behind the others. -/
theorem push (h : Accounted d as l) {samples : List UInt8} (hs : a.switch? = none) (ha : a ≠ .build)
    (hr : l.output.queue.length + samples.length ≤ queueCapacity) :
    Accounted d (as ++ [a])
      { l with
        output := { l.output with queue := l.output.queue ++ samples }
        accepted := l.accepted ++ samples } := by
  have hi := h.idle hs ha
  refine ⟨hi.channels, hi.rate, ?_, ?_, hi.running, hi.built, hi.hold⟩
  · rw [h.flow, List.append_assoc]
  · rw [List.length_append]
    exact hr

theorem write (h : Accounted d as l) (samples : List UInt8) :
    Accounted d (as ++ [.write samples]) (l.after (.write samples)) := by
  have hp := List.take_prefix (queueCapacity - l.output.queue.length) samples
  have hl := List.length_take_le (queueCapacity - l.output.queue.length) samples
  have hb := h.bound
  simp only [Ledger.after, Output.write, ← List.prefix_iff_eq_take.mp hp]
  apply h.push rfl (by simp)
  omega

theorem put (h : Accounted d as l) {sample : UInt8}
    (hr : l.output.queue.length < queueCapacity) :
    Accounted d (as ++ [.put sample]) (l.after (.put sample)) := by
  have hw : l.output.write [sample] = _ := write_of_room hr
  simp only [Ledger.after, hw]
  exact h.push rfl (by simp) hr

/-- The frames of a call pop from the front of the queue. -/
theorem call (h : Accounted d as l) (hc : 1 ≤ d.channels) (len : Nat) :
    Accounted d (as ++ [.call len]) (l.after (.call len)) := by
  have hsame : Accounted d (as ++ [.call len]) l := h.idle rfl (by simp)
  by_cases hi : l.output.callback = none ∨ l.output.running = false
  · rw [Ledger.after_call_idle hi]
    exact hsame
  · -- The samples popped are those that the source of the hold has lost.
    obtain ⟨hn, hr⟩ := not_or.mp hi
    obtain ⟨hold, hh⟩ := Option.ne_none_iff_exists'.mp hn
    have hreach := h.hold hold hh
    have hq : (hold.run (l.output.device.framesIn len) l.output.queue).source =
        l.output.queue.drop (hold.taken (l.output.device.framesIn len)) :=
      (Hold.extend_source _ (hreach.settled (by decide))).1
    rw [Ledger.after_call_running (h.channels ▸ hc) hh (by simpa using hr), hq]
    refine ⟨h.channels, h.rate, ?_, ?_, hsame.running, ?_, ?_⟩
    · rw [List.append_assoc, List.take_append_drop]
      exact h.flow
    · rw [List.length_drop]
      exact Nat.le_trans (Nat.sub_le _ _) h.bound
    · rw [← hsame.built, hh]
      simp
    · intro hold' hh'
      cases hh'
      exact hreach.run _ _

theorem after (h : Accounted d as l) (hc : 1 ≤ d.channels) (ha : Allowed as l a) :
    Accounted d (as ++ [a]) (l.after a) := by
  cases a with
  | build => exact h.build ha.2.1 ha.2.2
  | start => exact h.control rfl
  | stop => exact h.control rfl
  | write samples => exact h.write samples
  | put sample => exact h.put ha
  | answer refusal =>
    have hi : Accounted d (as ++ [.answer refusal]) l := h.idle rfl (by simp)
    exact ⟨hi.channels, hi.rate, hi.flow, hi.bound, hi.running, hi.built, hi.hold⟩
  | call len => exact h.call hc len

theorem of_trace (hc : 1 ≤ d.channels) (h : Trace d as l) : Accounted d as l := by
  induction h with
  | opened found => exact opened found
  | act _ allowed ih => exact ih.after hc allowed

end Accounted

/-- From one ledger to another, `n` frames of the hold were played. -/
structure Plays (hold : Hold) (n : Nat) (l l' : Ledger) : Prop where
  heard : l'.heard = l.heard ++ (hold.run n l.output.queue).frames.toList
  queue : l'.output.queue = (hold.run n l.output.queue).source
  callback : l'.output.callback = some (hold.run n l.output.queue).hold
  channels : l'.output.device.channels = l.output.device.channels
  accepted : l'.accepted = l.accepted

namespace Plays

variable {l' last : Ledger} {m n : Nat}

theorem refl (hh : l.output.callback = some hold) : Plays hold 0 l l :=
  ⟨(List.append_nil _).symm, rfl, hh, rfl, rfl⟩

/-- Frames that were played in two goes are the frames of one run. -/
theorem trans (hm : Plays hold m l l')
    (hn : Plays (hold.run m l.output.queue).hold n l' last) : Plays hold (m + n) l last := by
  obtain ⟨hf, hh, hs⟩ := Hold.run_add m n hold l.output.queue
  have hq := hm.queue
  refine ⟨?_, ?_, ?_, hn.channels.trans hm.channels, hn.accepted.trans hm.accepted⟩
  · rw [hn.heard, hm.heard, hf, hq, List.append_assoc]
  · rw [hn.queue, hs, hq]
  · rw [hn.callback, hh, hq]

/-- The frames of a shorter run come first in a longer one. -/
theorem heard_initial (hm : Plays hold m l l') (hn : Plays hold n l last) (hle : m ≤ n) :
    l'.heard <+: last.heard := by
  obtain ⟨more, rfl⟩ := Nat.exists_eq_add_of_le hle
  rw [hm.heard, hn.heard, (Hold.run_add m more hold _).1]
  exact (List.prefix_append_right_inj _).mpr (List.prefix_append _ _)

/-- The number of frames says what was played and what is left, whatever pauses there were. -/
theorem unique (h : Plays hold n l l') (h' : Plays hold n l last) :
    l'.heard = last.heard ∧ l'.output.queue = last.output.queue ∧
      l'.output.callback = last.output.callback :=
  ⟨h.heard.trans h'.heard.symm, h.queue.trans h'.queue.symm, h.callback.trans h'.callback.symm⟩

end Plays

namespace Ledger

/-- An action that writes nothing plays its frames if the output runs, and none otherwise. -/
theorem after_writeless (hc : 1 ≤ l.output.device.channels) (hh : l.output.callback = some hold)
    (hw : a.Writeless) :
    Plays hold (if l.output.running then a.frames l.output.device.channels else 0) l (l.after a) ∧
      (l.after a).output.running = a.switch?.getD l.output.running := by
  cases a with
  | start | stop | answer refusal =>
    simp only [Action.frames, ite_self]
    exact ⟨⟨(List.append_nil _).symm, rfl, hh, rfl, rfl⟩, rfl⟩
  | call len =>
    cases hr : l.output.running with
    | true =>
      rw [after_call_running hc hh hr]
      exact ⟨⟨rfl, rfl, rfl, rfl, rfl⟩, hr⟩
    | false =>
      rw [after_call_idle (.inr hr)]
      exact ⟨.refl hh, hr⟩
  | build | write samples | put sample => cases hw

theorem run_writeless (hc : 1 ≤ l.output.device.channels) (hh : l.output.callback = some hold)
    (hw : ∀ b ∈ bs, b.Writeless) :
    Plays hold (framesPlayed l.output.device.channels l.output.running bs) l (l.run bs) := by
  induction bs generalizing l hold with
  | nil => exact .refl hh
  | cons b bs ih =>
    obtain ⟨hp, hr⟩ := after_writeless hc hh (hw b (by simp))
    have hmore := ih (hp.channels ▸ hc) hp.callback (fun c hm => hw c (by simp [hm]))
    rw [hp.channels, hr] at hmore
    exact hp.trans hmore

theorem trace_run (h : Trace d as l) (hw : ∀ b ∈ bs, b.Writeless) :
    Trace d (as ++ bs) (l.run bs) := by
  induction bs generalizing as l with
  | nil =>
    rw [List.append_nil]
    exact h
  | cons b bs ih =>
    have hb : Allowed as l b := (hw b (by simp)).allowed
    have hmore := ih (h.act hb) (fun c hm => hw c (by simp [hm]))
    rwa [List.append_assoc] at hmore

end Ledger

theorem framesPlayed_append (channels : Nat) (r : Bool) (as bs : List Action) :
    framesPlayed channels r (as ++ bs) =
      framesPlayed channels r as + framesPlayed channels (runs r as) bs := by
  induction as generalizing r with
  | nil => exact (Nat.zero_add _).symm
  | cons a as ih =>
    rw [List.cons_append, framesPlayed, ih, framesPlayed, runs_cons, Nat.add_assoc]

/-- Nothing is played until the next start. -/
theorem framesPlayed_stopped (channels : Nat) (h : .start ∉ as) :
    framesPlayed channels false as = 0 ∧ runs false as = false := by
  induction as with
  | nil => exact ⟨rfl, rfl⟩
  | cons a as ih =>
    obtain ⟨hne, hm⟩ := not_or.mp (mt List.mem_cons.mpr h)
    have hs : a.switch?.getD false = false := by
      cases a with
      | start => exact absurd rfl hne
      | _ => rfl
    rw [framesPlayed, runs_cons, hs]
    simpa using ih hm

/-- A pause adds no frames. -/
theorem framesPlayed_pause (channels : Nat) {r : Bool} {bs pause : List Action}
    (cs : List Action) (hr : runs r bs = true) (hp : .start ∉ pause) :
    framesPlayed channels r (bs ++ .stop :: pause ++ .start :: cs) =
      framesPlayed channels r (bs ++ cs) := by
  obtain ⟨hzero, hoff⟩ := framesPlayed_stopped channels hp
  have hstop (more : List Action) : framesPlayed channels true (.stop :: more) =
      framesPlayed channels false more := Nat.zero_add _
  have hstart (more : List Action) : framesPlayed channels false (.start :: more) =
      framesPlayed channels true more := Nat.zero_add _
  rw [List.append_assoc, framesPlayed_append, framesPlayed_append channels r bs cs, hr,
    List.cons_append, hstop, framesPlayed_append, hzero, hoff, hstart, Nat.zero_add]

/-- A run that writes nothing does so with a pause in it, and without. -/
theorem writeless_pause {pause cs : List Action} (hw : ∀ b ∈ bs ++ pause ++ cs, b.Writeless) :
    (∀ b ∈ bs ++ .stop :: pause ++ .start :: cs, b.Writeless) ∧ ∀ b ∈ bs ++ cs, b.Writeless := by
  simp only [List.mem_append] at hw
  constructor
  · intro b hm
    simp only [List.mem_append, List.mem_cons] at hm
    rcases hm with (hm | rfl | hm) | rfl | hm
    · exact hw b (.inl (.inl hm))
    · trivial
    · exact hw b (.inl (.inr hm))
    · trivial
    · exact hw b (.inr hm)
  · intro b hm
    rcases List.mem_append.mp hm with hm | hm
    · exact hw b (.inl (.inl hm))
    · exact hw b (.inr hm)

namespace Accounted

variable {l' : Ledger} {as' : List Action}

/-- A call for a buffer plays the frames that it holds, each on every channel. -/
theorem fills_call (h : Accounted d as l) (hc : 1 ≤ d.channels)
    (hh : l.output.callback = some hold) (hs : runs false as = true) (len : Nat) :
    ∃ found frames hold' queue' entries,
      Hold.Fills ((len + d.channels - 1) / d.channels) hold l.output.queue
        found frames hold' queue' ∧
      l.output.fill len =
        (.entries entries, { l.output with queue := queue', callback := some hold' }) ∧
      entries.length = len ∧ (∀ j < len, entries[j]? = frames[j / d.channels]?) ∧
      l.after (.call len) =
        { l with
          output := (l.output.fill len).2
          popped := l.popped ++ found.filterMap id
          heard := l.heard ++ frames } := by
  have hcl : 1 ≤ l.output.device.channels := h.channels ▸ hc
  have hon : l.output.running = true := h.running.trans hs
  have hset : hold.Settled := (h.hold hold hh).settled (by decide)
  have hn : l.output.device.framesIn len = (len + d.channels - 1) / d.channels := by
    rw [Device.framesIn, h.channels]
  have hf := fill_running hcl hh hon len
  have hcall := Ledger.after_call_running hcl hh hon len
  have hle := Device.le_framesIn_mul hcl len
  rw [hn] at hf hcall hle
  rw [h.channels] at hf hle
  refine ⟨_, _, _, _, _, hset.fills_run _ l.output.queue, hf, ?_, ?_, ?_⟩
  · apply length_buffer
    rwa [Hold.length_frames_run]
  · intro j hj
    exact getElem?_buffer hc hj _
  · rw [hcall, hf, Hold.filterMap_answers]

theorem plays (h : Accounted d as l) (hc : 1 ≤ d.channels) (hh : l.output.callback = some hold)
    (hw : ∀ b ∈ bs, b.Writeless) :
    Plays hold (framesPlayed d.channels (runs false as) bs) l (l.run bs) := by
  have hp := Ledger.run_writeless (h.channels ▸ hc) hh hw
  rwa [h.channels, h.running] at hp

/-- What was popped is what was accepted and is no longer queued. -/
theorem popped_eq (h : Accounted d as l) (h' : Accounted d as' l')
    (ha : l.accepted = l'.accepted) (hq : l.output.queue = l'.output.queue) :
    l.popped = l'.popped := by
  have hflow := h.flow
  rw [ha, h'.flow, hq] at hflow
  exact (List.append_cancel_right hflow).symm

end Accounted

/-- Whatever happens to an output after its device was opened, the samples accepted are those that
were popped and those in the queue, which never holds more than it can. A call for a buffer finds
the output running just when the last start or stop was a start, whether or not the device agreed.
Then it plays as many frames as the buffer holds, the last of them perhaps cut short, each made by
the loop and each on every channel. Any other call fills the buffer with zeros and changes nothing.
So as long as no sample is written, the frames played are one run of the hold, however the calls cut
it into buffers, and a pause with any calls in it is not to be heard. -/
theorem conserves_samples_across_pauses (hc : 1 ≤ d.channels) (hr : sampleRate + d.rate ≤ 2 ^ 32)
    (h : Trace d as l) :
    (l.accepted = l.popped ++ l.output.queue ∧ l.output.queue.length ≤ 2205) ∧
    (l.output.callback = none ↔ .build ∉ as) ∧
    (l.output.callback = none → ∀ len, l.output.fill len = (.untouched, l.output)) ∧
    ∀ hold, l.output.callback = some hold →
      let started := runs false as
      let played := framesPlayed d.channels started
      hold.owed + hold.sourceRate < 2 ^ 32 ∧
      (started = false → amplitude silence = 0 ∧ ∀ len,
        l.output.fill len = (.entries (List.replicate len silence), l.output) ∧
        l.after (.call len) = l) ∧
      (started = true → ∀ len, ∃ found frames hold' queue' entries,
        Hold.Fills ((len + d.channels - 1) / d.channels) hold l.output.queue
          found frames hold' queue' ∧
        l.output.fill len =
          (.entries entries, { l.output with queue := queue', callback := some hold' }) ∧
        entries.length = len ∧ (∀ j < len, entries[j]? = frames[j / d.channels]?) ∧
        l.after (.call len) =
          { l with
            output := (l.output.fill len).2
            popped := l.popped ++ found.filterMap id
            heard := l.heard ++ frames }) ∧
      (∀ bs, (∀ b ∈ bs, b.Writeless) → Trace d (as ++ bs) (l.run bs) ∧
        (l.run bs).heard = l.heard ++ (hold.run (played bs) l.output.queue).frames.toList ∧
        (l.run bs).heard.length = l.heard.length + played bs) ∧
      (∀ bs cs, (∀ b ∈ bs, b.Writeless) → (∀ c ∈ cs, c.Writeless) →
        (played bs ≤ played cs → (l.run bs).heard <+: (l.run cs).heard) ∧
        (played bs = played cs →
          (l.run bs).heard = (l.run cs).heard ∧ (l.run bs).popped = (l.run cs).popped ∧
          (l.run bs).output.queue = (l.run cs).output.queue ∧
          (l.run bs).output.callback = (l.run cs).output.callback)) ∧
      ∀ bs pause cs, (∀ b ∈ bs ++ pause ++ cs, b.Writeless) → runs false (as ++ bs) = true →
        .start ∉ pause →
        (l.run (bs ++ .stop :: pause ++ .start :: cs)).heard = (l.run (bs ++ cs)).heard := by
  have ha := Accounted.of_trace hc h
  refine ⟨⟨ha.flow, ha.bound⟩, ha.built, fun hn => fill_without_callback hn, ?_⟩
  intro hold hh started played
  have hreach := ha.hold hold hh
  have hplays {bs : List Action} (hw : ∀ b ∈ bs, b.Writeless) :
      Plays hold (played bs) l (l.run bs) := ha.plays hc hh hw
  refine ⟨?_, ?_, ha.fills_call hc hh, ?_, ?_, ?_⟩
  · obtain ⟨hs, hd⟩ := hreach.rates
    have ho := (hreach.settled (by decide)).owed
    rw [hs]
    rw [hd] at ho
    unfold sampleRate at hr ⊢
    omega
  · intro hs
    have hoff : l.output.running = false := ha.running.trans hs
    exact ⟨rfl, fun len => ⟨fill_stopped hh hoff len, Ledger.after_call_idle (.inr hoff) len⟩⟩
  · intro bs hw
    have hp := (hplays hw).heard
    refine ⟨Ledger.trace_run h hw, hp, ?_⟩
    rw [hp, List.length_append, Hold.length_frames_run]
  · intro bs cs hb hcs
    refine ⟨(hplays hb).heard_initial (hplays hcs), ?_⟩
    intro hn
    have hp := hplays hb
    rw [hn] at hp
    obtain ⟨hheard, hqueue, hcallback⟩ := hp.unique (hplays hcs)
    have hab := Accounted.of_trace hc (Ledger.trace_run h hb)
    have hac := Accounted.of_trace hc (Ledger.trace_run h hcs)
    have haccepted := hp.accepted.trans (hplays hcs).accepted.symm
    exact ⟨hheard, hab.popped_eq hac haccepted hqueue, hqueue, hcallback⟩
  · intro bs pause cs hw hon hp
    obtain ⟨hpaused, hplain⟩ := writeless_pause hw
    rw [runs_append] at hon
    have hn : played (bs ++ .stop :: pause ++ .start :: cs) = played (bs ++ cs) :=
      framesPlayed_pause d.channels cs hon hp
    have hpause := hplays hpaused
    rw [hn] at hpause
    exact (hpause.unique (hplays hplain)).1

/-- Two channels at twice the rate. The device refuses to start, and runs all the same. The first
buffer is cut short in its second frame, and a call in the pause is not to be heard. -/
theorem conserves_samples_across_refused_start :
    let d : Device := { name := "speaker", rate := 44100, channels := 2 }
    let deaf : Device.Call → Option String := fun call => if call = .play then some "no play" else none
    let as : List Action := [.write [10, 20, 30], .build, .answer deaf, .start]
    let l := Ledger.run { output := { device := d } } as
    let whole := l.run [.call 3, .call 2]
    let paused := l.run ([.call 3] ++ .stop :: [.call 5] ++ .start :: [.call 2])
    Trace d as l ∧ l.output.start.1 = .error (.playback "no play") ∧
      l.output.callback = some (Hold.start sampleRate 44100) ∧
      whole.heard = [10, 10, 20] ∧ paused.heard = whole.heard ∧
      paused.accepted = paused.popped ++ paused.output.queue ∧ paused.popped = [10, 20] := by
  intro d deaf as l whole paused
  have hfirst : Trace d [] { output := { device := d } } := .opened rfl
  have hbuilt := (hfirst.act (a := .write [10, 20, 30]) trivial).act (a := .build)
    ⟨by simp, rfl, rfl⟩
  have ht : Trace d as l := (hbuilt.act (a := .answer deaf) trivial).act (a := .start) trivial
  have hh : l.output.callback = some (Hold.start sampleRate 44100) := rfl
  obtain ⟨_, _, _, hruns⟩ := conserves_samples_across_pauses (by decide) (by decide) ht
  obtain ⟨_, _, _, hrun, _, hpause⟩ := hruns _ hh
  have hw : ∀ b ∈ [.call 3] ++ .stop :: [.call 5] ++ .start :: [.call 2], Action.Writeless b := by
    simp [Action.Writeless]
  obtain ⟨hp, _⟩ := hrun _ hw
  obtain ⟨hflow, _⟩ := conserves_samples_across_pauses (by decide) (by decide) hp
  have hs := hpause [.call 3] [.call 5] [.call 2] (by simp [Action.Writeless]) rfl (by simp)
  exact ⟨ht, rfl, hh, by decide, hs, hflow.1, by decide⟩

end Output

end Polysynth
