import Polysynth.Proofs.Drawing
import Polysynth.Proofs.VoiceStep
import Polysynth.Mixer

namespace Polysynth

/-- The samples of one event, begun with the wave that the events before it left, and the wave
after it. A note without an increment is silent and leaves the wave alone. -/
def Event.play (g : Generator) (table : IncrementTable) (rate : Nat) (w : Wave) (e : Event) :
    List UInt8 × Wave :=
  match e with
  | .rest _ => (List.replicate (e.samples rate) silence, { w with phase := 0 })
  | .note pitch _ =>
    if table.get pitch = 0 then (List.replicate (e.samples rate) silence, w)
    else
      let played := draw (Wave.next g (table.get pitch) pitch) (e.samples rate) w
      (played.1.toList, played.2)

def playAll (g : Generator) (table : IncrementTable) (rate : Nat) :
    Wave → List Event → List UInt8 × Wave
  | w, [] => ([], w)
  | w, e :: es =>
    let first := e.play g table rate w
    let later := playAll g table rate first.2 es
    (first.1 ++ later.1, later.2)

/-- The first `k` rounds of events that are played over and over. One silent sample ends each
round and takes the phase back to 0. -/
def rounds (g : Generator) (table : IncrementTable) (rate : Nat) (es : List Event) :
    Nat → Wave → List UInt8
  | 0, _ => []
  | k + 1, w =>
    let round := playAll g table rate w es
    round.1 ++ silence :: rounds g table rate es k { round.2 with phase := 0 }

namespace Part

def passage (p : Part) (table : IncrementTable) (rate : Nat) : List UInt8 :=
  (playAll p.generator table rate {} (events p.stream)).1

/-- The first `n` samples of a part. A looping part never ends, and any other part is silent after
its last event. -/
def meaning (p : Part) (table : IncrementTable) (rate n : Nat) : List UInt8 :=
  if !p.playing then List.replicate n silence
  else if p.looping then (rounds p.generator table rate (events p.stream) n {}).take n
  else (p.passage table rate ++ List.replicate n silence).take n

end Part

/-- Even an event of no ticks takes a sample. -/
theorem Event.samples_pos (rate : Nat) (e : Event) : 0 < e.samples rate :=
  Nat.le_max_left 1 _

theorem Event.length_play (g : Generator) (table : IncrementTable) (rate : Nat) (w : Wave)
    (e : Event) : (e.play g table rate w).1.length = e.samples rate := by
  unfold Event.play
  split
  · exact List.length_replicate
  · split
    · exact List.length_replicate
    · exact length_toList_draw _ _ _

theorem length_playAll (g : Generator) (table : IncrementTable) (rate : Nat) (w : Wave)
    (es : List Event) :
    (playAll g table rate w es).1.length =
      es.foldr (fun e samples => e.samples rate + samples) 0 := by
  induction es generalizing w with
  | nil => rfl
  | cons e es ih =>
    simp only [playAll, List.length_append, Event.length_play, ih, List.foldr_cons]

/-- Every round takes at least its silent sample. -/
theorem le_length_rounds (g : Generator) (table : IncrementTable) (rate : Nat) (es : List Event)
    (k : Nat) (w : Wave) : k ≤ (rounds g table rate es k w).length := by
  induction k generalizing w with
  | zero => exact Nat.zero_le _
  | succ k ih =>
    simp only [rounds, List.length_append, List.length_cons]
    exact Nat.le_trans (Nat.succ_le_succ (ih _)) (Nat.le_add_left _ _)

namespace Voice

variable {table : IncrementTable} {rate : Nat} {v : Voice}

/-- While nothing sounds, time passes and the wave stays as it is. -/
theorem draw_silent (ha : v.active = true) (hi : v.increment = 0) (n : Nat) :
    draw (next table rate) n { v with remaining := n } =
      ((List.replicate n silence).toArray, { v with remaining := 0 }) := by
  induction n with
  | zero => rfl
  | succ n ih =>
    have hs : next table rate { v with remaining := n + 1 } =
        (silence, { v with remaining := n }) := by
      rw [next_within]
      · simp [sound, hi]
      · exact ha
      · exact Nat.succ_pos n
    rw [draw_succ, hs, ih]
    simp [List.replicate_succ]

/-- While a note sounds, its samples are those of the wave. -/
theorem draw_sounding (ha : v.active = true) (hi : v.increment ≠ 0) (n : Nat) (w : Wave) :
    draw (next table rate) n { v with remaining := n, wave := w } =
      ((draw (Wave.next v.part.generator v.increment v.note) n w).1,
        { v with
          remaining := 0
          wave := (draw (Wave.next v.part.generator v.increment v.note) n w).2 }) := by
  induction n generalizing w with
  | zero => rfl
  | succ n ih =>
    have hs : next table rate { v with remaining := n + 1, wave := w } =
        ((w.next v.part.generator v.increment v.note).1,
          { v with remaining := n, wave := (w.next v.part.generator v.increment v.note).2 }) := by
      rw [next_within]
      · simp [sound, hi]
      · exact ha
      · exact Nat.succ_pos n
    rw [draw_succ, hs, draw_succ (Wave.next _ _ _), ih]

theorem sound_at_least_one (v : Voice) :
    sound { v with remaining := max 1 v.remaining } = v.sound := by
  have h : max 1 v.remaining - 1 = v.remaining - 1 := by omega
  simp only [sound, h]

structure Due (v : Voice) (p : Part) (ahead : List UInt8) (w : Wave) : Prop where
  part : v.part = p
  ahead : v.ahead = ahead
  wave : v.wave = w
  remaining : v.remaining = 0
  active : v.active = true

variable (table rate) {p : Part} {ahead after : List UInt8} {w : Wave} {e : Event}

theorem Due.resolve_active (h : v.Due p ahead w) (hd : Event.decode ahead = some (e, after)) :
    (v.resolve table rate).active = true := by
  rw [resolve, h.ahead, hd]
  cases e <;> exact h.active

theorem Due.next_sounds (h : v.Due p ahead w) (hd : Event.decode ahead = some (e, after)) :
    v.next table rate = sound { v.resolve table rate with remaining := e.samples rate } := by
  -- An event of no ticks counts down from 0 and gives its one sample all the same.
  have hr : (v.resolve table rate).remaining = e.ticks.toNat * rate := by
    rw [resolve, h.ahead, hd]
    cases e <;> rfl
  have hs : e.samples rate = max 1 (v.resolve table rate).remaining := by
    rw [hr]
    rfl
  rw [hs, sound_at_least_one]
  simp [next, h.active, h.remaining, h.resolve_active table rate hd]

/-- A voice gives the samples of the event ahead, and is then due for what follows it. -/
theorem Due.draw_event (h : v.Due p ahead w) (hd : Event.decode ahead = some (e, after)) :
    (draw (next table rate) (e.samples rate) v).1.toList = (e.play p.generator table rate w).1 ∧
      (draw (next table rate) (e.samples rate) v).2.Due p after
        (e.play p.generator table rate w).2 := by
  have hn : v.next table rate =
      next table rate { v.resolve table rate with remaining := e.samples rate } := by
    rw [h.next_sounds table rate hd, next_within]
    · exact h.resolve_active table rate hd
    · exact e.samples_pos rate
  rw [draw_eq_of_next_eq hn (e.samples_pos rate), resolve, h.ahead, hd]
  obtain ⟨rfl, _, rfl, _, ha⟩ := h
  cases e with
  | rest ticks =>
    rw [draw_silent (v := { v with ahead := after, increment := 0, wave := { v.wave with phase := 0 } })
      ha rfl]
    exact ⟨rfl, ⟨rfl, rfl, rfl, rfl, ha⟩⟩
  | note pitch ticks =>
    by_cases hi : table.get pitch = 0
    · rw [draw_silent (v := { v with ahead := after, increment := table.get pitch, note := pitch })
        ha hi]
      have hp : (Event.note pitch ticks).play v.part.generator table rate v.wave =
          (List.replicate _ silence, v.wave) := if_pos hi
      rw [hp]
      exact ⟨rfl, ⟨rfl, rfl, rfl, rfl, ha⟩⟩
    · rw [draw_sounding (v := { v with ahead := after, increment := table.get pitch, note := pitch })
        ha hi]
      have hp : (Event.note pitch ticks).play v.part.generator table rate v.wave =
          ((draw _ _ v.wave).1.toList, (draw _ _ v.wave).2) := if_neg hi
      rw [hp]
      exact ⟨rfl, ⟨rfl, rfl, rfl, rfl, ha⟩⟩

/-- A voice gives the samples of all events ahead, and then finds no further event. -/
theorem Due.draw_events (h : v.Due p ahead w) :
    let played := playAll p.generator table rate w (events ahead)
    (draw (next table rate) played.1.length v).1.toList = played.1 ∧
      ∃ tail, Event.decode tail = none ∧
        (draw (next table rate) played.1.length v).2.Due p tail played.2 := by
  -- The events ahead shorten the stream, and the wave and the voice are whatever they left.
  induction hn : ahead.length using Nat.strongRecOn generalizing v ahead w with
  | ind n ih =>
    rw [events_eq_decode]
    cases hd : Event.decode ahead with
    | none => exact ⟨rfl, ahead, hd, h⟩
    | some found =>
      obtain ⟨e, after⟩ := found
      obtain ⟨hs, hv⟩ := h.draw_event table rate hd
      have hlt := hn ▸ Event.decode_length_lt hd
      obtain ⟨hl, tail, ht, hw⟩ := ih after.length hlt hv rfl
      simp only [playAll, List.length_append, Event.length_play]
      rw [toList_draw_add, draw_add, hs, hl]
      exact ⟨rfl, tail, ht, hw⟩

/-- At its end a looping voice is silent for one sample, and is then due for its whole stream with
the phase back at 0. -/
theorem Due.draw_rewind (h : v.Due p ahead w) (hd : Event.decode ahead = none)
    (hl : p.looping = true) :
    (draw (next table rate) 1 v).1.toList = [silence] ∧
      (draw (next table rate) 1 v).2.Due p p.stream { w with phase := 0 } := by
  obtain ⟨rfl, rfl, rfl, hr, ha⟩ := h
  have hs : v.next table rate =
      (silence, { v with
        ahead := v.part.stream, increment := 0, wave := { v.wave with phase := 0 }
        remaining := 0 }) := by
    simp [next, ha, hr, resolve, hd, hl, sound]
  rw [draw_one, hs]
  exact ⟨rfl, ⟨rfl, rfl, rfl, rfl, ha⟩⟩

/-- At the end of its stream, a part that does not loop stops for good. -/
theorem Due.next_stops (h : v.Due p ahead w) (hd : Event.decode ahead = none)
    (hl : p.looping = false) : v.next table rate = (silence, { v with active := false }) := by
  obtain ⟨rfl, rfl, rfl, hr, ha⟩ := h
  simp [next, ha, hr, resolve, hd, hl]

theorem start_due (hp : p.playing = true) : (start p).Due p p.stream {} :=
  ⟨rfl, rfl, rfl, rfl, hp⟩

/-- A looping part is at its start again after every round, if with another wave. -/
theorem Due.draw_rounds (h : v.Due p p.stream w) (hl : p.looping = true) (k : Nat) :
    let played := rounds p.generator table rate (events p.stream) k w
    (draw (next table rate) played.length v).1.toList = played ∧
      ∃ w', (draw (next table rate) played.length v).2.Due p p.stream w' := by
  induction k generalizing v w with
  | zero => exact ⟨rfl, w, h⟩
  | succ k ih =>
    obtain ⟨hs, tail, ht, hv⟩ := h.draw_events table rate
    obtain ⟨hb, hr⟩ := hv.draw_rewind table rate ht hl
    obtain ⟨hm, w', hw⟩ := ih hr
    simp only [rounds, List.length_append, List.length_cons]
    rw [Nat.add_comm _ 1, toList_draw_add, toList_draw_add, draw_add, draw_add, hs, hb, hm]
    exact ⟨rfl, w', hw⟩

theorem draw_of_inactive (h : v.active = false) (n : Nat) :
    draw (next table rate) n v = ((List.replicate n silence).toArray, v) := by
  induction n with
  | zero => rfl
  | succ n ih =>
    rw [draw_succ, next_of_inactive h, ih]
    simp [List.replicate_succ]

/-- A voice that has stopped stays so, and so one that is active always was. -/
theorem active_of_later {m n : Nat} (h : m ≤ n)
    (ha : (draw (next table rate) n v).2.active = true) :
    (draw (next table rate) m v).2.active = true := by
  obtain ⟨k, rfl⟩ := Nat.exists_eq_add_of_le h
  cases hm : (draw (next table rate) m v).2.active with
  | true => rfl
  | false =>
    rw [draw_add, draw_of_inactive table rate hm] at ha
    exact hm.symm.trans ha

theorem Due.draw_stops (h : v.Due p ahead w) (hd : Event.decode ahead = none)
    (hl : p.looping = false) (n : Nat) :
    (draw (next table rate) n v).1.toList = List.replicate n silence ∧
      (draw (next table rate) n v).2.active = decide (n = 0) := by
  cases n with
  | zero => exact ⟨rfl, h.active⟩
  | succ n =>
    rw [draw_succ, h.next_stops table rate hd hl, draw_of_inactive table rate rfl]
    exact ⟨by simp [List.replicate_succ], by simp⟩

/-- A voice plays the meaning of its part. -/
theorem toList_draw_start (p : Part) (n : Nat) :
    (draw (next table rate) n (start p)).1.toList = p.meaning table rate n := by
  unfold Part.meaning
  cases hp : p.playing with
  | false => rw [draw_of_inactive table rate hp]; rfl
  | true =>
    cases hl : p.looping with
    | true =>
      obtain ⟨hs, _⟩ := (start_due hp).draw_rounds table rate hl n
      have hn := le_length_rounds p.generator table rate (events p.stream) n {}
      rw [← take_draw _ hn, hs]
      rfl
    | false =>
      obtain ⟨hs, tail, ht, hv⟩ := (start_due hp).draw_events table rate
      have he := (hv.draw_stops table rate ht hl n).1
      rw [← take_draw _ (Nat.le_add_left n _), toList_draw_add, hs, he]
      rfl

/-- It takes a voice one sample more than its part has to find the end. -/
theorem active_draw_start (p : Part) (n : Nat) :
    (draw (next table rate) n (start p)).2.active =
      (p.playing && (p.looping || decide (n ≤ (p.passage table rate).length))) := by
  cases hp : p.playing with
  | false => rw [draw_of_inactive table rate hp]; exact hp
  | true =>
    cases hl : p.looping with
    | true =>
      obtain ⟨_, w, hw⟩ := (start_due hp).draw_rounds table rate hl n
      exact active_of_later table rate (le_length_rounds _ table rate _ n {}) hw.active
    | false =>
      obtain ⟨_, tail, ht, hv⟩ := (start_due hp).draw_events table rate
      by_cases hn : n ≤ (p.passage table rate).length
      · rw [active_of_later table rate hn hv.active]
        simp [hn]
      · obtain ⟨k, rfl⟩ := Nat.exists_eq_add_of_lt (Nat.lt_of_not_le hn)
        rw [decide_eq_false hn, Nat.add_assoc, draw_add]
        exact (hv.draw_stops table rate ht hl (k + 1)).2

theorem next_remaining (h : v.remaining ≤ 255 * rate) :
    (v.next table rate).2.remaining ≤ 255 * rate := by
  have hticks (ticks : UInt8) : ticks.toNat * rate - 1 ≤ 255 * rate :=
    Nat.le_trans (Nat.sub_le _ 1) (Nat.mul_le_mul_right rate (Nat.le_of_lt_succ ticks.toNat_lt))
  have hs := step_next table rate v
  generalize (v.next table rate).2 = v' at hs
  cases hs with
  | idle => exact h
  | within => exact Nat.le_trans (Nat.sub_le _ 1) h
  | rest => exact hticks _
  | note => exact hticks _
  | rewind => exact Nat.zero_le _
  | stop => exact h

/-- A voice plays what its part means: after any number of samples it has given those of the
events in order, and it is active until the samples of a part that does not loop have run out.
The samples left of an event stay below `2 ^ 32` wherever the longest event does. -/
theorem start_plays_meaning (p : Part) (n : Nat) :
    let run := draw (next table rate) n (start p)
    run.1.toList = p.meaning table rate n ∧
      run.2.active =
        (p.playing && (p.looping || decide (n ≤ (p.passage table rate).length))) ∧
      run.2.remaining ≤ 255 * rate := by
  refine ⟨toList_draw_start table rate p n, active_draw_start table rate p n, ?_⟩
  have hk (v : Voice) : v.remaining ≤ 255 * rate → (v.next table rate).2.remaining ≤ 255 * rate :=
    next_remaining table rate
  exact draw_keeps hk n (Nat.zero_le _)

end Voice

end Polysynth
