import Polysynth.Voice

namespace Polysynth

namespace Wave

/-- The wave after a sample. An increment of 0 leaves it alone. -/
def sounded (g : Generator) (increment : UInt16) (note : UInt8) (w : Wave) : Wave :=
  if increment = 0 then w else (w.next g increment note).2

theorem sounded_zero (g : Generator) (note : UInt8) (w : Wave) : w.sounded g 0 note = w := rfl

end Wave

namespace Voice

theorem sound_voice (v : Voice) :
    v.sound.2 = { v with
      wave := v.wave.sounded v.part.generator v.increment v.note
      remaining := v.remaining - 1 } := by
  unfold sound Wave.sounded
  split <;> rfl

inductive Step (table : IncrementTable) (rate : Nat) (v : Voice) : Voice → Prop where
  | idle (stopped : v.active = false) : Step table rate v v
  | within (active : v.active = true) (left : 0 < v.remaining) :
      Step table rate v { v with
        wave := v.wave.sounded v.part.generator v.increment v.note
        remaining := v.remaining - 1 }
  | rest {ticks : UInt8} {after : List UInt8} (active : v.active = true) (due : v.remaining = 0)
      (found : Event.decode v.ahead = some (.rest ticks, after)) :
      Step table rate v { v with
        ahead := after, increment := 0, wave := { v.wave with phase := 0 }
        remaining := ticks.toNat * rate - 1 }
  | note {pitch ticks : UInt8} {after : List UInt8} (active : v.active = true)
      (due : v.remaining = 0) (found : Event.decode v.ahead = some (.note pitch ticks, after)) :
      Step table rate v { v with
        ahead := after, increment := table.get pitch, note := pitch
        wave := v.wave.sounded v.part.generator (table.get pitch) pitch
        remaining := ticks.toNat * rate - 1 }
  | rewind (active : v.active = true) (due : v.remaining = 0)
      (ended : Event.decode v.ahead = none) (loops : v.part.looping = true) :
      Step table rate v { v with
        ahead := v.part.stream, increment := 0, wave := { v.wave with phase := 0 }, remaining := 0 }
  | stop (active : v.active = true) (due : v.remaining = 0)
      (ended : Event.decode v.ahead = none) (once : v.part.looping = false) :
      Step table rate v { v with active := false }

variable {table : IncrementTable} {rate : Nat} {v : Voice}

theorem next_of_inactive (h : v.active = false) : v.next table rate = (silence, v) := by
  simp [next, h]

theorem next_within (ha : v.active = true) (hr : 0 < v.remaining) :
    v.next table rate = v.sound := by
  simp [next, ha, Nat.ne_of_gt hr]

/-- An event that is over is followed by the next one within the same sample. -/
theorem next_due (ha : v.active = true) (hr : v.remaining = 0) :
    v.next table rate =
      if (v.resolve table rate).active then (v.resolve table rate).sound
      else (silence, v.resolve table rate) := by
  simp only [next, ha, hr, if_true]

/-- What a sample does to a voice is one of these cases. -/
theorem step_next (table : IncrementTable) (rate : Nat) (v : Voice) :
    Step table rate v (v.next table rate).2 := by
  cases ha : v.active with
  | false =>
    rw [next_of_inactive ha]
    exact .idle ha
  | true =>
    rcases Nat.eq_zero_or_pos v.remaining with hr | hr
    · rw [next_due ha hr]
      cases hd : Event.decode v.ahead with
      | some found =>
        obtain ⟨e, after⟩ := found
        cases e with
        | rest ticks =>
          have hv : v.resolve table rate = { v with
              ahead := after, increment := 0, wave := { v.wave with phase := 0 }
              remaining := ticks.toNat * rate } := by
            rw [resolve, hd]
          rw [hv, if_pos ha, sound_voice]
          exact .rest ha hr hd
        | note pitch ticks =>
          have hv : v.resolve table rate = { v with
              ahead := after, increment := table.get pitch, note := pitch
              remaining := ticks.toNat * rate } := by
            rw [resolve, hd]
          rw [hv, if_pos ha, sound_voice]
          exact .note ha hr hd
      | none =>
        cases hl : v.part.looping with
        | true =>
          have hv : v.resolve table rate = { v with
              ahead := v.part.stream, increment := 0, wave := { v.wave with phase := 0 }
              remaining := 1 } := by
            simp only [resolve, hd, hl, if_true]
          rw [hv, if_pos ha, sound_voice]
          exact .rewind ha hr hd hl
        | false =>
          have hv : v.resolve table rate = { v with active := false } := by
            simp [resolve, hd, hl]
          rw [hv]
          exact .stop ha hr hd hl
    · rw [next_within ha hr, sound_voice]
      exact .within ha hr

/-- A voice never changes what it was given to play. -/
theorem next_part (table : IncrementTable) (rate : Nat) (v : Voice) :
    (v.next table rate).2.part = v.part := by
  have hs := step_next table rate v
  generalize (v.next table rate).2 = v' at hs
  cases hs <;> rfl

end Voice

end Polysynth
