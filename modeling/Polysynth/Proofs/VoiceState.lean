import Polysynth.Proofs.NoiseCycle
import Polysynth.Proofs.Repetition
import Polysynth.Proofs.Streams

namespace Polysynth

/-- Whole events lie between the start of a stream and the bytes ahead, and the walk over the
stream goes on with these. -/
def Boundary (stream ahead : List UInt8) : Prop :=
  ∃ es, events stream = es ++ events ahead ∧ es.flatMap Event.encode ++ ahead = stream

namespace Boundary

variable {stream ahead after : List UInt8} {e : Event}

theorem start (stream : List UInt8) : Boundary stream stream := ⟨[], rfl, rfl⟩

/-- A walk from the end of an event leads to the end of the next. -/
theorem decode (h : Boundary stream ahead) (hd : Event.decode ahead = some (e, after)) :
    Boundary stream after := by
  obtain ⟨es, he, hs⟩ := h
  refine ⟨es ++ [e], ?_, ?_⟩
  · rw [he, events_eq_decode ahead, hd, List.append_assoc]
    rfl
  · rw [List.flatMap_append, List.flatMap_singleton, List.append_assoc,
      (Event.encode_append_of_decode hd).2, hs]

end Boundary

namespace Wave

variable {g : Generator} {w : Wave}

/-- A wave as its generator can leave it. A tone never moves the register. Noise counts up to a note
at most, and the bits that it feeds back do not die. -/
structure Kept (g : Generator) (w : Wave) : Prop where
  register : g.isTone = true → w.noise = 1
  count : g.isTone = false → w.phase ≤ 255
  alive : g.isTone = false → w.noise &&& 0x7fff ≠ 0

theorem next_of_noise (hg : g.isTone = false) :
    ∃ tap : UInt16, tap.toNat < 14 ∧ ∀ increment, next g increment = hiss tap := by
  cases g with
  | noise93 => exact ⟨shortTap, by decide, fun _ => rfl⟩
  | noise32k => exact ⟨longTap, by decide, fun _ => rfl⟩
  | saw | triangle | square => cases hg

/-- Noise counts no further than a note. -/
theorem hiss_count (tap : UInt16) (note : UInt8) (w : Wave) :
    (hiss tap note w).2.phase ≤ 255 := by
  unfold hiss
  dsimp only
  split
  · exact UInt16.zero_le
  · rename_i hn
    rw [UInt16.lt_iff_toNat_lt, UInt8.toNat_toUInt16] at hn
    rw [UInt16.le_iff_toNat_le]
    exact Nat.le_trans (Nat.not_lt.mp hn) (Nat.le_of_lt_succ note.toNat_lt)

/-- No shift leads to a register that feeds back nothing, but from such a register. -/
theorem hiss_alive {tap : UInt16} (ht : tap.toNat < 14) (note : UInt8)
    (h : w.noise &&& 0x7fff ≠ 0) : (hiss tap note w).2.noise &&& 0x7fff ≠ 0 := by
  unfold hiss
  dsimp only
  split
  · exact clocks_ne_zero ht h 1
  · exact h

namespace Kept

theorem start (g : Generator) : Kept g {} where
  register _ := rfl
  count _ := UInt16.zero_le
  alive _ := by decide

theorem silenced (h : Kept g w) : Kept g { w with phase := 0 } where
  register := h.register
  count _ := UInt16.zero_le
  alive := h.alive

theorem next (h : Kept g w) (increment : UInt16) (note : UInt8) :
    Kept g (w.next g increment note).2 := by
  cases hg : g.isTone with
  | true =>
    obtain ⟨level, hn⟩ := next_of_tone hg
    rw [hn]
    refine ⟨h.register, ?_, ?_⟩ <;> simp [hg]
  | false =>
    obtain ⟨tap, ht, hn⟩ := next_of_noise hg
    rw [hn]
    exact ⟨by simp [hg], fun _ => hiss_count tap note w, fun _ => hiss_alive ht note (h.alive hg)⟩

theorem sounded (h : Kept g w) (increment : UInt16) (note : UInt8) :
    Kept g (w.sounded g increment note) := by
  unfold Wave.sounded
  split
  · exact h
  · exact h.next increment note

end Kept

end Wave

namespace Voice

/-- The event between the places of a voice before and after a sample, if there is just one. The
places alone tell, whatever else the voice did. -/
def passed? (v v' : Voice) : Option Event :=
  match Event.decode v.ahead with
  | some (e, after) => if v'.ahead = after then some e else none
  | none => none

/-- The places before and after tell the event between them. -/
theorem passed?_eq_some_iff {v v' : Voice} {e : Event} :
    v.passed? v' = some e ↔ Event.decode v.ahead = some (e, v'.ahead) := by
  unfold passed?
  cases hd : Event.decode v.ahead with
  | none => simp
  | some found =>
    by_cases ha : v'.ahead = found.2
    · simp [ha, Prod.ext_iff]
    · simp [ha, Prod.ext_iff, Ne.symm ha]

theorem passed?_of_ended {v : Voice} (h : Event.decode v.ahead = none) (v' : Voice) :
    v.passed? v' = none := by
  simp only [passed?, h]

theorem passed?_of_stays {v v' : Voice} (h : v'.ahead = v.ahead) : v.passed? v' = none := by
  apply Option.eq_none_iff_forall_ne_some.mpr
  intro e he
  rw [passed?_eq_some_iff, h] at he
  exact Nat.lt_irrefl _ (Event.decode_length_lt he)

/-- The last event that a voice took up, and the table of that time, account for its increment and
for a phase that rests. -/
structure Attributed (last : Option (Event × IncrementTable)) (v : Voice) : Prop where
  sounding : v.increment ≠ 0 → ∃ ticks table,
    last = some (.note v.note ticks, table) ∧ v.increment = table.get v.note
  resting : ∀ ticks table, last = some (.rest ticks, table) → v.wave.phase = 0

theorem Attributed.increment_of_rest {last : Option (Event × IncrementTable)} {v : Voice}
    (h : Attributed last v) {ticks : UInt8} {table : IncrementTable}
    (hl : last = some (.rest ticks, table)) : v.increment = 0 := by
  by_contra hi
  obtain ⟨_, _, hn, _⟩ := h.sounding hi
  rw [hl] at hn
  cases hn

namespace Step

variable {table : IncrementTable} {rate : Nat} {v v' : Voice}

theorem boundary (hs : Step table rate v v') (h : Boundary v.part.stream v.ahead) :
    Boundary v.part.stream v'.ahead := by
  cases hs with
  | idle => exact h
  | within => exact h
  | rest _ _ found => exact h.decode found
  | note _ _ found => exact h.decode found
  | rewind => exact .start _
  | stop => exact h

theorem kept (hs : Step table rate v v') (h : v.wave.Kept v.part.generator) :
    v'.wave.Kept v.part.generator := by
  cases hs with
  | idle => exact h
  | within => exact h.sounded _ _
  | rest => exact h.silenced
  | note => exact h.sounded _ _
  | rewind => exact h.silenced
  | stop => exact h

/-- Within an event, a sample changes nothing but the time left and the wave. -/
theorem spends_one (hs : Step table rate v v') (ha : v.active = true) (hr : 0 < v.remaining) :
    v'.remaining + 1 = v.remaining ∧ v'.ahead = v.ahead ∧ v'.increment = v.increment ∧
      v'.note = v.note := by
  cases hs with
  | idle stopped => rw [ha] at stopped; cases stopped
  | within => exact ⟨Nat.sub_add_cancel hr, rfl, rfl, rfl⟩
  | rest _ due | note _ due | rewind _ due | stop _ due => omega

theorem passed?_iff (hs : Step table rate v v') {e : Event} :
    v.passed? v' = some e ↔
      v.active = true ∧ v.remaining = 0 ∧ ∃ after, Event.decode v.ahead = some (e, after) := by
  cases hs with
  | idle stopped => simp [passed?_of_stays, stopped]
  | within _ left => simp [passed?_of_stays, Nat.ne_of_gt left]
  | rest active due found | note active due found =>
    simp [passed?_eq_some_iff, active, due, found]
  | rewind _ _ ended | stop _ _ ended => simp [passed?_of_ended, ended]

/-- An event is taken up with its first sample, so one less is left. -/
theorem remaining_of_passed (hs : Step table rate v v') {e : Event} (h : v.passed? v' = some e) :
    v'.remaining = e.ticks.toNat * rate - 1 := by
  obtain ⟨ha, hr, after, hd⟩ := hs.passed?_iff.mp h
  cases hs with
  | idle stopped => rw [ha] at stopped; cases stopped
  | within _ left => omega
  | rest _ _ found | note _ _ found =>
    rw [found] at hd
    cases hd
    rfl
  | rewind _ _ ended | stop _ _ ended => rw [ended] at hd; cases hd

/-- An event replaces the one noted before just when it is passed. -/
theorem attributed {last : Option (Event × IncrementTable)} (hs : Step table rate v v')
    (h : Attributed last v) :
    Attributed (((v.passed? v').map (fun e => (e, table))).or last) v' := by
  cases hs with
  | idle => rwa [passed?_of_stays rfl]
  | within =>
    simp only [passed?_of_stays, Option.map_none, Option.none_or]
    refine ⟨h.sounding, ?_⟩
    intro ticks t hl
    -- A rest has left no increment, so the generator is not asked and the phase stays.
    dsimp only
    rw [h.increment_of_rest hl, Wave.sounded_zero]
    exact h.resting ticks t hl
  | rest _ _ found =>
    rw [passed?_eq_some_iff.mpr found]
    exact ⟨fun hi => absurd rfl hi, fun _ _ _ => rfl⟩
  | @note pitch ticks _ _ _ found =>
    rw [passed?_eq_some_iff.mpr found]
    exact ⟨fun _ => ⟨ticks, table, rfl, rfl⟩, fun _ _ hl => nomatch hl⟩
  | rewind _ _ ended =>
    rw [passed?_of_ended ended]
    exact ⟨fun hi => absurd rfl hi, fun _ _ _ => rfl⟩
  | stop _ _ ended =>
    rw [passed?_of_ended ended]
    exact ⟨h.sounding, h.resting⟩

end Step

/-- The longest event at the longest tick fits 32 bits. -/
theorem ticks_mul_lt (ticks : UInt8) (rate : UInt16) : ticks.toNat * rate.toNat < 2 ^ 32 :=
  calc ticks.toNat * rate.toNat
    _ ≤ 255 * 65535 :=
      Nat.mul_le_mul (Nat.le_of_lt_succ ticks.toNat_lt) (Nat.le_of_lt_succ rate.toNat_lt)
    _ < 2 ^ 32 := by decide

theorem Step.remaining_lt {table : IncrementTable} {rate : UInt16} {v v' : Voice}
    (hs : Step table rate.toNat v v') (h : v.remaining < 2 ^ 32) : v'.remaining < 2 ^ 32 := by
  cases hs with
  | idle => exact h
  | within => exact Nat.lt_of_le_of_lt (Nat.sub_le _ 1) h
  | @rest ticks | @note _ ticks =>
    exact Nat.lt_of_le_of_lt (Nat.sub_le _ 1) (ticks_mul_lt ticks rate)
  | rewind => exact Nat.two_pow_pos 32
  | stop => exact h

inductive Call where
  | sample (table : IncrementTable) (rate : UInt16)
  | reset

/-- A voice, and the last event that it took up since its start with the table of that time. The
voice does not see what is noted beside it. -/
structure Followed where
  voice : Voice
  last : Option (Event × IncrementTable) := none
  deriving DecidableEq

namespace Followed

def after (f : Followed) : Call → Followed
  | .sample table rate =>
    let v := (f.voice.next table rate.toNat).2
    { voice := v, last := ((f.voice.passed? v).map (fun e => (e, table))).or f.last }
  | .reset => { voice := f.voice.reset }

def run (f : Followed) (calls : List Call) : Followed := calls.foldl after f

structure Orderly (p : Part) (f : Followed) : Prop where
  part : f.voice.part = p
  place : Boundary p.stream f.voice.ahead
  remaining : f.voice.remaining < 2 ^ 32
  attributed : f.voice.Attributed f.last
  kept : f.voice.wave.Kept p.generator

variable {p : Part} {f : Followed}

theorem Orderly.start (p : Part) : Orderly p { voice := Voice.start p } where
  part := rfl
  place := .start _
  remaining := Nat.two_pow_pos 32
  attributed := ⟨fun hi => absurd rfl hi, fun _ _ _ => rfl⟩
  kept := .start _

theorem Orderly.after (h : Orderly p f) (c : Call) : Orderly p (f.after c) := by
  obtain ⟨rfl, hp, hr, ha, hk⟩ := h
  cases c with
  | sample table rate =>
    have hs := step_next table rate.toNat f.voice
    exact ⟨next_part _ _ _, hs.boundary hp, hs.remaining_lt hr, hs.attributed ha, hs.kept hk⟩
  | reset => exact Orderly.start _

theorem Orderly.run (h : Orderly p f) (calls : List Call) : Orderly p (f.run calls) := by
  induction calls generalizing f with
  | nil => exact h
  | cons c calls ih => exact ih (h.after c)

/-- Nothing but a reset wakes a voice that has stopped. -/
theorem run_of_stopped (h : f.voice.active = false) {calls : List Call} (hc : .reset ∉ calls) :
    f.run calls = f := by
  induction calls with
  | nil => rfl
  | cons c calls ih =>
    rw [List.mem_cons, not_or] at hc
    cases c with
    | sample table rate =>
      have hf : f.after (.sample table rate) = f := by
        simp only [after, next_of_inactive h, passed?_of_stays]
        rfl
      rw [run, List.foldl_cons, hf]
      exact ih hc.2
    | reset => exact absurd rfl hc.1

/-- Whole events, from the first one on, take up all the bytes that were read. -/
theorem Orderly.position (h : Orderly p f) :
    ∃ es, es <+: events p.stream ∧ f.voice.position = (es.flatMap Event.encode).length ∧
      f.voice.position ≤ p.stream.length ∧ f.voice.ahead = p.stream.drop f.voice.position := by
  obtain ⟨rfl, ⟨es, he, hs⟩, _⟩ := h
  have hp : f.voice.position = (es.flatMap Event.encode).length := by
    rw [Voice.position, ← hs, List.length_append, Nat.add_sub_cancel]
  refine ⟨es, ⟨_, he.symm⟩, hp, Nat.sub_le _ _, ?_⟩
  rw [hp, ← hs, List.drop_left]

end Followed

/-- Whatever is asked of a voice, in any order, with tables and lengths of a tick that change from
sample to sample: its place follows a number of whole events, so it lies within the stream. Only
the last note taken up gives an increment, by the table of that time, and a rest keeps the phase at
0. A tone leaves the register alone; noise counts to 255 at most and its register does not die. A
voice that stopped changes in nothing before a reset, which takes it back to its start. A sample
spends one of those left and leaves all else of the event in place. An event is taken up when none
are left, exactly then, and its samples can be counted with 32 bits. -/
theorem calls_keep_order (p : Part) (calls : List Call) :
    let f := Followed.run { voice := start p } calls
    let v := f.voice
    (∃ es, es <+: events p.stream ∧ v.position = (es.flatMap Event.encode).length ∧
      v.position ≤ p.stream.length ∧ v.ahead = p.stream.drop v.position) ∧
    v.remaining < 2 ^ 32 ∧
    (v.increment ≠ 0 → ∃ ticks table,
      f.last = some (.note v.note ticks, table) ∧ v.increment = table.get v.note) ∧
    (∀ ticks table, f.last = some (.rest ticks, table) → v.wave.phase = 0) ∧
    (p.generator.isTone = true → v.wave.noise = 1) ∧
    (p.generator.isTone = false →
      v.wave.phase ≤ 255 ∧ (v.wave.phase + 1).toNat = v.wave.phase.toNat + 1 ∧
        v.wave.noise &&& 0x7fff ≠ 0) ∧
    (v.active = false → ∀ more : List Call, .reset ∉ more → f.run more = f) ∧
    v.reset = start p ∧
    ∀ (table : IncrementTable) (rate : UInt16),
      let v' := (v.next table rate.toNat).2
      (v.active = true → 0 < v.remaining →
        v'.remaining + 1 = v.remaining ∧ v'.position = v.position ∧
          v'.increment = v.increment ∧ v'.note = v.note) ∧
      ∀ e, (v.passed? v' = some e ↔
          v.active = true ∧ v.remaining = 0 ∧ ∃ after, Event.decode v.ahead = some (e, after)) ∧
        (v.passed? v' = some e →
          e.ticks.toNat * rate.toNat < 2 ^ 32 ∧ v'.remaining = e.ticks.toNat * rate.toNat - 1) := by
  intro f v
  have ho : f.Orderly p := (Followed.Orderly.start p).run calls
  refine ⟨ho.position, ho.remaining, ho.attributed.sounding, ho.attributed.resting,
    ho.kept.register, ?_, ?_, congrArg start ho.part, ?_⟩
  · intro hg
    have hc := ho.kept.count hg
    refine ⟨hc, ?_, ho.kept.alive hg⟩
    rw [UInt16.toNat_add]
    exact Nat.mod_eq_of_lt
      (Nat.lt_of_le_of_lt (Nat.succ_le_succ (UInt16.le_iff_toNat_le.mp hc)) (by decide))
  · intro hv more hm
    exact Followed.run_of_stopped hv hm
  · intro table rate v'
    have ht : Step table rate.toNat v v' := step_next table rate.toNat v
    refine ⟨?_, ?_⟩
    · intro hv hl
      obtain ⟨hn, hd, hi, hnote⟩ := ht.spends_one hv hl
      refine ⟨hn, ?_, hi, hnote⟩
      rw [position, position, hd, next_part]
    · intro e
      exact ⟨ht.passed?_iff, fun h => ⟨ticks_mul_lt e.ticks rate, ht.remaining_of_passed h⟩⟩

/-- A note whose length looks like a rest, at the longest tick; a rest; and a voice that stopped. -/
theorem calls_keep_order_past_tick_byte :
    let noise : Part := { stream := [2, 133, 0x81], generator := .noise93 }
    let square : Part := { stream := [0x81], generator := .square, looping := false }
    let table := IncrementTable.standard
    let longest : UInt16 := 65535
    let long : Call := .sample table longest
    let short : Call := .sample table 1
    let e : Event := .note 2 133
    let begun := ((start noise).next table longest.toNat).2
    let sounding := Followed.run { voice := start noise } [long, short, long, short]
    let v := sounding.voice
    let v' := (v.next table longest.toNat).2
    let resting := Followed.run { voice := start square } [short]
    let stopped := Followed.run { voice := start square } [short, long]
    ((start noise).passed? begun = some e ∧ e.ticks.toNat * longest.toNat < 2 ^ 32 ∧
      begun.remaining = e.ticks.toNat * longest.toNat - 1) ∧
    (v.increment ≠ 0 ∧ ∃ ticks table,
      sounding.last = some (.note v.note ticks, table) ∧ v.increment = table.get v.note) ∧
    (noise.generator.isTone = false ∧ v.wave.phase ≤ 255 ∧ v.wave.noise &&& 0x7fff ≠ 0) ∧
    (v.active = true ∧ 0 < v.remaining ∧ v'.remaining + 1 = v.remaining ∧
      v'.position = v.position ∧ v.position = 2) ∧
    (resting.last = some (.rest 1, table) ∧ resting.voice.wave.phase = 0) ∧
    (square.generator.isTone = true ∧ resting.voice.wave.noise = 1) ∧
    stopped.voice.active = false ∧ stopped.run [long, short, long] = stopped := by
  intro noise square table longest long short e
  have hf := calls_keep_order noise []
  have hn := calls_keep_order noise [long, short, long, short]
  have hr := calls_keep_order square [short]
  have hq := calls_keep_order square [short, long]
  -- The states get names of their own, or every use of a fact would run the voice again.
  generalize hn' : Followed.run _ [long, short, long, short] = sounding at hn ⊢
  generalize hr' : Followed.run _ [short] = resting at hr ⊢
  generalize hq' : Followed.run _ [short, long] = stopped at hq ⊢
  obtain ⟨_, _, _, _, _, _, _, _, hf⟩ := hf
  obtain ⟨_, _, hs, _, _, hk, _, _, hv⟩ := hn
  obtain ⟨_, _, _, hr, ht, _⟩ := hr
  obtain ⟨_, _, _, _, _, _, hq, _⟩ := hq
  obtain ⟨hi, ha, hl, h2⟩ : sounding.voice.increment ≠ 0 ∧ sounding.voice.active = true ∧
      0 < sounding.voice.remaining ∧ sounding.voice.position = 2 := by
    subst hn'
    decide +kernel
  have hrest : resting.last = some (.rest 1, table) := by
    subst hr'
    decide +kernel
  have hstop : stopped.voice.active = false := by
    subst hq'
    decide +kernel
  intro begun sounding v v' resting stopped
  have hp : (start noise).passed? begun = some e := by decide +kernel
  obtain ⟨hc, _, hw⟩ := hk rfl
  obtain ⟨hone, hpos, _⟩ := (hv table longest).1 ha hl
  refine ⟨⟨hp, ((hf table longest).2 e).2 hp⟩, ⟨hi, hs hi⟩, ⟨rfl, hc, hw⟩,
    ⟨ha, hl, hone, hpos, h2⟩, ⟨hrest, hr 1 table hrest⟩, ⟨rfl, ht rfl⟩, hstop, hq hstop _ ?_⟩
  simp [long, short]

end Voice

end Polysynth
