import Polysynth.Proofs.Holding
import Polysynth.Proofs.Rendering

namespace Polysynth

/-- A part that does not loop is silent after its events. -/
theorem Voice.silent_after_passage {p : Part} {table : IncrementTable} {rate n : Nat}
    (hl : p.looping = false) (hn : (p.passage table rate).length ≤ n) :
    sampleAfter (Voice.next table rate) n (Voice.start p) = silence := by
  have hx := getElem?_draw_succ (Voice.next table rate) n (Voice.start p)
  rw [Voice.toList_draw_start] at hx
  have hm : (p.meaning table rate (n + 1))[n]? = some silence := by
    unfold Part.meaning
    cases p.playing with
    | false => simp
    | true =>
      simp only [Bool.not_true, Bool.false_eq_true, if_false, hl]
      rw [List.getElem?_take_of_succ, List.getElem?_append_right hn, List.getElem?_replicate]
      exact if_pos (by omega)
  exact Option.some.inj (hx.symm.trans hm)

theorem Handoff.emitted_pass {σ : Type} (h : Handoff σ) (next : σ → UInt8 × σ) :
    (h.pass next 0).2.emitted = h.emitted.push h.slot.held := by
  rw [pass, poll]
  split <;> rfl

namespace Mixer

theorem mix_silence (exponent : Nat) {samples : List UInt8} (h : ∀ x ∈ samples, x = silence) :
    mix exponent samples = silence := by
  have hz : deviation exponent silence = 0 := by
    have hc : (silence.toUInt16.toInt16 - 128 : Int16) = 0 := rfl
    rw [deviation, hc]
    exact Int16.zero_shiftRight
  have hs : samples.foldl (fun sum s => sum + deviation exponent s) 0 = 0 := by
    induction samples with
    | nil => rfl
    | cons x xs ih =>
      rw [List.foldl_cons, h x (by simp), hz, Int16.add_zero]
      exact ih (fun y hy => h y (by simp [hy]))
  rw [mix, hs]
  rfl

/-- A song that does not loop is silent after its last sample. -/
theorem silent_after_span {song : Song} (capacity : Nat) (table : IncrementTable) {n : Nat}
    (hl : song.tracks.any Track.looping = false) (hn : song.span ≤ n) :
    sampleAfter next n (assembled capacity table song) = silence := by
  rw [sampleAfter_assembled]
  apply mix_silence
  intro x hx
  obtain ⟨t, ht, rfl⟩ := List.mem_map.mp hx
  have hlt : t.looping = false := by
    rw [List.any_eq_false] at hl
    simpa using hl t ht
  apply Voice.silent_after_passage (p := t.part) hlt
  rw [length_passage]
  exact Song.span_le.mp hn t ht

end Mixer

namespace Player

variable {p : Player} {hold : Hold}

def stageAfter (m : Mixer) : Stage := if m.finished then .draining tail else .playing

/-- A pass on a queue that has room. -/
theorem pass_eq (hs : p.stage = .playing) (hr : p.output.queue.length < Output.queueCapacity) :
    p.pass = { p with
      handoff := (p.handoff.pass Mixer.next 0).2
      output := { p.output with queue := p.output.queue ++ [p.handoff.slot.held] }
      stage := stageAfter (p.handoff.pass Mixer.next 0).2.source } := by
  have hw : p.output.write [p.handoff.slot.held] =
      (1, { p.output with queue := p.output.queue ++ [p.handoff.slot.held] }) :=
    Output.write_of_room hr
  unfold pass stageAfter
  simp only [Slot.interrupt, hw, halt, hs]
  split <;> rfl

theorem flowing_pass (hs : p.stage = .playing)
    (hr : p.output.queue.length < Output.queueCapacity) (hf : p.output.Flowing hold) :
    p.pass.output.Flowing hold := by
  rw [pass_eq hs hr]
  exact ⟨hf.running, hf.callback, hf.settled⟩

theorem room_of_empty (hq : p.output.queue = []) :
    p.output.queue.length < Output.queueCapacity := by
  rw [hq]
  decide

theorem advance_playing (hs : p.stage = .playing)
    (hr : p.output.queue.length < Output.queueCapacity) : p.advance = p.pass := by
  simp [advance, hs, hr]

/-- The device plays until it has taken all that is queued. -/
theorem listenAll_empties (hf : p.output.Flowing hold) :
    (∃ after, p.listenAll.output.Flowing after) ∧ p.listenAll.output.queue = [] := by
  have hn : p.listenAll = p.listen (hold.framesFor p.output.queue.length) := by
    simp [listenAll, hf.callback]
  obtain ⟨ha, hq⟩ := hf.after_frames (hold.framesFor p.output.queue.length)
  rw [hn]
  refine ⟨⟨_, ha⟩, ?_⟩
  exact hq.trans (List.drop_of_length_le (hf.settled.le_taken_framesFor _))

/-- A turn of the loop while the song is played: one pass, and the device takes its sample. -/
theorem turn_playing (hs : p.stage = .playing) (hf : p.output.Flowing hold)
    (hq : p.output.queue = []) :
    p.turn.handoff = (p.handoff.pass Mixer.next 0).2 ∧
      p.turn.stage = stageAfter p.turn.handoff.source ∧
      (∃ after, p.turn.output.Flowing after) ∧ p.turn.output.queue = [] := by
  have hr := room_of_empty hq
  have he : p.turn = p.pass.listenAll := by rw [turn, advance_playing hs hr]
  have ho := flowing_pass hs hr hf
  rw [he]
  refine ⟨?_, ?_, listenAll_empties ho⟩
  · simp only [listenAll, listen, pass_eq hs hr]
  · simp only [listenAll, listen, pass_eq hs hr]

theorem play_keeps {kept : Player → Prop} (step : ∀ p, p.stage = .playing → kept p → kept p.turn)
    (n : Nat) (h : kept p) : kept (p.play n) := by
  induction n generalizing p with
  | zero => exact h
  | succ n ih =>
    unfold play
    split
    · rename_i hs
      exact ih (step p hs h)
    · exact h

structure Direct (p : Player) : Prop where
  flowing : ∃ hold, p.output.Flowing hold ∧ hold.Direct
  queue : p.output.queue = []
  played : p.played = p.handoff.emitted

/-- At the rate of the samples, each pass is one frame. -/
theorem Direct.turn (hd : p.Direct) (hs : p.stage = .playing) : p.turn.Direct := by
  obtain ⟨⟨hold, hf, hh⟩, hq, hp⟩ := hd
  have hr := room_of_empty hq
  have ho := flowing_pass hs hr hf
  have hx : p.pass.output.queue = [p.handoff.slot.held] := by
    rw [pass_eq hs hr, hq]
    rfl
  have hn : p.turn = p.pass.listen 1 := by
    rw [Player.turn, advance_playing hs hr, listenAll, ho.callback, hx]
    simp [hh.framesFor_one hf.settled]
  obtain ⟨hx₁, hx₂, hx₃⟩ := hh.run_one hf.settled p.handoff.slot.held
  have hfr := ho.frames 1
  rw [hx] at hfr
  rw [hn]
  refine ⟨⟨(hold.run 1 [p.handoff.slot.held]).hold, ?_, hx₃⟩, ?_, ?_⟩
  · have ha := (ho.after_frames 1).1
    rw [hx] at ha
    exact ha
  · rw [listen, hfr]
    exact hx₂
  · have hpl : p.pass.played = p.played := by rw [pass_eq hs hr]
    have he : p.pass.handoff = (p.handoff.pass Mixer.next 0).2 := by rw [pass_eq hs hr]
    rw [listen, hfr]
    dsimp only
    rw [hx₁, hpl, hp, he, Array.append_singleton]
    exact (Handoff.emitted_pass p.handoff Mixer.next).symm

variable (capacity : Nat) (table : IncrementTable) (song : Song)

/-- How many passes the loop makes from the `n`-th on, when it may make `k`. The end is asked for
after each pass, so one is always made. -/
def passesFrom (n k : Nat) : Nat :=
  if song.tracks.any Track.looping then k else min k (max 1 (song.span - n))

/-- Turns go on to the end of the song or to their limit, whichever comes first. -/
theorem play_inStep (k n : Nat) (hs : p.stage = .playing)
    (hh : p.handoff = Handoff.inStep Mixer.next (Mixer.assembled capacity table song) n)
    (hf : p.output.Flowing hold) (hq : p.output.queue = []) :
    (p.play k).handoff =
        Handoff.inStep Mixer.next (Mixer.assembled capacity table song)
          (n + passesFrom song n k) ∧
      ((p.play k).stage = .playing ↔
        song.tracks.any Track.looping = true ∨ k < max 1 (song.span - n)) := by
  induction k generalizing p n hold with
  | zero =>
    refine ⟨by simpa [passesFrom, play] using hh, ?_⟩
    have h1 : 0 < max 1 (song.span - n) := by omega
    simp [play, hs, h1]
  | succ k ih =>
    obtain ⟨hth, hts, ⟨after, htf⟩, htq⟩ := turn_playing hs hf hq
    have hplay : p.play (k + 1) = p.turn.play k := by simp only [play, hs]
    rw [hh, Handoff.pass_inStep] at hth
    have hfin : p.turn.handoff.source.finished =
        (!song.tracks.any Track.looping && decide (song.span ≤ n + 1)) := by
      rw [hth]
      exact Mixer.finished_draw_assembled capacity table song (n + 1)
    rw [hplay]
    cases hl : song.tracks.any Track.looping with
    | true =>
      have hst : p.turn.stage = .playing := by simp [hts, stageAfter, hfin, hl]
      obtain ⟨h1, h2⟩ := ih (n + 1) hst hth htf htq
      rw [h1]
      refine ⟨?_, by simp [h2, hl]⟩
      simp only [passesFrom, hl, if_true]
      congr 1
      omega
    | false =>
      by_cases he : song.span ≤ n + 1
      · have hst : p.turn.stage = .draining tail := by simp [hts, stageAfter, hfin, hl, he]
        have hstop : p.turn.play k = p.turn := by cases k <;> simp [play, hst]
        rw [hstop, hth]
        refine ⟨?_, ?_⟩
        · simp only [passesFrom, hl]
          congr 1
          simp only [Bool.false_eq_true, if_false]
          omega
        · have hk : ¬k + 1 < max 1 (song.span - n) := by omega
          simp [hst, hk]
      · have hst : p.turn.stage = .playing := by simp [hts, stageAfter, hfin, hl, he]
        obtain ⟨h1, h2⟩ := ih (n + 1) hst hth htf htq
        rw [h1]
        refine ⟨?_, ?_⟩
        · simp only [passesFrom, hl]
          congr 1
          simp only [Bool.false_eq_true, if_false]
          omega
        · have hk : k < max 1 (song.span - (n + 1)) ↔ k + 1 < max 1 (song.span - n) := by omega
          simp [h2, hl, hk]

theorem play_start {d : Device} {o : Output} (ho : Output.Opened d o) (k : Nat) :
    ((start (Mixer.assembled capacity table song) o).play k).handoff =
        Handoff.inStep Mixer.next (Mixer.assembled capacity table song) (passesFrom song 0 k) ∧
      (((start (Mixer.assembled capacity table song) o).play k).stage = .playing ↔
        song.tracks.any Track.looping = true ∨ k < max 1 song.span) := by
  obtain ⟨hf, hq, _⟩ := ho.flowing
  have hp := play_inStep capacity table song (p := start (Mixer.assembled capacity table song) o)
    k 0 rfl rfl hf hq
  rwa [Nat.zero_add] at hp

theorem start_direct {d : Device} {o : Output} (m : Mixer) (ho : Output.Opened d o)
    (hd : d.rate = sampleRate) : (start m o).Direct := by
  obtain ⟨hf, hq, _⟩ := ho.flowing
  refine ⟨⟨_, hf, ?_⟩, hq, rfl⟩
  rw [hd]
  exact ⟨rfl, rfl⟩

end Player

namespace Session

/-- Playback that may make `j` passes emits the first samples of a fresh mixer of the song: `j` of
them if a track loops, and otherwise no more than the song has, but always one. No sample is late,
neither here nor in rendering, and a device at the rate of the samples has played each of them. A
song is rendered in the same samples, as far as a buffer goes, unless it has none at all: then
playback emits one sample of silence. -/
theorem playback_emits_render {s : Session} {m : Mixer} {d : Device} {o : Output}
    (hm : mixer s.song = .ok m) (ho : Output.Opened d o) (j : Nat) :
    let looping := s.song.tracks.any Track.looping
    let p := (Player.start m o).play j
    p.handoff.emitted =
        (draw Mixer.next (if looping then j else min j (max 1 s.song.span)) m).1 ∧
      p.handoff.slot.overruns = 0 ∧ (Mixer.renderPasses j m.primed).slot.overruns = 0 ∧
      (p.stage = .playing ↔ looping = true ∨ j < max 1 s.song.span) ∧
      (d.rate = sampleRate → p.played = p.handoff.emitted) ∧
      (looping = false → ∀ limit, s.song.span ≤ limit → (m.render limit).size = s.song.span) ∧
      (looping = true ∨ 0 < s.song.span ∨ j = 0 → m.render j = p.handoff.emitted) ∧
      (looping = false → s.song.span = 0 → 0 < j →
        m.render j = #[] ∧ p.handoff.emitted = #[silence]) ∧
      ∀ limit, s.render limit = if limit < 2 ^ 63 then
        some (.ok (m.render limit), [.rendered (m.render limit).size]) else none := by
  intro looping p
  have hlimit := render_eq hm
  obtain rfl := Mixer.eq_assembled_of_ofSong hm
  have hr := Mixer.render_assembled Mixer.playerCapacity .standard s.song
  obtain ⟨hh, hst⟩ := Player.play_start Mixer.playerCapacity .standard s.song ho j
  have he : p.handoff.emitted = (draw Mixer.next
      (if looping then j else min j (max 1 s.song.span)) _).1 := congrArg Handoff.emitted hh
  refine ⟨he, by rw [hh]; rfl, by rw [Mixer.renderPasses_primed]; rfl, hst, ?_, ?_, ?_, ?_, hlimit⟩
  · intro hd
    exact (Player.play_keeps (fun p hs hk => Player.Direct.turn hk hs) j
      (Player.start_direct _ ho hd)).played
  · intro (hl : s.song.tracks.any Track.looping = false) limit hle
    rw [hr limit, size_draw, hl]
    exact Nat.min_eq_right hle
  · intro hc
    rw [hr j, he]
    cases hl : s.song.tracks.any Track.looping with
    | true => simp only [looping, hl, if_true]
    | false =>
      have hn : min j s.song.span = min j (max 1 s.song.span) := by
        simp only [looping, hl, Bool.false_eq_true, false_or] at hc
        omega
      simp only [looping, hl, Bool.false_eq_true, if_false, hn]
  · intro (hl : s.song.tracks.any Track.looping = false) hz hj
    have hn : min j (max 1 s.song.span) = 1 := by omega
    have hx := Mixer.silent_after_span Mixer.playerCapacity .standard hl (Nat.le_of_eq hz)
    rw [sampleAfter, draw_zero] at hx
    refine ⟨?_, ?_⟩
    · rw [hr j, hl, hz]
      simp only [Bool.false_eq_true, if_false, Nat.min_zero, draw_zero]
    · rw [he]
      simp only [looping, hl, Bool.false_eq_true, if_false, hn, draw_one, hx]

/-- A song of one note that the passes outlast, and a song without tracks. -/
theorem playback_emits_note_and_nothing :
    let d : Device := { name := "speaker" }
    let o : Output :=
      { device := d, running := true, callback := some (Hold.start sampleRate sampleRate)
        streaming := true }
    let song : Song :=
      { samplesPerTick := 2, tracks := [{ data := [60, 1], generator := .square, looping := false }] }
    let m := Mixer.assembled Mixer.playerCapacity .standard song
    let empty := Mixer.assembled Mixer.playerCapacity .standard {}
    Output.Opened d o ∧ mixer song = .ok m ∧ mixer {} = .ok empty ∧
      ((Player.start m o).play 5).handoff.emitted = (draw Mixer.next 2 m).1 ∧
      ((Player.start m o).play 5).played = (draw Mixer.next 2 m).1 ∧
      render 5 { song := song } = some (.ok (draw Mixer.next 2 m).1, [.rendered 2]) ∧
      ((Player.start empty o).play 5).handoff.emitted = #[silence] ∧
      render 5 { song := {} } = some (.ok #[], [.rendered 0]) := by
  intro d o song m empty
  have ho : Output.Opened d o := ⟨_, _, rfl, rfl, rfl⟩
  have hm : mixer song = .ok m :=
    Mixer.ofSong_of_fits (by decide) (by decide) (by decide) (by decide)
  have hz : mixer {} = .ok empty :=
    Mixer.ofSong_of_fits (by decide) (by decide) (by decide) (by decide)
  obtain ⟨he, _, _, _, hp, _, hr, _, hl⟩ := playback_emits_render (s := { song := song }) hm ho 5
  obtain ⟨_, _, _, _, _, _, _, hn, hnl⟩ := playback_emits_render (s := { song := {} }) hz ho 5
  obtain ⟨hnr, hne⟩ := hn rfl rfl (by decide)
  have hk : ((Player.start m o).play 5).handoff.emitted = (draw Mixer.next 2 m).1 := he
  have hall : m.render 5 = (draw Mixer.next 2 m).1 := (hr (by decide)).trans hk
  refine ⟨ho, hm, hz, hk, (hp rfl).trans hk, ?_, hne, ?_⟩
  · rw [hl 5, if_pos (by decide), hall, size_draw]
  · rw [hnl 5, if_pos (by decide), hnr]
    rfl

end Session

end Polysynth
