import Polysynth.Proofs.MixableSong

namespace Polysynth

namespace Handoff

variable {σ : Type} (next : σ → UInt8 × σ) (s : σ)

/-- A hand-off that has emitted `n` samples of a source and holds the one after them. -/
def inStep (n : Nat) : Handoff σ where
  slot := { held := sampleAfter next n s, fresh := true }
  source := (draw next (n + 1) s).2
  emitted := (draw next n s).1

theorem prime_eq_inStep : ({ source := s } : Handoff σ).prime next 0 = inStep next s 0 := rfl

/-- In step, a pass emits one sample and computes the next. -/
theorem pass_inStep (n : Nat) : (inStep next s n).pass next 0 = (true, inStep next s (n + 1)) := by
  have hs : (draw next (n + 1 + 1) s).2 = (next (draw next (n + 1) s).2).2 := by
    rw [draw_succ_last]
  have he : (draw next (n + 1) s).1 = (draw next n s).1.push (sampleAfter next n s) := by
    rw [draw_succ_last]
  simp only [inStep, hs, he]
  rfl

end Handoff

namespace Mixer

/-- The voices do not hear each other, so each is drawn from by itself. -/
theorem draw_next_voices (n : Nat) (m : Mixer) :
    (draw next n m).2 = { m with
      voices := m.voices.map
        (fun v => (draw (Voice.next m.table m.samplesPerTick.toNat) n v).2) } := by
  induction n with
  | zero => simp [draw_zero]
  | succ n ih =>
    rw [draw_succ_last, next_voices, ih, List.map_map]
    congr 2
    funext v
    simp only [Function.comp_apply, draw_succ_last]

/-- A mixer of a song gives the sum of what the tracks give by themselves. -/
theorem sampleAfter_assembled (capacity : Nat) (table : IncrementTable) (song : Song) (n : Nat) :
    sampleAfter next n (assembled capacity table song) =
      mix song.attenuation (song.tracks.map fun t =>
        sampleAfter (Voice.next table song.samplesPerTick.toNat) n (Voice.start t.part)) := by
  rw [sampleAfter, draw_next_voices, next_sample]
  simp only [assembled, Song.parts, List.map_map]
  rfl

end Mixer

theorem foldl_max_le {xs : List Nat} {a n : Nat} :
    xs.foldl max a ≤ n ↔ a ≤ n ∧ ∀ x ∈ xs, x ≤ n := by
  induction xs generalizing a with
  | nil => simp
  | cons x xs ih =>
    rw [List.foldl_cons, ih, Nat.max_le, List.forall_mem_cons, and_assoc]

theorem Song.span_le {s : Song} {n : Nat} :
    s.span ≤ n ↔ ∀ t ∈ s.tracks, t.span s.samplesPerTick.toNat ≤ n := by
  simp [Song.span, foldl_max_le]

theorem length_passage (t : Track) (table : IncrementTable) (rate : Nat) :
    (t.part.passage table rate).length = t.span rate :=
  length_playAll _ table rate {} _

namespace Mixer

variable (capacity : Nat) (table : IncrementTable) (song : Song)

theorem active_draw_track (t : Track) (table : IncrementTable) (rate n : Nat) :
    (draw (Voice.next table rate) n (Voice.start t.part)).2.active =
      (t.looping || decide (n ≤ t.span rate)) := by
  rw [Voice.active_draw_start, length_passage]
  rfl

/-- A mixer is finished one sample after the last of its song, and never if a track loops. -/
theorem finished_draw_assembled (n : Nat) :
    (draw next (n + 1) (assembled capacity table song)).2.finished =
      (!song.tracks.any Track.looping && decide (song.span ≤ n)) := by
  have hf : (draw next (n + 1) (assembled capacity table song)).2.finished =
      song.tracks.all (fun t =>
        !(t.looping || decide (n + 1 ≤ t.span song.samplesPerTick.toNat))) := by
    simp only [draw_next_voices, finished, assembled, Song.parts, List.map_map, List.all_map,
      Function.comp_def, active_draw_track]
  rw [hf, Bool.eq_iff_iff]
  simp only [List.all_eq_true, Bool.not_eq_true', Bool.or_eq_false_iff, decide_eq_false_iff_not,
    Bool.and_eq_true, List.any_eq_false, Bool.not_eq_true, decide_eq_true_eq, Song.span_le]
  constructor
  · intro h
    exact ⟨fun t ht => (h t ht).1, fun t ht => Nat.le_of_lt_succ (Nat.lt_of_not_le (h t ht).2)⟩
  · rintro ⟨hl, hs⟩ t ht
    exact ⟨hl t ht, Nat.not_le.mpr (Nat.lt_succ_of_le (hs t ht))⟩

/-- Passes go on to the end of the song or to their limit, whichever comes first. -/
theorem renderPasses_inStep (k n : Nat) :
    renderPasses k (Handoff.inStep next (assembled capacity table song) n) =
      Handoff.inStep next (assembled capacity table song)
        (n + if song.tracks.any Track.looping then k else min k (song.span - n)) := by
  induction k generalizing n with
  | zero => simp [renderPasses]
  | succ k ih =>
    have hf : (Handoff.inStep next (assembled capacity table song) n).source.finished = _ :=
      finished_draw_assembled capacity table song n
    unfold renderPasses
    rw [hf, Handoff.pass_inStep, ih]
    cases song.tracks.any Track.looping with
    | true =>
      simp only [Bool.not_true, Bool.false_and, Bool.false_eq_true, ↓reduceIte]
      congr 1
      omega
    | false =>
      by_cases hs : song.span ≤ n
      · simp [hs]
      · simp only [Bool.not_false, Bool.true_and, hs, decide_false, Bool.false_eq_true, ↓reduceIte]
        congr 1
        omega

/-- The loop asks for the end before each pass, and the hand-off is one sample ahead, so the song is
cut where it ends. -/
theorem renderPasses_primed (max : Nat) :
    renderPasses max (assembled capacity table song).primed =
      Handoff.inStep next (assembled capacity table song)
        (if song.tracks.any Track.looping then max else min max song.span) := by
  rw [primed, Handoff.prime_eq_inStep, renderPasses_inStep, Nat.zero_add, Nat.sub_zero]

theorem render_assembled (max : Nat) :
    (assembled capacity table song).render max = (draw next
      (if song.tracks.any Track.looping then max else min max song.span)
      (assembled capacity table song)).1 := by
  rw [render, renderPasses_primed]
  rfl

end Mixer

namespace Session

variable {s : Session} {m : Mixer}

theorem render_of_mixer (h : mixer s.song = .ok m) {max : Nat} (hmax : max < 2 ^ 63) :
    let samples := (draw Mixer.next
      (if s.song.tracks.any Track.looping then max else min max s.song.span) m).1
    s.render max = some (.ok samples, [.rendered samples.size]) := by
  intro samples
  have hr : m.render max = samples := by
    unfold samples
    rw [Mixer.eq_assembled_of_ofSong h, Mixer.render_assembled]
  rw [render_eq h, if_pos hmax, hr]

/-- A buffer that cannot be made is asked for before anything is rendered. -/
theorem render_beyond_limit (h : mixer s.song = .ok m) {max : Nat} (hmax : 2 ^ 63 ≤ max) :
    s.render max = none := by
  rw [render_eq h, if_neg (Nat.not_lt.mpr hmax)]

end Session

namespace Track

def totalTicks (t : Track) : Nat := Polysynth.totalTicks (events t.data)

theorem duration?_eq_if (t : Track) :
    t.duration? = if t.totalTicks < UInt32.size then some t.totalTicks else none :=
  duration?_eq t.data

/-- Where every event lasts a tick, none is stretched to a sample. -/
theorem span_eq_totalTicks {t : Track} {rate : Nat} (hr : 1 ≤ rate)
    (h : ∀ e ∈ events t.data, 1 ≤ e.ticks.toNat) : t.span rate = t.totalTicks * rate := by
  unfold span totalTicks Polysynth.totalTicks
  generalize events t.data = es at h
  induction es with
  | nil => simp
  | cons e es ih =>
    have he : e.samples rate = e.ticks.toNat * rate :=
      Nat.max_eq_right (Nat.mul_pos (h e (by simp)) hr)
    rw [List.foldr_cons, List.foldr_cons, he, ih (fun d hd => h d (by simp [hd])), Nat.add_mul]

end Track

namespace Song

def totalTicks (s : Song) : Nat := (s.tracks.map Track.totalTicks).foldl max 0

theorem totalTicks_lt {s : Song} :
    s.totalTicks < UInt32.size ↔ ∀ t ∈ s.tracks, t.totalTicks < UInt32.size := by
  have hs : ∀ n, n < UInt32.size ↔ n ≤ UInt32.size - 1 := by
    intro n
    exact Nat.lt_iff_le_pred (by decide)
  simp [totalTicks, hs, foldl_max_le]

/-- The lengths of all tracks are told, or one of them cannot be. -/
theorem mapM_duration? (ts : List Track) :
    ts.mapM Track.duration? =
      if ∀ t ∈ ts, t.totalTicks < UInt32.size then some (ts.map Track.totalTicks) else none := by
  induction ts with
  | nil => rfl
  | cons t ts ih =>
    rw [List.mapM_cons, ih, Track.duration?_eq_if]
    by_cases ht : t.totalTicks < UInt32.size
    · by_cases hs : ∀ u ∈ ts, u.totalTicks < UInt32.size
      · have hall : ∀ u ∈ t :: ts, u.totalTicks < UInt32.size := List.forall_mem_cons.mpr ⟨ht, hs⟩
        rw [if_pos ht, if_pos hs, if_pos hall]
        rfl
      · have hall : ¬ ∀ u ∈ t :: ts, u.totalTicks < UInt32.size :=
          fun h => hs (List.forall_mem_cons.mp h).2
        rw [if_pos ht, if_neg hs, if_neg hall]
        rfl
    · have hall : ¬ ∀ u ∈ t :: ts, u.totalTicks < UInt32.size :=
        fun h => ht (List.forall_mem_cons.mp h).1
      rw [if_neg ht, if_neg hall]
      rfl

/-- The count of a song fails where that of any of its tracks does. -/
theorem duration?_eq_if (s : Song) :
    s.duration? = if s.totalTicks < UInt32.size then some s.totalTicks else none := by
  rw [duration?, mapM_duration?]
  by_cases h : ∀ t ∈ s.tracks, t.totalTicks < UInt32.size
  · rw [if_pos h, if_pos (totalTicks_lt.mpr h)]
    rfl
  · rw [if_neg h, if_neg (fun hs => h (totalTicks_lt.mp hs))]
    rfl

/-- The length of a song is told if its longest track can be counted in 32 bits. -/
theorem durationSamples?_eq_some_iff {s : Song} {length : Nat} :
    s.durationSamples? = some length ↔
      s.totalTicks < UInt32.size ∧ length = s.totalTicks * s.samplesPerTick.toNat := by
  rw [durationSamples?, duration?_eq_if]
  split
  · next h => simp [h, eq_comm]
  · next h => simp [h]

theorem foldl_max_mul (xs : List Nat) (a r : Nat) :
    (xs.map (fun x => x * r)).foldl max (a * r) = xs.foldl max a * r := by
  induction xs generalizing a with
  | nil => rfl
  | cons x xs ih => rw [List.map_cons, List.foldl_cons, List.foldl_cons, Nat.mul_max_mul_right, ih]

theorem span_eq_totalTicks {s : Song} (hr : s.samplesPerTick ≠ 0)
    (h : ∀ t ∈ s.tracks, ∀ e ∈ events t.data, 1 ≤ e.ticks.toNat) :
    s.span = s.totalTicks * s.samplesPerTick.toNat := by
  have hp : 1 ≤ s.samplesPerTick.toNat := by
    apply Nat.pos_of_ne_zero
    intro h0
    exact hr (UInt16.toNat_inj.mp h0)
  have ht : s.tracks.map (Track.span s.samplesPerTick.toNat) =
      (s.tracks.map Track.totalTicks).map (fun d => d * s.samplesPerTick.toNat) := by
    rw [List.map_map]
    apply List.map_congr_left
    intro t hm
    exact Track.span_eq_totalTicks hp (h t hm)
  have hm := foldl_max_mul (s.tracks.map Track.totalTicks) 0 s.samplesPerTick.toNat
  rw [Nat.zero_mul] at hm
  rw [span, ht, hm]
  rfl

theorem setLooping_span (s : Song) (looping : Bool) : (s.setLooping looping).span = s.span := by
  simp only [span, setLooping, List.map_map]
  rfl

theorem setLooping_any (s : Song) : (s.setLooping false).tracks.any Track.looping = false := by
  simp [setLooping]

end Song

theorem Score.Loaded.span_eq {song : Song} (h : Loaded song) :
    song.span = song.totalTicks * song.samplesPerTick.toNat :=
  Song.span_eq_totalTicks h.rate
    (fun t ht e he => ((h.spelled t ht).events_proper e he).lasts)

namespace Session

theorem loadScore_of_loaded {text : String} {song : Song} (s : Session)
    (h : Score.load text = .ok song) {m : Mixer} (hm : mixer song = .ok m) :
    (s.loadScore text).result = .ok () ∧ (s.loadScore text).session.song = song := by
  simp [loadScore, loadSong, h, hm]

/-- Rendering gives the samples of a fresh mixer of the song, all of them up to the limit if a
track loops, and otherwise up to the end of the longest track. No sample is late, and a shorter
render is the start of a longer one. Only a limit beyond the largest buffer gives no answer. A score
with no more tracks than the player has voices, played once, is rendered for as many samples as its
ticks say, and that is the length of its song where the song has one. -/
theorem render_cuts_mixer_stream :
    (∀ (s : Session) (m : Mixer), mixer s.song = .ok m → ∀ max : Nat,
      let samples := (draw Mixer.next
        (if s.song.tracks.any Track.looping then max else min max s.song.span) m).1
      (max < 2 ^ 63 → s.render max = some (.ok samples, [.rendered samples.size]) ∧
        ∀ fewer ≤ max, ∃ first notices,
          s.render fewer = some (.ok first, notices) ∧ first.toList <+: samples.toList) ∧
      (2 ^ 63 ≤ max → s.render max = none) ∧
      m.render max = samples ∧ (Mixer.renderPasses max m.primed).slot.overruns = 0) ∧
    ∀ (text : String) (song : Song), Score.load text = .ok song →
      song.tracks.length ≤ Mixer.playerCapacity → ∀ s : Session,
        (s.loadScore text).result = .ok () ∧ ∀ max < 2 ^ 63, ∃ samples notices,
          ((s.loadScore text).session.setLooping false).render max = some (.ok samples, notices) ∧
          samples.size = min max (song.totalTicks * song.samplesPerTick.toNat) ∧
          ((∀ t ∈ song.tracks, totalTicks (events t.data) < 2 ^ 32) →
            ∃ length, song.durationSamples? = some length ∧ samples.size = min max length) := by
  refine ⟨?_, ?_⟩
  · intro s m hm max samples
    refine ⟨?_, render_beyond_limit hm, ?_, ?_⟩
    · intro hmax
      refine ⟨render_of_mixer hm hmax, ?_⟩
      intro fewer hf
      refine ⟨_, _, render_of_mixer hm (Nat.lt_of_le_of_lt hf hmax), ?_⟩
      have hk : (if s.song.tracks.any Track.looping then fewer else min fewer s.song.span) ≤
          if s.song.tracks.any Track.looping then max else min max s.song.span := by
        split <;> omega
      rw [← take_draw Mixer.next hk]
      exact List.take_prefix _ _
    · unfold samples
      rw [Mixer.eq_assembled_of_ofSong hm, Mixer.render_assembled]
    · rw [Mixer.eq_assembled_of_ofSong hm, Mixer.renderPasses_primed]
      rfl
  · intro text song h hn s
    have hl := Score.loaded_of_load h
    have hmix : song.Mixable Mixer.playerCapacity :=
      hl.mixable_iff.mpr (Nat.le_min.mpr ⟨hn, Nat.le_trans hn (by decide)⟩)
    obtain ⟨m, hm⟩ := mixer_ok_iff.mpr hmix
    obtain ⟨m', hm'⟩ := mixer_ok_iff.mpr (hmix.setLooping false)
    obtain ⟨hr, hs⟩ := loadScore_of_loaded s h hm
    refine ⟨hr, ?_⟩
    intro max hmax
    have ho : ((s.loadScore text).session.setLooping false).song = song.setLooping false := by
      simp only [setLooping, hs]
    rw [← ho] at hm'
    have hsize : ∀ n : Nat, n = song.totalTicks * song.samplesPerTick.toNat →
        (draw Mixer.next
          (if (song.setLooping false).tracks.any Track.looping then max
            else min max (song.setLooping false).span) m').1.size = min max n := by
      rintro n rfl
      rw [size_draw, Song.setLooping_any, Song.setLooping_span, hl.span_eq]
      rfl
    refine ⟨_, _, render_of_mixer hm' hmax, ?_, ?_⟩
    · rw [ho]
      exact hsize _ rfl
    · intro ht
      refine ⟨_, Song.durationSamples?_eq_some_iff.mpr ⟨Song.totalTicks_lt.mpr ht, rfl⟩, ?_⟩
      rw [ho]
      exact hsize _ rfl

/-- Two voices that end two samples apart, cut by a limit and rendered in full. -/
theorem render_cuts_uneven_voices :
    let text :=
      "> samps_per_tick: 2\n> generators: saw, sq\n> ticks_per_whole: 8\n> cut_ticks: 1\nc3=4 /=8\ne3=2"
    let song : Song :=
      { samplesPerTick := 2, attenuation := 1
        tracks := [{ data := [36, 2, 129], generator := .saw },
          { data := [40, 4], generator := .square }] }
    let s : Session := { song := song.setLooping false }
    let m := Mixer.assembled Mixer.playerCapacity .standard (song.setLooping false)
    let samples := (draw Mixer.next 8 m).1
    Score.load text = .ok song ∧ mixer s.song = .ok m ∧
      s.render 9 = some (.ok samples, [.rendered samples.size]) ∧
      (∃ first notices, s.render 5 = some (.ok first, notices) ∧
        first.toList <+: samples.toList) ∧
      ∃ samples notices,
        ((s.loadScore text).session.setLooping false).render 9 = some (.ok samples, notices) ∧
          ∃ length, song.durationSamples? = some length ∧ samples.size = min 9 length := by
  intro text song s m samples
  have ht : Score.load text = .ok song := by
    unfold text song
    rfl
  have hm : mixer s.song = .ok m :=
    Mixer.ofSong_of_fits (by decide) (by decide) (by decide) (by decide)
  obtain ⟨hrender, honce⟩ := render_cuts_mixer_stream
  obtain ⟨hr, hp⟩ := (hrender s m hm 9).1 (by decide)
  obtain ⟨_, hs⟩ := honce text song ht (by decide) s
  obtain ⟨once, notices, ho, _, hd⟩ := hs 9 (by decide)
  exact ⟨ht, hm, hr, hp 5 (by decide), once, notices, ho, hd (by decide)⟩

/-- A song of two samples gives them if eight are asked for, and no answer if no limit at all is
meant, although it can be mixed. -/
theorem render_without_limit_fails :
    let text := "> samps_per_tick: 2\n> generators: saw\n> ticks_per_whole: 8\n> cut_ticks: 1\nc3-1"
    let s := (({} : Session).loadScore text).session.setLooping false
    let m := Mixer.assembled Mixer.playerCapacity .standard s.song
    Score.load text = .ok
        { samplesPerTick := 2, tracks := [{ data := [36, 1], generator := .saw }] } ∧
      mixer s.song = .ok m ∧ (draw Mixer.next 2 m).1 = #[0, 3] ∧ s.song.span = 2 ∧
      s.render 8 = some (.ok #[0, 3], [.rendered 2]) ∧
      ¬ ∃ samples notices, s.render 18446744073709551615 = some (.ok samples, notices) := by
  intro text s m
  have ht : Score.load text = .ok
      { samplesPerTick := 2, tracks := [{ data := [36, 1], generator := .saw }] } := by
    unfold text
    rfl
  have hs : s.song =
      { samplesPerTick := 2
        tracks := [{ data := [36, 1], generator := .saw, looping := false }] } := by
    unfold s setLooping
    rw [(loadScore_of_loaded {} ht (Mixer.ofSong_of_fits (by decide) (by decide) (by decide)
      (by decide))).2]
    rfl
  have hm : mixer s.song = .ok m := by
    apply Mixer.ofSong_of_fits <;> rw [hs] <;> decide
  have hd : (draw Mixer.next 2 m).1 = #[0, 3] := by
    unfold m
    rw [hs]
    decide +kernel
  refine ⟨ht, hm, hd, ?_, ?_, ?_⟩
  · rw [hs]
    rfl
  · have h8 : 8 < 2 ^ 63 := by decide
    have hr := render_of_mixer hm h8
    have hlen : (if s.song.tracks.any Track.looping then 8 else min 8 s.song.span) = 2 := by
      rw [hs]
      rfl
    rw [hlen, hd] at hr
    exact hr
  · rintro ⟨samples, notices, hr⟩
    rw [render_beyond_limit hm (by decide)] at hr
    cases hr

end Session

end Polysynth
