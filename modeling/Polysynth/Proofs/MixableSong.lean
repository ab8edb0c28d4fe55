import Polysynth.Proofs.Mixing
import Polysynth.Proofs.LoadedSong
import Polysynth.Session

namespace Polysynth

structure Song.Mixable (capacity : Nat) (s : Song) : Prop where
  rated : s.samplesPerTick ≠ 0
  bounded : s.attenuation ≤ maxAttenuation
  fits : fits s.tracks.length s.attenuation = true
  room : s.tracks.length ≤ capacity

namespace Mixer

variable {m m' : Mixer} {capacity : Nat} {table : IncrementTable} {s : Song} {e : MixError}

/-- A mixer that has taken some parts one by one had room for all of them. -/
theorem fits_of_addAll {ps : List Part} (h : m.addAll ps = .ok m')
    (hf : fits m.voices.length m.attenuation = true) (hc : m.voices.length ≤ m.capacity) :
    fits (m.voices.length + ps.length) m.attenuation = true ∧
      m.voices.length + ps.length ≤ m.capacity := by
  induction ps generalizing m with
  | nil => exact ⟨hf, hc⟩
  | cons p ps ih =>
    unfold addAll at h
    by_cases hr : m.HasRoom
    · rw [add_of_room hr] at h
      have hl : (m.voices ++ [Voice.start p]).length = m.voices.length + 1 := List.length_append
      have hm := ih h (by rw [hl]; exact hr.1) (by rw [hl]; exact hr.2)
      rw [hl, Nat.add_assoc, Nat.add_comm 1] at hm
      exact hm
    · obtain ⟨e, he⟩ := add_refused hr p
      rw [he] at h
      cases h

/-- Whether a song can be mixed is decided by its rate, its exponent and how many tracks it has. -/
theorem ofSong_ok_iff : (∃ m, ofSong capacity table s = .ok m) ↔ s.Mixable capacity := by
  constructor
  · rintro ⟨m, h⟩
    have hs : s.samplesPerTick ≠ 0 := by
      intro hz
      simp only [ofSong, empty, if_pos hz] at h
      cases h
    have ha : s.attenuation ≤ maxAttenuation := by
      by_contra ha
      simp only [ofSong, empty, if_neg hs, if_pos (Nat.lt_of_not_le ha)] at h
      cases h
    have h0 : fits 0 s.attenuation = true := by simp [fits]
    have hl : s.parts.length = s.tracks.length := List.length_map _
    rw [ofSong_eq_addAll hs ha] at h
    obtain ⟨hf, hc⟩ := fits_of_addAll h h0 (Nat.zero_le _)
    simp only [List.length_nil, Nat.zero_add, hl] at hf hc
    exact ⟨hs, ha, hf, hc⟩
  · intro h
    exact ⟨_, ofSong_of_fits h.rated h.bounded h.fits h.room⟩

/-- As long as the exponent fits, the part beyond the capacity is the one refused. -/
theorem addAll_too_many {ps : List Part} (hf : fits (m.capacity + 1) m.attenuation = true)
    (hv : m.voices.length ≤ m.capacity) (hc : m.capacity < m.voices.length + ps.length) :
    m.addAll ps = .error (.tooManyTracks m.capacity) := by
  induction ps generalizing m with
  | nil => exact absurd hc (Nat.not_lt.mpr hv)
  | cons p ps ih =>
    unfold addAll
    by_cases hlt : m.voices.length < m.capacity
    · have hr : m.HasRoom := ⟨fits_mono hf (by omega), hlt⟩
      have hl : (m.voices ++ [Voice.start p]).length = m.voices.length + 1 := List.length_append
      rw [add_of_room hr]
      refine ih (m := { m with voices := m.voices ++ [Voice.start p] }) hf ?_ ?_
      · rw [hl]
        exact hlt
      · rw [hl, Nat.add_assoc, Nat.add_comm 1]
        exact hc
    · have he : m.voices.length = m.capacity := Nat.le_antisymm hv (Nat.not_lt.mp hlt)
      have ha : m.add p = .error (.tooManyTracks m.capacity) := by simp [add, he, hf]
      rw [ha]
      rfl

/-- A song with more tracks than there is room for, whose exponent is not to blame. -/
theorem ofSong_too_many (hs : s.samplesPerTick ≠ 0) (ha : s.attenuation ≤ maxAttenuation)
    (hf : fits (capacity + 1) s.attenuation = true) (hc : capacity < s.tracks.length) :
    ofSong capacity table s = .error (.tooManyTracks capacity) := by
  have hl : s.parts.length = s.tracks.length := List.length_map _
  rw [ofSong_eq_addAll hs ha]
  apply addAll_too_many hf (Nat.zero_le _)
  rw [List.length_nil, Nat.zero_add, hl]
  exact hc

end Mixer

namespace Score.Loaded

variable {song : Song} {capacity : Nat}

/-- A loaded song can be mixed as far as there is room for its tracks, and an exponent for them. -/
theorem mixable_iff (h : Loaded song) :
    song.Mixable capacity ↔ song.tracks.length ≤ min capacity 128 := by
  have ha : song.attenuation ≤ maxAttenuation := by
    rw [h.attenuation]
    exact attenuationFor_le _
  rw [Nat.le_min]
  constructor
  · intro hm
    exact ⟨hm.room, le_of_fits ha hm.fits⟩
  · rintro ⟨hc, hn⟩
    refine ⟨h.rate, ha, ?_, hc⟩
    rw [h.attenuation]
    exact fits_attenuationFor hn

theorem ofSong_too_many (h : Loaded song) (table : IncrementTable)
    (hc : capacity < song.tracks.length) (hn : capacity < 128) :
    Mixer.ofSong capacity table song = .error (.tooManyTracks capacity) := by
  apply Mixer.ofSong_too_many h.rate _ _ hc
  · rw [h.attenuation]
    exact attenuationFor_le _
  · rw [h.attenuation]
    exact fits_attenuationFor_of_le hn hc

end Score.Loaded

namespace Song.Mixable

variable {capacity : Nat} {s : Song}

/-- Nothing but rate, exponent and number of tracks decides whether a song can be mixed. -/
theorem of_eq {t : Song} (h : s.Mixable capacity) (hr : t.samplesPerTick = s.samplesPerTick)
    (ha : t.attenuation = s.attenuation) (hl : t.tracks.length = s.tracks.length) :
    t.Mixable capacity where
  rated := by
    rw [hr]
    exact h.rated
  bounded := by
    rw [ha]
    exact h.bounded
  fits := by
    rw [hl, ha]
    exact h.fits
  room := by
    rw [hl]
    exact h.room

theorem setTitle (h : s.Mixable capacity) (title : String) : (s.setTitle title).Mixable capacity :=
  h.of_eq rfl rfl rfl

theorem setLooping (h : s.Mixable capacity) (looping : Bool) :
    (s.setLooping looping).Mixable capacity :=
  h.of_eq rfl rfl (List.length_map _)

end Song.Mixable

namespace Session

inductive Call where
  | loadScore (text : String)
  | loadSong (song : Song)
  | setTitle (title : String)
  | setLooping (looping : Bool)
  | play (device : Option Device) (passes : Option Nat)
  | stop
  | render (max : Nat)

def after (s : Session) : Call → Session
  | .loadScore text => (s.loadScore text).session
  | .loadSong song => (s.loadSong song).session
  | .setTitle title => s.setTitle title
  | .setLooping looping => s.setLooping looping
  | .play device passes => (s.play device passes).session
  | .stop => s.stop.session
  | .render _ => s

theorem mixer_ok_iff {song : Song} :
    (∃ m, mixer song = .ok m) ↔ song.Mixable Mixer.playerCapacity :=
  Mixer.ofSong_ok_iff

theorem stop_song (s : Session) : s.stop.session.song = s.song := by
  unfold stop
  split <;> rfl

/-- A song that can be mixed is taken, and any other changes nothing. -/
theorem loadSong_cases (s : Session) (song : Song) :
    (∃ m, mixer song = .ok m ∧ (s.loadSong song).result = .ok () ∧
      (s.loadSong song).session.song = song) ∨
    ∃ e, mixer song = .error e ∧ (s.loadSong song).result = .error (.mix e) ∧
      (s.loadSong song).session = s := by
  unfold loadSong
  cases hm : mixer song with
  | error e => exact .inr ⟨e, rfl, rfl, rfl⟩
  | ok m => exact .inl ⟨m, rfl, rfl, rfl⟩

/-- A score is loaded as its song is. One that cannot be read changes nothing. -/
theorem loadScore_cases (s : Session) (text : String) :
    (∃ song, Score.load text = .ok song ∧
      (s.loadScore text).result = (s.loadSong song).result ∧
      (s.loadScore text).session = (s.loadSong song).session) ∨
    ∃ e, Score.load text = .error e ∧ (s.loadScore text).result = .error (.score e) ∧
      (s.loadScore text).session = s := by
  unfold loadScore
  cases hl : Score.load text with
  | error e => exact .inr ⟨e, rfl, rfl, rfl⟩
  | ok song => exact .inl ⟨song, rfl, rfl, rfl⟩

/-- A song that cannot be mixed is refused, and the session keeps the one it had. -/
theorem loadSong_mixable {s : Session} (h : s.song.Mixable Mixer.playerCapacity) (song : Song) :
    (s.loadSong song).session.song.Mixable Mixer.playerCapacity := by
  rcases s.loadSong_cases song with ⟨m, hm, _, hs⟩ | ⟨e, _, _, hs⟩
  · rw [hs]
    exact mixer_ok_iff.mp ⟨m, hm⟩
  · rw [hs]
    exact h

theorem after_mixable {s : Session} (h : s.song.Mixable Mixer.playerCapacity) (c : Call) :
    (s.after c).song.Mixable Mixer.playerCapacity := by
  cases c with
  | loadScore text =>
    change (s.loadScore text).session.song.Mixable _
    rcases s.loadScore_cases text with ⟨song, _, _, hs⟩ | ⟨e, _, _, hs⟩
    · rw [hs]
      exact loadSong_mixable h song
    · rw [hs]
      exact h
  | loadSong song => exact loadSong_mixable h song
  | setTitle title => exact h.setTitle title
  | setLooping looping => exact h.setLooping looping
  | play device passes =>
    change s.stop.session.song.Mixable _
    rw [stop_song]
    exact h
  | stop =>
    change s.stop.session.song.Mixable _
    rw [stop_song]
    exact h
  | render max => exact h

/-- The song of a session can be mixed, whatever was asked of the session before. -/
theorem run_mixable (calls : List Call) :
    (calls.foldl after {}).song.Mixable Mixer.playerCapacity := by
  have hk {s : Session} (h : s.song.Mixable Mixer.playerCapacity) :
      (calls.foldl after s).song.Mixable Mixer.playerCapacity := by
    induction calls generalizing s with
    | nil => exact h
    | cons c calls ih => exact ih (after_mixable h c)
  exact hk ⟨by decide, by decide, by decide, by decide⟩

/-- A song that can be mixed is rendered, if there can be a buffer of the length asked for. -/
theorem render_eq {s : Session} {m : Mixer} (h : mixer s.song = .ok m) (max : Nat) :
    s.render max =
      if max < 2 ^ 63 then some (.ok (m.render max), [.rendered (m.render max).size])
      else none := by
  have hl : max ≤ bufferLimit ↔ max < 2 ^ 63 := Nat.lt_succ_iff.symm
  unfold render
  rw [h]
  simp only [hl]

/-- No number of seconds asks for a buffer that is too large. -/
theorem seconds_lt_limit (seconds : UInt32) : sampleRate * seconds.toNat < 2 ^ 63 := by
  have hs := seconds.toNat_lt
  unfold sampleRate
  omega

theorem render_seconds {s : Session} {m : Mixer} (h : mixer s.song = .ok m) (seconds : UInt32) :
    s.render (sampleRate * seconds.toNat) =
      some (.ok (m.render (sampleRate * seconds.toNat)),
        [.rendered (m.render (sampleRate * seconds.toNat)).size]) := by
  rw [render_eq h, if_pos (seconds_lt_limit seconds)]

theorem renderWav_eq {s : Session} {m : Mixer} (h : mixer s.song = .ok m) (seconds : UInt32) :
    let samples := m.render (sampleRate * seconds.toNat)
    s.renderWav seconds =
      some (.ok (Wav.image samples (UInt32.ofNat sampleRate)), [.rendered samples.size]) := by
  intro samples
  unfold renderWav
  rw [render_seconds h]
  rfl

/-- What an export gives when its samples are rendered and the file was written or not. -/
def exportAnswer (path : String) (samples : Array UInt8) :
    Except FileError Unit → Except SessionError Nat × List Notice
  | .error e => (.error (.file e), [.rendered samples.size])
  | .ok _ => (.ok samples.size, [.rendered samples.size, .exported samples.size path])

theorem exportAnswer_error {path : String} {samples : Array UInt8}
    {written : Except FileError Unit} {e : SessionError}
    (h : (exportAnswer path samples written).1 = .error e) :
    ∃ fault, written = .error fault ∧ e = .file fault := by
  cases written with
  | error fault =>
    cases h
    exact ⟨fault, rfl, rfl⟩
  | ok _ => cases h

/-- An export of a song that can be mixed ends as the writing of its file does. -/
theorem exportWav_eq_write {s : Session} {mix : Mixer} (h : mixer s.song = .ok mix)
    {m : Type → Type} [Monad m] (fs : FileSystem m) (path : String) (seconds : UInt32) :
    let samples := mix.render (sampleRate * seconds.toNat)
    s.exportWav fs path seconds = (do
      return some (exportAnswer path samples
        (← fs.write path (Wav.chunks samples (UInt32.ofNat sampleRate))))) := by
  intro samples
  unfold exportWav
  rw [render_seconds h]
  apply congrArg (bind _)
  funext written
  cases written <;> rfl

/-- A score that loads can be mixed if there is room for its tracks and they are at most 128. If
there is not, nothing else is wrong with it. A session takes only songs that can be mixed, and a
load that fails leaves it as it was. So whatever is asked of a session, its song can be rendered as
far as a buffer goes, and only the file can make an export fail. -/
theorem session_song_always_mixes :
    (∀ (text : String) (song : Song), Score.load text = .ok song →
      ∀ (capacity : Nat) (table : IncrementTable),
        ((∃ m, Mixer.ofSong capacity table song = .ok m) ↔
          song.tracks.length ≤ min capacity 128) ∧
        (capacity < song.tracks.length → capacity < 128 →
          Mixer.ofSong capacity table song = .error (.tooManyTracks capacity))) ∧
    ∀ calls : List Call,
      let s := calls.foldl after {}
      (∀ song, let loaded := s.loadSong song
        (∃ m, mixer song = .ok m ∧ loaded.result = .ok () ∧ loaded.session.song = song) ∨
        ∃ e, mixer song = .error e ∧ loaded.result = .error (.mix e) ∧ loaded.session = s) ∧
      (∀ text, let loaded := s.loadScore text
        (∃ song m, Score.load text = .ok song ∧ mixer song = .ok m ∧ loaded.result = .ok () ∧
          loaded.session.song = song) ∨
        (∃ song e, Score.load text = .ok song ∧ mixer song = .error e ∧
          loaded.result = .error (.mix e) ∧ loaded.session = s) ∨
        ∃ e, Score.load text = .error e ∧ loaded.result = .error (.score e) ∧
          loaded.session = s) ∧
      (∃ m, mixer s.song = .ok m) ∧
      (∀ max < 2 ^ 63, ∃ samples notices, s.render max = some (.ok samples, notices)) ∧
      (∀ max e notices, s.render max ≠ some (.error e, notices)) ∧
      (∀ seconds, ∃ image notices, s.renderWav seconds = some (.ok image, notices)) ∧
      ∀ (m : Type → Type) [Monad m] (fs : FileSystem m) (path : String) (seconds : UInt32),
        ∃ samples notices, s.render (sampleRate * seconds.toNat) = some (.ok samples, notices) ∧
          s.exportWav fs path seconds = (do
            return some (exportAnswer path samples
              (← fs.write path (Wav.chunks samples (UInt32.ofNat sampleRate))))) ∧
          ∀ written e, (exportAnswer path samples written).1 = .error e →
            ∃ fault, written = .error fault ∧ e = .file fault := by
  refine ⟨?_, ?_⟩
  · intro text song h capacity table
    have hl := Score.loaded_of_load h
    exact ⟨Mixer.ofSong_ok_iff.trans hl.mixable_iff, hl.ofSong_too_many table⟩
  · intro calls s
    obtain ⟨mix, hm⟩ := mixer_ok_iff.mpr (run_mixable calls)
    refine ⟨s.loadSong_cases, ?_, ⟨mix, hm⟩, ?_, ?_, ?_, ?_⟩
    · intro text loaded
      rcases s.loadScore_cases text with ⟨song, hl, hr, hs⟩ | he
      · rcases s.loadSong_cases song with ⟨m, hm, ht⟩ | ⟨e, hm, ht⟩
        · rw [← hr, ← hs] at ht
          exact .inl ⟨song, m, hl, hm, ht⟩
        · rw [← hr, ← hs] at ht
          exact .inr (.inl ⟨song, e, hl, hm, ht⟩)
      · exact .inr (.inr he)
    · intro max hmax
      rw [render_eq hm, if_pos hmax]
      exact ⟨_, _, rfl⟩
    · intro max e notices he
      rw [render_eq hm] at he
      split at he <;> cases he
    · intro seconds
      exact ⟨_, _, renderWav_eq hm seconds⟩
    · intro m _ fs path seconds
      refine ⟨_, _, render_seconds hm seconds, exportWav_eq_write hm fs path seconds, ?_⟩
      intro written e
      exact exportAnswer_error

/-- Two tracks on mixers with room for one and for two, and a session that takes them, is asked for
something it refuses, and still renders. -/
theorem session_song_mixes_two_tracks :
    let text :=
      "> samps_per_tick: 2\n> generators: saw, sq\n> ticks_per_whole: 8\n> cut_ticks: 1\nc3=4 /=8\ne3=2"
    let song : Song :=
      { samplesPerTick := 2, attenuation := 1
        tracks := [{ data := [36, 2, 129], generator := .saw },
          { data := [40, 4], generator := .square }] }
    let calls : List Call := [.loadScore text, .setLooping false, .loadScore "c3-1", .stop]
    Score.load text = .ok song ∧
      Mixer.ofSong 1 .standard song = .error (.tooManyTracks 1) ∧
      (∃ m, Mixer.ofSong 2 .standard song = .ok m) ∧
      (calls.foldl after {}).song = song.setLooping false ∧
      ∃ samples notices, (calls.foldl after {}).render 9 = some (.ok samples, notices) := by
  intro text song calls
  have ht : Score.load text = .ok song := by
    unfold text song
    rfl
  obtain ⟨hi, hs⟩ := session_song_always_mixes
  refine ⟨ht, ?_, ?_, ?_, (hs calls).2.2.2.1 9 (by decide)⟩
  · exact (hi text song ht 1 .standard).2 (by decide) (by decide)
  · exact (hi text song ht 2 .standard).1.mpr (by decide)
  · decide +kernel

end Session

end Polysynth
