import Polysynth.Proofs.Rendering
import Polysynth.Proofs.WavFiles

namespace Polysynth

namespace Wav

variable (samples : Array UInt8) (rate : UInt32)

def Truthful (samples image : Array UInt8) : Prop :=
  number image.toList 40 4 = samples.size ∧ number image.toList 4 4 + 8 = image.size

theorem truthful_iff : Truthful samples (image samples rate) ↔ samples.size ≤ mostSamples := by
  constructor
  · rintro ⟨hd, hr⟩
    rw [dataSize_image_mod] at hd
    rw [riffSize_image_mod, size_image] at hr
    unfold mostSamples
    omega
  · intro h
    exact ⟨dataSize_image rate h, riffSize_image rate h⟩

/-- The most seconds whose samples no header miscounts. -/
def mostSeconds : Nat := 194783

theorem le_mostSamples_iff (seconds : Nat) :
    sampleRate * seconds ≤ mostSamples ↔ seconds ≤ mostSeconds := by
  unfold sampleRate mostSamples mostSeconds
  omega

end Wav

namespace Session

/-- What is rendered of a song that can be mixed, and how much of it. -/
theorem render_size {s : Session} (h : s.song.Mixable Mixer.playerCapacity) {max : Nat}
    (hmax : max < 2 ^ 63) :
    ∃ samples notices, s.render max = some (.ok samples, notices) ∧
      samples.size = if s.song.tracks.any Track.looping then max else min max s.song.span := by
  obtain ⟨m, hm⟩ := mixer_ok_iff.mpr h
  exact ⟨_, _, render_of_mixer hm hmax, size_draw _ _ _⟩

/-- Whatever was asked of a session, the sizes in the WAV image of its song are the true ones
modulo 2 to the power of 32. They are the true ones exactly if there are at most `mostSamples`
samples, as there are up to `mostSeconds` seconds. A song that loops fills all the seconds asked
for, so there the sizes are true up to `mostSeconds` and never beyond. -/
theorem wav_sizes_true_up_to_limit (calls : List Call) (seconds : UInt32) :
    let s := calls.foldl after {}
    ∃ samples image notices,
      s.render (sampleRate * seconds.toNat) = some (.ok samples, notices) ∧
      s.renderWav seconds = some (.ok image, notices) ∧
      Wav.number image.toList 40 4 = samples.size % 0x100000000 ∧
      Wav.number image.toList 4 4 = (image.size - 8) % 0x100000000 ∧
      (Wav.Truthful samples image ↔ samples.size ≤ Wav.mostSamples) ∧
      (seconds.toNat ≤ Wav.mostSeconds → Wav.Truthful samples image) ∧
      (s.song.tracks.any Track.looping = true →
        (Wav.Truthful samples image ↔ seconds.toNat ≤ Wav.mostSeconds)) := by
  intro s
  obtain ⟨samples, notices, hr, hn⟩ :=
    render_size (run_mixable calls) (seconds_lt_limit seconds)
  have ht := Wav.truthful_iff samples (UInt32.ofNat sampleRate)
  refine ⟨samples, _, notices, hr, renderWav_of_render hr, Wav.dataSize_image_mod _ _,
    Wav.riffSize_image_mod _ _, ht, ?_, ?_⟩
  · intro hs
    have hle : samples.size ≤ sampleRate * seconds.toNat := by
      rw [hn]
      split <;> omega
    exact ht.mpr (Nat.le_trans hle ((Wav.le_mostSamples_iff _).mpr hs))
  · intro hl
    rw [if_pos hl] at hn
    rw [ht, hn, Wav.le_mostSamples_iff]

/-- The longest render of a song that loops for which the header is right. -/
theorem wav_sizes_true_at_limit :
    let song : Song := { tracks := [{ data := [60, 3], generator := .square }] }
    let s := [Call.loadSong song].foldl after {}
    (194783 : UInt32).toNat ≤ Wav.mostSeconds ∧ s.song.tracks.any Track.looping = true ∧
      ∃ samples image notices, s.render (sampleRate * 194783) = some (.ok samples, notices) ∧
        s.renderWav 194783 = some (.ok image, notices) ∧ Wav.Truthful samples image := by
  intro song s
  have hl : s.song.tracks.any Track.looping = true := by decide +kernel
  have hs : (194783 : UInt32).toNat ≤ Wav.mostSeconds := by decide
  obtain ⟨samples, image, notices, hr, hw, _, _, _, _, ht⟩ :=
    wav_sizes_true_up_to_limit [.loadSong song] 194783
  exact ⟨hs, hl, samples, image, notices, hr, hw, (ht hl).mpr hs⟩

/-- A second more, and the header of a score that rests for ever counts 19904 samples of
4294987200. -/
theorem wav_sizes_wrap_beyond_limit :
    let text :=
      "> samps_per_tick: 65535\n> generators: sq\n> ticks_per_whole: 8\n> cut_ticks: 1\n/-127"
    let s := [Call.loadScore text].foldl after {}
    ∃ samples image notices, s.render (sampleRate * 194784) = some (.ok samples, notices) ∧
      s.renderWav 194784 = some (.ok image, notices) ∧ samples.size = 4294987200 ∧
      Wav.number image.toList 40 4 = 19904 ∧ image.size = 4294987244 ∧
      Wav.number image.toList 4 4 = 19940 := by
  intro text s
  have hl : s.song.tracks.any Track.looping = true := by decide +kernel
  obtain ⟨samples, notices, hr, hn⟩ :=
    render_size (run_mixable [.loadScore text]) (seconds_lt_limit 194784)
  rw [if_pos hl] at hn
  have hi := Wav.size_image samples (UInt32.ofNat sampleRate)
  have hd := Wav.dataSize_image_mod samples (UInt32.ofNat sampleRate)
  have hf := Wav.riffSize_image_mod samples (UInt32.ofNat sampleRate)
  rw [hn] at hi hd
  rw [hi] at hf
  exact ⟨samples, _, notices, hr, renderWav_of_render hr, hn, hd, hi, hf⟩

end Session

end Polysynth
