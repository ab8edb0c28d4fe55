import Mathlib.Data.Nat.Log
import Mathlib.Order.Bounds.Defs
import Polysynth.Proofs.Mixing

namespace Polysynth

namespace Mixer

/-- The sum of samples around silence, each attenuated, before it is cut to a sample. -/
def level (exponent : Nat) (samples : List UInt8) : Int :=
  128 + (samples.map (fun s => (deviation exponent s).toInt)).sum

variable {exponent n : Nat} {samples : List UInt8} {m : Mixer} {p : Part}

theorem level_eq_offsets (h : exponent ≤ maxAttenuation) (samples : List UInt8) :
    level exponent samples = 128 + (samples.map (offset exponent)).sum := by
  have ho : (fun s => (deviation exponent s).toInt) = offset exponent :=
    funext (toInt_deviation h)
  rw [level, ho]

def Headroom (tracks exponent : Nat) : Prop :=
  ∀ samples : List UInt8, samples.length = tracks →
    0 ≤ level exponent samples ∧ level exponent samples ≤ 255

theorem pow_mul_shift (h : exponent ≤ maxAttenuation) : 2 ^ exponent * (128 >>> exponent) = 128 := by
  unfold maxAttenuation at h
  interval_cases exponent <;> rfl

theorem mul_shift_le_iff (h : exponent ≤ maxAttenuation) :
    n * (128 >>> exponent) ≤ 128 ↔ n ≤ 2 ^ exponent := by
  have hm := pow_mul_shift h
  constructor
  · intro hn
    have hp : 0 < 128 >>> exponent := by
      apply Nat.pos_of_ne_zero
      intro h0
      rw [h0] at hm
      cases hm
    exact Nat.le_of_mul_le_mul_right (Nat.le_trans hn (Nat.le_of_eq hm.symm)) hp
  · intro hn
    exact Nat.le_trans (Nat.mul_le_mul_right _ hn) (Nat.le_of_eq hm)

/-- The lowest samples deviate by -128 each, which every exponent in use divides. -/
theorem level_lowest (h : exponent ≤ maxAttenuation) (n : Nat) :
    level exponent (List.replicate n 0) = 128 - ((n * (128 >>> exponent) : Nat) : Int) := by
  have hz : offset exponent 0 = -((128 >>> exponent : Nat) : Int) := by
    unfold maxAttenuation at h
    interval_cases exponent <;> rfl
  rw [level_eq_offsets h, List.map_replicate, List.sum_replicate, hz, nsmul_eq_mul, Nat.cast_mul,
    mul_neg]
  rfl

end Mixer

open Mixer

variable {exponent n : Nat}

/-- Asking for the loudest samples is asking for the number of tracks. -/
theorem fits_iff_le_pow (h : exponent ≤ maxAttenuation) :
    fits n exponent = true ↔ n ≤ 2 ^ exponent := by
  constructor
  · intro hf
    simp only [fits, Bool.and_eq_true, decide_eq_true_eq] at hf
    exact (mul_shift_le_iff h).mp hf.2
  · intro hn
    apply fits_of_le_shift
    rwa [Nat.shiftLeft_eq, Nat.one_mul]

/-- Where the test fails, the lowest samples already leave the range. -/
theorem fits_iff_headroom (h : exponent ≤ maxAttenuation) :
    fits n exponent = true ↔ Headroom n exponent := by
  constructor
  · intro hf samples hn
    obtain ⟨hl, hu⟩ := sum_offsets_bounds h hf (Nat.le_of_eq hn)
    rw [level_eq_offsets h]
    omega
  · intro hr
    have hl := (hr (List.replicate n 0) List.length_replicate).1
    rw [level_lowest h] at hl
    rw [fits_iff_le_pow h, ← mul_shift_le_iff h]
    omega

/-- The mix is the sum itself for every choice of samples just when none leaves the range. -/
theorem fits_iff_mix_eq_level (h : exponent ≤ maxAttenuation) :
    fits n exponent = true ↔
      ∀ samples : List UInt8, samples.length = n →
        ((mix exponent samples).toNat : Int) = level exponent samples := by
  rw [fits_iff_headroom h]
  constructor
  · rintro hr samples rfl
    rw [level_eq_offsets h]
    exact toNat_mix h ((fits_iff_headroom h).mpr hr)
  · intro hm samples hn
    have hs := hm samples hn
    have hb := (mix exponent samples).toNat_lt
    omega

/-- The search for an exponent computes a logarithm, rounded up, and stops at the greatest exponent.
-/
theorem attenuationFor_eq_min_clog (n : Nat) :
    attenuationFor n = min (Nat.clog 2 n) maxAttenuation := by
  unfold attenuationFor
  -- The search does not try the last exponent: it is what is left.
  cases hf : (List.range maxAttenuation).find? (fun e => n ≤ 1 <<< e) with
  | none =>
    have hlast : ¬ n ≤ 2 ^ 6 := by
      simpa using List.find?_range_eq_none.mp hf 6 (by decide)
    rw [← Nat.clog_le_iff_le_pow (by decide)] at hlast
    exact (Nat.min_eq_right (Nat.lt_of_not_le hlast)).symm
  | some e =>
    obtain ⟨he, hmem, hbefore⟩ := List.find?_range_eq_some.mp hf
    have hle : n ≤ 2 ^ e := by simpa [Nat.shiftLeft_eq] using he
    have hlt : e ≤ Nat.clog 2 n := by
      apply Nat.le_of_not_lt
      intro hc
      have hn := hbefore _ hc
      simp [Nat.shiftLeft_eq, Nat.le_pow_clog] at hn
    have hc : Nat.clog 2 n = e :=
      Nat.le_antisymm ((Nat.clog_le_iff_le_pow (by decide)).mpr hle) hlt
    rw [hc, Nat.min_eq_left (Nat.le_of_lt (List.mem_range.mp hmem))]
    rfl

/-- No smaller exponent is safe. -/
theorem isLeast_attenuationFor (h : n ≤ 128) :
    IsLeast {e | e ≤ maxAttenuation ∧ Headroom n e} (attenuationFor n) := by
  have hc : Nat.clog 2 n ≤ maxAttenuation := (Nat.clog_le_iff_le_pow (by decide)).mpr h
  constructor
  · have hle := attenuationFor_le n
    exact ⟨hle, (fits_iff_headroom hle).mp (fits_attenuationFor h)⟩
  · rintro e ⟨he, hr⟩
    rw [attenuationFor_eq_min_clog, Nat.min_eq_left hc, Nat.clog_le_iff_le_pow (by decide),
      ← fits_iff_le_pow he]
    exact (fits_iff_headroom he).mpr hr

namespace Mixer

variable {m : Mixer} {p : Part}

theorem attenuation_after (m : Mixer) (c : Call) : (m.after c).attenuation = m.attenuation := by
  cases c with
  | add p =>
    by_cases hr : m.HasRoom
    · simp only [after, add_of_room hr]
      rfl
    · obtain ⟨e, he⟩ := add_refused hr p
      simp only [after, he]
      rfl
  | next => rfl
  | reset => rfl

/-- No call changes the exponent. -/
theorem attenuation_run (m : Mixer) (calls : List Call) :
    (calls.foldl after m).attenuation = m.attenuation := by
  induction calls generalizing m with
  | nil => rfl
  | cons c calls ih => exact (ih (m.after c)).trans (m.attenuation_after c)

/-- A track is refused for its exponent before the mixer asks whether it is full. -/
theorem add_attenuation_iff {tracks e : Nat} :
    m.add p = .error (.attenuation tracks e) ↔
      fits (m.voices.length + 1) m.attenuation = false ∧
        tracks = m.voices.length + 1 ∧ e = m.attenuation := by
  cases hf : fits (m.voices.length + 1) m.attenuation with
  | false =>
    simp only [add, hf, Bool.not_false, if_true, true_and, Except.error.injEq,
      MixError.attenuation.injEq]
    exact and_congr eq_comm eq_comm
  | true =>
    simp only [add, hf, Bool.not_true, Bool.false_eq_true, if_false, Bool.true_eq_false, false_and,
      iff_false]
    split
    · intro h
      cases h
    · intro h
      cases h

end Mixer

/-- The test of an exponent passes just when every choice of samples adds up to a sample, and then
the mixer gives that sum. Up to 128 tracks, the exponent chosen is the least that passes, and it is
the logarithm of the number of tracks, rounded up. Beyond, no exponent in use passes. So whatever a
mixer was asked before, it refuses a track for its exponent just when some samples of its tracks
could overflow. -/
theorem attenuation_exact_and_least :
    (∀ n exponent, exponent ≤ 7 →
      (fits n exponent = true ↔ Headroom n exponent) ∧
      (fits n exponent = true ↔ ∀ samples : List UInt8, samples.length = n →
        ((mix exponent samples).toNat : Int) = level exponent samples)) ∧
    (∀ n, n ≤ 128 →
      IsLeast {e | e ≤ 7 ∧ Headroom n e} (attenuationFor n) ∧
      (1 ≤ n → attenuationFor n = Nat.clog 2 n)) ∧
    (∀ n, 128 < n → attenuationFor n = 7 ∧ ∀ exponent ≤ 7, ¬ Headroom n exponent) ∧
    ∀ (capacity : Nat) (table : IncrementTable) (samplesPerTick : UInt16) (exponent : Nat)
      (m : Mixer), Mixer.empty capacity table samplesPerTick exponent = .ok m →
      ∀ (calls : List Mixer.Call) (p : Part),
        let now := calls.foldl Mixer.after m
        let tracks := now.voices.length + 1
        (∃ t e, now.add p = .error (.attenuation t e)) ↔
          ∃ samples : List UInt8, samples.length = tracks ∧
            ¬ (0 ≤ level exponent samples ∧ level exponent samples ≤ 255) := by
  refine ⟨?_, ?_, ?_, ?_⟩
  · intro n exponent h
    exact ⟨fits_iff_headroom h, fits_iff_mix_eq_level h⟩
  · intro n h
    refine ⟨isLeast_attenuationFor h, fun _ => ?_⟩
    rw [attenuationFor_eq_min_clog]
    exact Nat.min_eq_left ((Nat.clog_le_iff_le_pow (by decide)).mpr h)
  · intro n h
    refine ⟨?_, ?_⟩
    · have hc : 7 ≤ Nat.clog 2 n := Nat.le_of_lt ((Nat.lt_clog_iff_pow_lt (by decide)).mpr h)
      rw [attenuationFor_eq_min_clog]
      exact Nat.min_eq_right hc
    · intro exponent he hr
      exact Nat.not_le.mpr h (le_of_fits he ((fits_iff_headroom he).mpr hr))
  · intro capacity table samplesPerTick exponent m hm calls p now tracks
    obtain ⟨rfl, he⟩ := Mixer.empty_cases hm
    have ha : now.attenuation = exponent := Mixer.attenuation_run _ calls
    have hf : fits tracks exponent = false ↔ ¬ Headroom tracks exponent := by
      rw [← fits_iff_headroom he, Bool.not_eq_true]
    simp only [Mixer.add_attenuation_iff, ha]
    simp only [Headroom, not_forall, exists_prop] at hf
    rw [← hf]
    exact ⟨fun ⟨_, _, h, _⟩ => h, fun h => ⟨_, _, h, rfl, rfl⟩⟩

/-- An exponent of 1 fits two tracks, and three of the lowest samples are -64 together. -/
theorem attenuation_least_for_two_tracks :
    let p : Part := { stream := [60, 10], generator := .triangle }
    let m : Mixer :=
      { capacity := 8, table := .standard, samplesPerTick := 1, attenuation := 1 }
    let now := [Mixer.Call.add p, .next, .add p].foldl Mixer.after m
    Mixer.empty 8 .standard 1 1 = .ok m ∧ now.voices.length = 2 ∧ Headroom 2 1 ∧
      attenuationFor 2 = Nat.clog 2 2 ∧ attenuationFor 129 = 7 ∧
      level 1 [0, 0, 0] = -64 ∧ ∃ t e, now.add p = .error (.attenuation t e) := by
  intro p m now
  obtain ⟨hexact, hleast, hmost, hadd⟩ := attenuation_exact_and_least
  have hm : Mixer.empty 8 .standard 1 1 = .ok m := rfl
  have hv : now.voices.length = 2 := by decide
  have hl : level 1 [0, 0, 0] = -64 := by decide
  refine ⟨hm, hv, (hexact 2 1 (by decide)).1.mp (by decide), (hleast 2 (by decide)).2 (by decide),
    (hmost 129 (by decide)).1, hl, ?_⟩
  apply (hadd 8 .standard 1 1 m hm [.add p, .next, .add p] p).mpr
  refine ⟨[0, 0, 0], congrArg Nat.succ hv.symm, ?_⟩
  rw [hl]
  decide

end Polysynth
