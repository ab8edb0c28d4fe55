import Mathlib.Algebra.BigOperators.Group.List.Basic
import Mathlib.Algebra.Order.Group.Int
import Mathlib.Tactic.IntervalCases
import Polysynth.Mixer

namespace Polysynth

/-- An exponent that fits some tracks fits fewer. -/
theorem fits_mono {n k exponent : Nat} (hf : fits n exponent = true) (h : k ≤ n) :
    fits k exponent = true := by
  simp only [fits, Bool.and_eq_true, decide_eq_true_eq] at hf ⊢
  exact ⟨Nat.le_trans (Nat.mul_le_mul_right _ h) hf.1,
    Nat.le_trans (Nat.mul_le_mul_right _ h) hf.2⟩

theorem fits_of_le_shift {n exponent : Nat} (h : n ≤ 1 <<< exponent) : fits n exponent = true := by
  rw [Nat.shiftLeft_eq, Nat.one_mul] at h
  have hm (k : Nat) : n * (k >>> exponent) ≤ k := by
    rw [Nat.shiftRight_eq_div_pow]
    exact Nat.le_trans (Nat.mul_le_mul_right _ h) (Nat.mul_div_le k _)
  simp only [fits, Bool.and_eq_true, decide_eq_true_eq]
  exact ⟨hm 127, hm 128⟩

theorem attenuationFor_le (n : Nat) : attenuationFor n ≤ maxAttenuation := by
  unfold attenuationFor
  cases h : (List.range maxAttenuation).find? (fun e => n ≤ 1 <<< e) with
  | none => exact Nat.le_refl _
  | some e => exact Nat.le_of_lt (List.mem_range.mp (List.mem_of_find?_eq_some h))

/-- The exponent chosen for some tracks fits the first of them, as far as any exponent does. -/
theorem fits_attenuationFor_of_le {k n : Nat} (hk : k ≤ 1 <<< maxAttenuation) (hn : k ≤ n) :
    fits k (attenuationFor n) = true := by
  apply fits_of_le_shift
  unfold attenuationFor
  cases hf : (List.range maxAttenuation).find? (fun e => n ≤ 1 <<< e) with
  | none => exact hk
  | some e =>
    have he : n ≤ 1 <<< e := by simpa using List.find?_some hf
    exact Nat.le_trans hn he

/-- The exponent chosen for some tracks fits them, as far as any does. -/
theorem fits_attenuationFor {n : Nat} (h : n ≤ 1 <<< maxAttenuation) :
    fits n (attenuationFor n) = true :=
  fits_attenuationFor_of_le h (Nat.le_refl n)

/-- No exponent in use fits more than 128 tracks: each may deviate by -1 at least. -/
theorem le_of_fits {n exponent : Nat} (h : exponent ≤ maxAttenuation)
    (hf : fits n exponent = true) : n ≤ 128 := by
  have hone : ∀ e ≤ maxAttenuation, 1 ≤ 128 >>> e := by decide
  simp only [fits, Bool.and_eq_true, decide_eq_true_eq] at hf
  calc n = n * 1 := (Nat.mul_one n).symm
    _ ≤ n * (128 >>> exponent) := Nat.mul_le_mul_left n (hone exponent h)
    _ ≤ 128 := hf.2

namespace Mixer

def offset (exponent : Nat) (sample : UInt8) : Int := ((sample.toNat : Int) - 128) / 2 ^ exponent

/-- The sum of deviations as the mixer computes it, in 16 bits. -/
def accumulate (exponent : Nat) (samples : List UInt8) : Int16 :=
  samples.foldl (fun sum s => sum + deviation exponent s) 0

variable {exponent n : Nat} {samples : List UInt8}

theorem toInt_centred (sample : UInt8) :
    (sample.toUInt16.toInt16 - 128).toInt = (sample.toNat : Int) - 128 := by
  have hs := sample.toNat_lt
  have hw : sample.toUInt16.toInt16.toInt = sample.toNat := by
    simp only [Int16.toInt, UInt16.toBitVec_toInt16, UInt8.toBitVec_toUInt16, BitVec.toInt,
      BitVec.toNat_setWidth, UInt8.toNat_toBitVec]
    omega
  rw [Int16.toInt_sub, hw]
  exact Int.bmod_eq_of_le (by simp; omega) (by simp; omega)

/-- A shift of 16-bit deviations rounds down as division of integers does. -/
theorem toInt_deviation (h : exponent ≤ maxAttenuation) (sample : UInt8) :
    (deviation exponent sample).toInt = offset exponent sample := by
  have he : ((Int16.ofNat exponent).toBitVec.smod 16).toNat = exponent := by
    unfold maxAttenuation at h
    interval_cases exponent <;> decide
  change ((sample.toUInt16.toInt16 - 128).toBitVec.sshiftRight' _).toInt = _
  rw [BitVec.toInt_sshiftRight', he, Int.shiftRight_eq_div_pow]
  change (sample.toUInt16.toInt16 - 128).toInt / _ = _
  rw [toInt_centred, offset, Nat.cast_pow]
  rfl

/-- In 16 bits the sum is kept modulo 65536. -/
theorem toInt_accumulate (h : exponent ≤ maxAttenuation) (samples : List UInt8) :
    (accumulate exponent samples).toInt =
      ((samples.map (offset exponent)).sum).bmod (2 ^ 16) := by
  have hk (sum : Int16) : (samples.foldl (fun sum s => sum + deviation exponent s) sum).toInt =
      (sum.toInt + (samples.map (offset exponent)).sum).bmod (2 ^ 16) := by
    induction samples generalizing sum with
    | nil => simp
    | cons s samples ih =>
      rw [List.foldl_cons, ih, Int16.toInt_add, toInt_deviation h, Int.bmod_add_bmod,
        List.map_cons, List.sum_cons, Int.add_assoc]
  rw [accumulate, hk, Int16.toInt_zero, Int.zero_add]

/-- Silence is not in the middle: below it there is one step more than above. -/
theorem offset_bounds (h : exponent ≤ maxAttenuation) (sample : UInt8) :
    -((128 >>> exponent : Nat) : Int) ≤ offset exponent sample ∧
      offset exponent sample ≤ ((127 >>> exponent : Nat) : Int) := by
  have hs := sample.toNat_lt
  unfold maxAttenuation at h
  unfold offset
  interval_cases exponent <;> simp <;> omega

theorem sum_offsets_le (h : exponent ≤ maxAttenuation) (samples : List UInt8) :
    -((samples.length * (128 >>> exponent) : Nat) : Int) ≤ (samples.map (offset exponent)).sum ∧
      (samples.map (offset exponent)).sum ≤ ((samples.length * (127 >>> exponent) : Nat) : Int) := by
  induction samples with
  | nil => simp
  | cons s samples ih =>
    obtain ⟨hl, hu⟩ := offset_bounds h s
    simp only [List.map_cons, List.sum_cons, List.length_cons, Nat.succ_mul, Nat.cast_add] at ih ⊢
    omega

/-- If the exponent fits, the sum of so many samples stays in the range of one. -/
theorem sum_offsets_bounds (h : exponent ≤ maxAttenuation) (hf : fits n exponent = true)
    (hn : samples.length ≤ n) :
    -128 ≤ (samples.map (offset exponent)).sum ∧ (samples.map (offset exponent)).sum ≤ 127 := by
  obtain ⟨hl, hu⟩ := sum_offsets_le h samples
  simp only [fits, Bool.and_eq_true, decide_eq_true_eq] at hf
  have ha := Nat.le_trans (Nat.mul_le_mul_right (127 >>> exponent) hn) hf.1
  have hb := Nat.le_trans (Nat.mul_le_mul_right (128 >>> exponent) hn) hf.2
  omega

/-- Where samples fit, no 16-bit sum of them wraps. -/
theorem toInt_accumulate_of_fits (h : exponent ≤ maxAttenuation) (hf : fits n exponent = true)
    (hn : samples.length ≤ n) :
    (accumulate exponent samples).toInt = (samples.map (offset exponent)).sum := by
  obtain ⟨hl, hu⟩ := sum_offsets_bounds h hf hn
  rw [toInt_accumulate h]
  exact Int.bmod_eq_of_le (by simp; omega) (by simp; omega)

/-- Mixing is exact, since no sum wraps on the way. -/
theorem toNat_mix (h : exponent ≤ maxAttenuation) (hf : fits samples.length exponent = true) :
    ((mix exponent samples).toNat : Int) = 128 + (samples.map (offset exponent)).sum := by
  obtain ⟨hl, hu⟩ := sum_offsets_bounds h hf (Nat.le_refl _)
  have hs : (accumulate exponent samples + 128).toInt =
      128 + (samples.map (offset exponent)).sum := by
    rw [Int16.toInt_add, toInt_accumulate_of_fits h hf (Nat.le_refl _), Int.add_comm]
    exact Int.bmod_eq_of_le (by simp; omega) (by simp; omega)
  change (((accumulate exponent samples + 128).toUInt16.toUInt8).toNat : Int) = _
  rw [UInt16.toNat_toUInt8, ← Int16.toNat_toBitVec]
  rw [Int16.toInt, BitVec.toInt] at hs
  split at hs <;> omega

end Mixer

end Polysynth
