import Mathlib.Data.Nat.Bitwise
import Mathlib.Data.Nat.Count
import Mathlib.Data.Nat.Factorization.Basic
import Mathlib.Tactic.IntervalCases
import Polysynth.Proofs.Repetition

namespace Polysynth

/-- A draw has a sample as often as the source gives it. -/
theorem count_draw {σ : Type} (next : σ → UInt8 × σ) (n : Nat) (s : σ) (sample : UInt8) :
    (draw next n s).1.toList.count sample =
      Nat.count (fun k => sampleAfter next k s = sample) n := by
  induction n with
  | zero => rfl
  | succ n ih =>
    rw [draw_succ_last, Array.toList_push, List.count_append, ih, Nat.count_succ,
      List.count_singleton]
    simp only [beq_iff_eq]

theorem count_congr {p q : Nat → Prop} [DecidablePred p] [DecidablePred q] (h : ∀ k, p k ↔ q k)
    (n : Nat) : Nat.count p n = Nat.count q n :=
  Nat.le_antisymm (Nat.count_mono_left fun k _ => (h k).mp) (Nat.count_mono_left fun k _ => (h k).mpr)

/-- What changes sides whenever it is moved by `h` holds for half of a period. -/
theorem count_of_flips {p : Nat → Prop} [DecidablePred p] {n h : Nat}
    (hp : ∀ k, p (n + k) ↔ p k) (hf : ∀ k, p (h + k) ↔ ¬ p k) : 2 * Nat.count p n = n := by
  have hmoved : Nat.count (fun k => ¬ p k) n = Nat.count p n := by
    have hh := Nat.count_add p h n
    have hn := Nat.count_add p n h
    rw [count_congr hf, Nat.add_comm] at hh
    rw [count_congr hp] at hn
    omega
  have hboth : Nat.count p n + Nat.count (fun k => ¬ p k) n = n := by
    have hl := List.length_eq_countP_add_countP (fun k => decide (p k)) (l := List.range n)
    rw [List.length_range] at hl
    simpa [Nat.count] using hl.symm
  omega

namespace Wave

def after (g : Generator) (increment : UInt16) (note : UInt8) (w : Wave) (k : Nat) : Wave :=
  (draw (next g increment note) k w).2

/-- The sample that follows `k` others takes the phase past the end of its period, which shows in a
lower phase. -/
def Wraps (g : Generator) (increment : UInt16) (note : UInt8) (w : Wave) (k : Nat) : Prop :=
  (after g increment note w (k + 1)).phase < (after g increment note w k).phase

instance (g : Generator) (increment : UInt16) (note : UInt8) (w : Wave) :
    DecidablePred (Wraps g increment note w) :=
  fun _ => inferInstanceAs (Decidable (_ < _))

variable {g : Generator} {increment : UInt16}

theorem after_succ (hg : g.isTone = true) (note : UInt8) (w : Wave) (k : Nat) :
    (after g increment note w (k + 1)).phase = (after g increment note w k).phase + increment := by
  obtain ⟨level, hn⟩ := next_of_tone hg
  simp only [after, draw_succ_last, hn, tone]

/-- The phase gains the increment, less a full turn where it wraps. -/
theorem phase_step (hg : g.isTone = true) (hi : increment ≠ 0) (note : UInt8) (w : Wave) (k : Nat) :
    (after g increment note w (k + 1)).phase.toNat +
        65536 * (if Wraps g increment note w k then 1 else 0) =
      (after g increment note w k).phase.toNat + increment.toNat := by
  have h0 : increment.toNat ≠ 0 := fun h => hi (UInt16.toNat_inj.mp h)
  have hlt := increment.toNat_lt
  have hp := (after g increment note w k).phase.toNat_lt
  simp only [Wraps, UInt16.lt_iff_toNat_lt, after_succ hg, UInt16.toNat_add]
  split <;> omega

theorem phase_add_wraps (hg : g.isTone = true) (hi : increment ≠ 0) (note : UInt8) (w : Wave)
    (k : Nat) :
    (after g increment note w k).phase.toNat + 65536 * Nat.count (Wraps g increment note w) k =
      w.phase.toNat + k * increment.toNat := by
  induction k with
  | zero => simp [after, draw_zero]
  | succ k ih =>
    have hs := phase_step hg hi note w k
    have hk : (k + 1) * increment.toNat = k * increment.toNat + increment.toNat := Nat.succ_mul _ _
    rw [Nat.count_succ, hk, Nat.mul_add]
    omega

section Run

variable (hg : g.isTone = true) (hi : increment ≠ 0) (note : UInt8) (w : Wave)
include hg hi

theorem toNat_phase (k : Nat) : (after g increment note w k).phase.toNat =
    (w.phase.toNat + k * increment.toNat) % 65536 := by
  have hp := (after g increment note w k).phase.toNat_lt
  rw [← phase_add_wraps hg hi note]
  omega

theorem count_wraps (k : Nat) : Nat.count (Wraps g increment note w) k =
    (w.phase.toNat + k * increment.toNat) / 65536 := by
  have hp := (after g increment note w k).phase.toNat_lt
  rw [← phase_add_wraps hg hi note]
  omega

/-- Between two wraps the phase gains more than a full turn less one increment, and less than a
full turn and one increment. -/
theorem wraps_apart {i j : Nat} (hij : i < j) (hwi : Wraps g increment note w i)
    (hwj : Wraps g increment note w j) (hn : ∀ k, i < k → k < j → ¬ Wraps g increment note w k) :
    j - i = 65536 / increment.toNat ∨ j - i = 65536 / increment.toNat + 1 := by
  obtain ⟨d, rfl⟩ := Nat.exists_eq_add_of_lt hij
  have hbetween : Nat.count (Wraps g increment note w) (i + 1 + d) =
      Nat.count (Wraps g increment note w) (i + 1) := by
    have hnone : Nat.count (fun k => Wraps g increment note w (i + 1 + k)) d = 0 := by
      rw [Nat.count_iff_forall_not]
      intro m hm
      exact hn _ (by omega) (by omega)
    rw [Nat.count_add, hnone, Nat.add_zero]
  have h0 : 0 < increment.toNat := Nat.pos_of_ne_zero fun h => hi (UInt16.toNat_inj.mp h)
  have hfirst := (Nat.count_succ_eq_succ_count_iff (p := Wraps g increment note w)).mpr hwi
  have hlast := (Nat.count_succ_eq_succ_count_iff (p := Wraps g increment note w)).mpr hwj
  rw [Nat.add_right_comm i d 1, hbetween] at hlast
  simp only [count_wraps hg hi, Nat.add_mul, Nat.one_mul] at hfirst hlast hbetween
  have hless : d * increment.toNat < 65536 := by omega
  have hmore : 65536 < (d + 2) * increment.toNat := by
    rw [Nat.add_mul]
    omega
  have hle : d ≤ 65536 / increment.toNat := (Nat.le_div_iff_mul_le h0).mpr (Nat.le_of_lt hless)
  have hlt : 65536 / increment.toNat < d + 2 := (Nat.div_lt_iff_lt_mul h0).mpr hmore
  omega

end Run

theorem squareLevel_eq_high_iff (phase : UInt16) :
    squareLevel phase = highLevel ↔ 32768 ≤ phase.toNat := by
  have hlt := phase.toNat_lt
  have hbit : phase &&& 0x8000 ≠ 0 ↔ 32768 ≤ phase.toNat := by
    have ha : (phase &&& 0x8000).toNat = phase.toNat / 2 ^ 15 % 2 * 2 ^ 15 := by
      rw [UInt16.toNat_and, ← Nat.toNat_testBit]
      exact Nat.and_two_pow phase.toNat 15
    rw [Ne, ← UInt16.toNat_inj, ha, UInt16.toNat_zero]
    omega
  rw [← hbit, squareLevel]
  by_cases h : phase &&& 0x8000 = 0
  · simp [h, highLevel, lowLevel]
  · simp [h]

theorem exists_half_turn (hi : increment ≠ 0) :
    ∃ h a, h * increment.toNat = 32768 + 65536 * a := by
  have h0 : increment.toNat ≠ 0 := fun h => hi (UInt16.toNat_inj.mp h)
  obtain ⟨v, m, ⟨a, rfl⟩, hm⟩ := Nat.exists_eq_two_pow_mul_odd h0
  have hv : v < 16 := by
    rw [← Nat.pow_lt_pow_iff_right Nat.one_lt_two]
    calc 2 ^ v
      _ ≤ increment.toNat := by
        rw [hm]
        exact Nat.le_mul_of_pos_right _ (Nat.succ_pos _)
      _ < 2 ^ 16 := increment.toNat_lt
  have hp : 2 ^ (15 - v) * 2 ^ v = 2 ^ 15 := by
    rw [← Nat.pow_add, Nat.sub_add_cancel (Nat.le_of_lt_succ hv)]
  refine ⟨2 ^ (15 - v), a, ?_⟩
  rw [hm, ← Nat.mul_assoc, hp]
  omega

/-- A square is high for half of all phases that a note runs through. -/
theorem count_high (hi : increment ≠ 0) (note : UInt8) (w : Wave) :
    (draw (next .square increment note) 65536 w).1.toList.count highLevel = 32768 := by
  have hhigh (k : Nat) : sampleAfter (next .square increment note) k w = highLevel ↔
      32768 ≤ (w.phase.toNat + k * increment.toNat) % 65536 := by
    rw [← toNat_phase (g := .square) rfl hi note, ← squareLevel_eq_high_iff]
    rfl
  obtain ⟨h, a, hturn⟩ := exists_half_turn hi
  have hc : 2 * Nat.count
      (fun k => 32768 ≤ (w.phase.toNat + k * increment.toNat) % 65536) 65536 = 65536 := by
    apply count_of_flips (h := h)
    · intro k
      rw [Nat.add_mul]
      omega
    · intro k
      rw [Nat.add_mul, hturn]
      omega
  rw [count_draw, count_congr hhigh]
  omega

/-- A tone moves its phase by its increment, modulo 65536, and wraps as often as the sum reaches a
multiple of it. Wraps are the period of the increment apart, rounded down or one sample more. Over
65536 samples the phase comes back after as many wraps as the increment has, and a square is high
for exactly half of them. -/
theorem tones_keep_pitch (hg : g.isTone = true) (hi : increment ≠ 0) (note : UInt8) (w : Wave) :
    let phase := fun k => (after g increment note w k).phase.toNat
    let wraps := Wraps g increment note w
    (∀ k, phase k = (w.phase.toNat + k * increment.toNat) % 65536 ∧
      Nat.count wraps k = (w.phase.toNat + k * increment.toNat) / 65536) ∧
    (∀ i j, i < j → wraps i → wraps j → (∀ k, i < k → k < j → ¬ wraps k) →
      j - i = 65536 / increment.toNat ∨ j - i = 65536 / increment.toNat + 1) ∧
    (∀ i, phase (i + 65536) = phase i ∧
      Nat.count wraps (i + 65536) = Nat.count wraps i + increment.toNat) ∧
    (g = .square → ∀ i,
      (draw (next g increment note) 65536 (after g increment note w i)).1.toList.count highLevel =
        32768) := by
  intro phase wraps
  refine ⟨?_, ?_, ?_, ?_⟩
  · intro k
    exact ⟨toNat_phase hg hi note w k, count_wraps hg hi note w k⟩
  · intro i j hij hwi hwj hn
    exact wraps_apart hg hi note w hij hwi hwj hn
  · intro i
    simp only [phase, wraps, toNat_phase hg hi, count_wraps hg hi, Nat.add_mul]
    omega
  · rintro rfl i
    exact count_high hi note _

/-- An even increment that does not divide a full turn, from a phase that wraps at once: the next
wrap is eleven samples later, where ten and two thirds would be the period. -/
theorem tones_keep_pitch_even :
    let w : Wave := { phase := 60000 }
    let wraps := Wraps .square 6144 0 w
    Generator.isTone .square = true ∧ (6144 : UInt16) ≠ 0 ∧
      (after .square 6144 0 w 12).phase.toNat = 2656 ∧ Nat.count wraps 12 = 2 ∧
      (wraps 0 ∧ wraps 11 ∧ ∀ k, 0 < k → k < 11 → ¬ wraps k) ∧
      (11 - 0 = 65536 / 6144 ∨ 11 - 0 = 65536 / 6144 + 1) ∧
      Nat.count wraps (5 + 65536) = Nat.count wraps 5 + 6144 ∧
      (draw (next .square 6144 0) 65536 (after .square 6144 0 w 5)).1.toList.count highLevel =
        32768 := by
  intro w wraps
  have hg : Generator.isTone .square = true := rfl
  have hi : (6144 : UInt16) ≠ 0 := by decide
  obtain ⟨hrun, hapart, hround, hhalf⟩ := tones_keep_pitch hg hi 0 w
  have h0 : wraps 0 := by decide
  have h11 : wraps 11 := by decide
  have hn : ∀ k, 0 < k → k < 11 → ¬ wraps k := by
    intro k hpos hlt
    interval_cases k <;> decide
  obtain ⟨hp, hc⟩ := hrun 12
  exact ⟨hg, hi, hp.trans (by decide), hc.trans (by decide), ⟨h0, h11, hn⟩,
    hapart 0 11 (by decide) h0 h11 hn, (hround 5).2, hhalf rfl 5⟩

end Wave

end Polysynth
