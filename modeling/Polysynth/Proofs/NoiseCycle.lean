import Mathlib.Algebra.Ring.Periodic
import Mathlib.Dynamics.PeriodicPts.Lemmas
import Mathlib.Tactic.NormNum.Prime
import Mathlib.Tactic.Ring
import Polysynth.Wave

namespace Polysynth

namespace Wave

open Function

/-- The bits of a register that its next bits come from. -/
def feedback (word : UInt16) : BitVec 15 := word.toBitVec.setWidth 15

def turn (tap : Nat) (s : BitVec 15) : BitVec 15 :=
  s.shiftConcat (s.getLsbD 14 ^^ s.getLsbD tap)

theorem feedback_shift {tap : UInt16} (ht : tap.toNat < 15) (word : UInt16) :
    feedback (shift tap word) = turn tap.toNat (feedback word) := by
  have h16 : tap.toNat % 16 = tap.toNat := by omega
  ext i hi
  cases i with
  | zero => simp [feedback, shift, turn, h16, ht, BitVec.getElem_shiftConcat]
  | succ i => simp [feedback, shift, turn, h16, ht]

section Turn

variable (tap : Nat) (s t : BitVec 15)

theorem turn_first : (turn tap s).getLsbD 0 = (s.getLsbD 14 ^^ s.getLsbD tap) := by
  rw [turn, BitVec.getLsbD_shiftConcat]
  rfl

theorem turn_later {i : Nat} (hi : i < 14) : (turn tap s).getLsbD (i + 1) = s.getLsbD i := by
  rw [turn, BitVec.getLsbD_shiftConcat, decide_eq_true (Nat.succ_lt_succ hi)]
  rfl

/-- A turn respects exclusive or, which makes algebra of the search for its cycle. -/
theorem turn_xor : turn tap (s ^^^ t) = turn tap s ^^^ turn tap t := by
  apply BitVec.eq_of_getLsbD_eq
  intro i hi
  cases i with
  | zero =>
    simp only [BitVec.getLsbD_xor, turn_first]
    rw [Bool.xor_assoc, Bool.xor_left_comm (t.getLsbD 14), ← Bool.xor_assoc]
  | succ i => simp only [BitVec.getLsbD_xor, turn_later tap _ (Nat.lt_of_succ_lt_succ hi)]

theorem turn_zero : turn tap 0 = 0 := by
  have h := turn_xor tap 0 0
  rwa [BitVec.xor_self, BitVec.xor_self] at h

variable {tap}

/-- The one bit that a turn drops can be told from the new bit. -/
theorem turn_injective (ht : tap < 14) : Injective (turn tap) := by
  intro s t h
  have hlow : ∀ i < 14, s.getLsbD i = t.getLsbD i := by
    intro i hi
    rw [← turn_later tap s hi, h, turn_later tap t hi]
  have hlast : s.getLsbD 14 = t.getLsbD 14 := by
    have hf := turn_first tap s
    rw [h, turn_first, hlow tap ht] at hf
    simpa using hf.symm
  apply BitVec.eq_of_getLsbD_eq
  intro i hi
  rcases Nat.lt_or_eq_of_le (Nat.le_of_lt_succ hi) with hi | rfl
  · exact hlow i hi
  · exact hlast

/-- Bits move up one place a turn. -/
theorem iterate_turn_later (k : Nat) {i j n m : Nat} (hn : n = k + j) (hm : m = i + j)
    (h : m < 15) : ((turn tap)^[n] s).getLsbD m = ((turn tap)^[k] s).getLsbD i := by
  subst hn hm
  induction j with
  | zero => rfl
  | succ j ih =>
    rw [← Nat.add_assoc, ← Nat.add_assoc, iterate_succ_apply', turn_later tap _ (by omega),
      ih (by omega)]

/-- Fifteen turns have replaced every bit by the sum of two others. -/
theorem iterate_turn_fifteen (ht : tap ≤ 14) :
    (turn tap)^[15] s = (turn tap)^[14 - tap] s ^^^ s := by
  apply BitVec.eq_of_getLsbD_eq
  intro i hi
  have hnew : ((turn tap)^[15] s).getLsbD i = ((turn tap)^[14 - i + 1] s).getLsbD 0 :=
    iterate_turn_later s _ (j := i) (by omega) (by omega) hi
  have hlast : ((turn tap)^[14 - i] s).getLsbD 14 = s.getLsbD i :=
    iterate_turn_later s 0 (j := 14 - i) (by omega) (by omega) (by omega)
  have htap : ((turn tap)^[14 - i] s).getLsbD tap = ((turn tap)^[14 - tap] s).getLsbD i := by
    rcases Nat.le_total i tap with h | h
    · exact iterate_turn_later s _ (j := tap - i) (by omega) (by omega) (by omega)
    · exact (iterate_turn_later s _ (j := i - tap) (by omega) (by omega) (by omega)).symm
  rw [hnew, iterate_succ_apply', turn_first, hlast, htap, BitVec.getLsbD_xor, Bool.xor_comm]

theorem iterate_turn_xor (k : Nat) :
    (turn tap)^[k] (s ^^^ t) = (turn tap)^[k] s ^^^ (turn tap)^[k] t := by
  induction k generalizing s t with
  | zero => rfl
  | succ k ih => rw [iterate_succ_apply, turn_xor, ih, iterate_succ_apply, iterate_succ_apply]

end Turn

theorem xor_through (x y z : BitVec 15) : (x ^^^ y) ^^^ (y ^^^ z) = x ^^^ z := by
  rw [BitVec.xor_assoc, ← BitVec.xor_assoc y, BitVec.xor_self, BitVec.zero_xor]

/-- An equation between numbers of turns may be doubled: in a square the mixed terms cancel. -/
theorem iterate_turn_double {tap a b c : Nat}
    (h : ∀ s, (turn tap)^[a] s = (turn tap)^[b] s ^^^ (turn tap)^[c] s) (s : BitVec 15) :
    (turn tap)^[2 * a] s = (turn tap)^[2 * b] s ^^^ (turn tap)^[2 * c] s := by
  have hbc : (turn tap)^[c] ((turn tap)^[b] s) = (turn tap)^[b] ((turn tap)^[c] s) := by
    rw [← iterate_add_apply, ← iterate_add_apply, Nat.add_comm]
  simp only [Nat.two_mul, iterate_add_apply]
  rw [h, h, iterate_turn_xor, iterate_turn_xor, hbc, xor_through]

/-- The recurrence of the long tap, doubled `i` times. The terms between cancel each other. -/
theorem iterate_turn_pow (i : Nat) (s : BitVec 15) :
    (turn 13)^[2 ^ (i + 4)] s = (turn 13)^[2 ^ (i + 1)] s ^^^ (turn 13)^[2 ^ i] s := by
  induction i generalizing s with
  | zero => exact iterate_turn_fifteen (turn 13 s) (Nat.le_succ 13)
  | succ i ih =>
    have h := iterate_turn_double ih s
    simpa only [Nat.pow_succ, Nat.mul_comm 2] using h

/-- With the long tap, a turn that is doubled fifteen times is itself. -/
theorem iterate_turn_full (s : BitVec 15) : (turn 13)^[2 ^ 15] s = turn 13 s := by
  have hfour (i : Nat) := iterate_turn_pow i s
  have height (i : Nat) :
      (turn 13)^[2 ^ (i + 8)] s = (turn 13)^[2 ^ (i + 2)] s ^^^ (turn 13)^[2 ^ i] s := by
    rw [hfour (i + 4), hfour (i + 1), hfour i, xor_through]
  calc (turn 13)^[2 ^ 15] s
    _ = ((turn 13)^[2 ^ 3] s ^^^ (turn 13)^[2 ^ 1] s) ^^^
          ((turn 13)^[2 ^ 4] s ^^^ (turn 13)^[2 ^ 3] s) := by rw [height 7, height 1, hfour 3]
    _ = (turn 13)^[2 ^ 4] s ^^^ (turn 13)^[2 ^ 1] s := by rw [BitVec.xor_comm, xor_through]
    _ = turn 13 s := by
      rw [hfour 0, BitVec.xor_comm, ← BitVec.xor_assoc, BitVec.xor_self, BitVec.zero_xor]
      rfl

/-- A period is the least one if none of its quotients by a prime is a period. -/
theorem minimalPeriod_eq_of_prime_quotients {α : Type} {f : α → α} {x : α} {n : Nat}
    (h : IsPeriodicPt f n x) (hp : ∀ p, p.Prime → p ∣ n → ¬ IsPeriodicPt f (n / p) x) :
    minimalPeriod f x = n := by
  obtain ⟨k, hk⟩ := h.minimalPeriod_dvd
  by_contra hne
  have hk1 : k ≠ 1 := by
    rintro rfl
    exact hne (hk.trans (Nat.mul_one _)).symm
  obtain ⟨p, hpp, q, rfl⟩ := Nat.exists_prime_and_dvd hk1
  have hn : n = p * (minimalPeriod f x * q) := by
    rw [hk]
    ac_rfl
  apply hp p hpp ⟨_, hn⟩
  rw [isPeriodicPt_iff_minimalPeriod_dvd, hn, Nat.mul_div_cancel_left _ hpp.pos]
  exact Nat.dvd_mul_right _ _

/-- The full cycle closes by `iterate_turn_full`, so only the three greatest divisors of its length
are to be ruled out. -/
theorem minimalPeriod_turn_long : minimalPeriod (turn 13) 1 = 32767 := by
  apply minimalPeriod_eq_of_prime_quotients
  · have hi : Injective (turn 13) := turn_injective (by decide)
    exact hi ((iterate_succ_apply' (turn 13) 32767 1).symm.trans (iterate_turn_full 1))
  · intro p hp hd
    have hf : 32767 = 7 * 31 * 151 := rfl
    rw [hf, hp.dvd_mul, hp.dvd_mul, Nat.prime_dvd_prime_iff_eq hp (by norm_num),
      Nat.prime_dvd_prime_iff_eq hp (by norm_num), Nat.prime_dvd_prime_iff_eq hp (by norm_num)] at hd
    rcases hd with (rfl | rfl) | rfl
    · change (turn 13)^[4681] 1 ≠ 1
      decide +kernel
    · change (turn 13)^[1057] 1 ≠ 1
      decide +kernel
    · change (turn 13)^[217] 1 ≠ 1
      decide +kernel

/-- With the short tap, the cycle is short enough to be run through. -/
theorem minimalPeriod_turn_short : minimalPeriod (turn 8) 1 = 93 := by
  apply minimalPeriod_eq_of_prime_quotients
  · change (turn 8)^[93] 1 = 1
    decide +kernel
  · intro p hp hd
    have hf : 93 = 3 * 31 := rfl
    rw [hf, hp.dvd_mul, Nat.prime_dvd_prime_iff_eq hp (by norm_num),
      Nat.prime_dvd_prime_iff_eq hp (by norm_num)] at hd
    rcases hd with rfl | rfl
    · change (turn 8)^[31] 1 ≠ 1
      decide +kernel
    · change (turn 8)^[3] 1 ≠ 1
      decide +kernel

section Clock

variable {tap : UInt16} {cycle : Nat}

theorem feedback_clocks (ht : tap.toNat < 15) (j : Nat) (word : UInt16) :
    feedback ((clock tap)^[j] word) = ((turn tap.toNat)^[8])^[j] (feedback word) := by
  have hs : Semiconj feedback (shift tap) (turn tap.toNat) := feedback_shift ht
  exact (hs.iterate_right 8).iterate_right j word

theorem feedback_eq_zero_iff (word : UInt16) : feedback word = 0 ↔ word &&& 0x7fff = 0 := by
  have hf : (feedback word).toNat = word.toNat % 2 ^ 15 := by simp [feedback]
  have ha : (word &&& 0x7fff).toNat = word.toNat % 2 ^ 15 := by
    rw [UInt16.toNat_and]
    exact Nat.and_two_pow_sub_one_eq_mod word.toNat 15
  rw [← BitVec.toNat_inj, ← UInt16.toNat_inj, hf, ha]
  rfl

/-- A register that has not died stays alive. -/
theorem clocks_ne_zero (ht : tap.toNat < 14) {word : UInt16} (h : word &&& 0x7fff ≠ 0) (j : Nat) :
    (clock tap)^[j] word &&& 0x7fff ≠ 0 := by
  rw [Ne, ← feedback_eq_zero_iff] at h ⊢
  have hi : Injective ((turn tap.toNat)^[8])^[j] := ((turn_injective ht).iterate 8).iterate j
  have h0 : ((turn tap.toNat)^[8])^[j] 0 = 0 := iterate_fixed (iterate_fixed (turn_zero _) 8) j
  intro hz
  rw [feedback_clocks (Nat.lt_succ_of_lt ht)] at hz
  exact h (hi (hz.trans h0.symm))

def level (tap : UInt16) (j : Nat) : UInt8 := ((clock tap)^[j] 1).toUInt8

theorem toUInt8_eq_feedback (word : UInt16) : word.toUInt8 = ⟨(feedback word).setWidth 8⟩ := by
  apply UInt8.toBitVec_inj.mp
  simp [feedback]

theorem level_eq_turns (ht : tap.toNat < 15) (j : Nat) :
    level tap j = ⟨(((turn tap.toNat)^[8])^[j] 1).setWidth 8⟩ := by
  rw [level, toUInt8_eq_feedback, feedback_clocks ht]
  rfl

/-- Eight turns move the low byte up and bring a new one, so two bytes in a row tell all bits. -/
theorem turn_eight_eq {tap : Nat} {s t : BitVec 15} (h : s.setWidth 8 = t.setWidth 8)
    (hn : ((turn tap)^[8] s).setWidth 8 = ((turn tap)^[8] t).setWidth 8) :
    (turn tap)^[8] s = (turn tap)^[8] t := by
  have hbit {s t : BitVec 15} (h : s.setWidth 8 = t.setWidth 8) {i : Nat} (hi : i < 8) :
      s.getLsbD i = t.getLsbD i := by
    have hb := congrArg (BitVec.getLsbD · i) h
    simpa [BitVec.getLsbD_setWidth, hi] using hb
  apply BitVec.eq_of_getLsbD_eq
  intro i hi
  rcases Nat.lt_or_ge i 8 with h8 | h8
  · exact hbit hn h8
  · rw [iterate_turn_later s 0 (i := i - 8) (j := 8) rfl (by omega) hi,
      iterate_turn_later t 0 (i := i - 8) (j := 8) rfl (by omega) hi]
    exact hbit h (by omega)

/-- What is heard of a register comes round when the register does, and not before. -/
theorem periodic_level_iff (ht : tap.toNat < 14) (hm : minimalPeriod (turn tap.toNat) 1 = cycle)
    (hc : cycle.Coprime 8) (q : Nat) : Periodic (level tap) q ↔ cycle ∣ q := by
  have hlevel := level_eq_turns (Nat.lt_succ_of_lt ht)
  have hmin : minimalPeriod (turn tap.toNat)^[8] 1 = cycle := by
    rw [minimalPeriod_iterate_eq_div_gcd (by decide), hm, hc, Nat.div_one]
  rw [← hmin, ← isPeriodicPt_iff_minimalPeriod_dvd]
  constructor
  · intro h
    have hlow (j : Nat) : (((turn tap.toNat)^[8])^[j + q] 1).setWidth 8 =
        (((turn tap.toNat)^[8])^[j] 1).setWidth 8 := by
      have hj := h j
      rw [hlevel, hlevel] at hj
      exact congrArg UInt8.toBitVec hj
    have hfirst := hlow 0
    have hsecond := hlow 1
    rw [Nat.zero_add] at hfirst
    rw [Nat.add_comm, iterate_succ_apply'] at hsecond
    exact (turn_injective ht).iterate 8 (turn_eight_eq hfirst hsecond)
  · intro h j
    rw [hlevel, hlevel, iterate_add_apply, h]

end Clock

/-- A cycle whose levels are held for some samples each, the first of them for one less, has the
periods of the cycle stretched, and no others. -/
theorem periodic_held_iff {α : Type} {level : Nat → α} {cycle hold : Nat} (hc : 1 < cycle)
    (hh : 0 < hold) (h : ∀ q, Periodic level q ↔ cycle ∣ q) (q : Nat) :
    Periodic (fun k => level ((k + 1) / hold)) q ↔ cycle * hold ∣ q := by
  constructor
  · intro hq
    -- The first samples of the holds are moved by the whole holds that `q` has room for.
    have hstart (j : Nat) (hj : 1 ≤ j) : level (j + q / hold) = level j := by
      have hk := hq (j * hold - 1)
      have h1 : 1 ≤ j * hold := Nat.mul_pos hj hh
      have hs : j * hold - 1 + q + 1 = q + j * hold := by omega
      simpa only [hs, Nat.sub_add_cancel h1, Nat.add_mul_div_right _ _ hh, Nat.mul_div_left _ hh,
        Nat.add_comm (q / hold)] using hk
    have hwhole : Periodic level (q / hold) := by
      have hcycle := (h cycle).mpr (Nat.dvd_refl cycle)
      intro j
      rw [← hcycle, Nat.add_right_comm, hstart _ (by omega), hcycle]
    obtain ⟨a, ha⟩ := (h _).mp hwhole
    have hparts := Nat.div_add_mod q hold
    rcases Nat.eq_zero_or_pos (q % hold) with hr | hr
    · refine ⟨a, ?_⟩
      rw [hr, ha, Nat.add_zero] at hparts
      rw [← hparts]
      ring
    · -- A rest would move some samples by one hold more, and then the level would never change.
      have hmore : Periodic level (q / hold + 1) := by
        intro j
        have hlt := Nat.mod_lt q hh
        have hk := hq (j * hold + (hold - q % hold) - 1)
        have hs : j * hold + (hold - q % hold) - 1 + q + 1 = (j + (q / hold + 1)) * hold := by
          rw [Nat.add_mul, Nat.add_mul, Nat.one_mul, Nat.mul_comm (q / hold)]
          omega
        have hd : (j * hold + (hold - q % hold) - 1 + 1) / hold = j := by
          rw [Nat.sub_add_cancel (by omega)]
          apply Nat.div_eq_of_lt_le
          · omega
          · rw [Nat.succ_mul]
            omega
        simpa only [hs, hd, Nat.mul_div_left _ hh] using hk
      have hone : cycle ∣ 1 := (Nat.dvd_add_right ⟨a, ha⟩).mp ((h _).mp hmore)
      exact absurd (Nat.le_of_dvd Nat.one_pos hone) (Nat.not_le.mpr hc)
  · rintro ⟨m, rfl⟩ k
    have hs : k + cycle * hold * m + 1 = k + 1 + cycle * m * hold := by ring
    dsimp only
    rw [hs, Nat.add_mul_div_right _ _ hh]
    exact (h _).mpr (Nat.dvd_mul_right _ _) _

/-- A wave after `k` samples whose increments may all differ. -/
def swept (g : Generator) (note : UInt8) (increments : Nat → UInt16) : Nat → Wave
  | 0 => {}
  | k + 1 => (next g (increments k) note (swept g note increments k)).2

def sweptSample (g : Generator) (note : UInt8) (increments : Nat → UInt16) (k : Nat) : UInt8 :=
  (next g (increments k) note (swept g note increments k)).1

def held (tap : UInt16) (note : UInt8) (k : Nat) : Wave where
  phase := UInt16.ofNat (k % (note.toNat + 1))
  noise := (clock tap)^[k / (note.toNat + 1)] 1

/-- A note stretches the clock to `note + 1` samples. -/
theorem hiss_held (tap : UInt16) (note : UInt8) (k : Nat) :
    hiss tap note (held tap note k) =
      (level tap ((k + 1) / (note.toNat + 1)), held tap note (k + 1)) := by
  have hn := note.toNat_lt
  have hpos : 0 < note.toNat + 1 := Nat.succ_pos _
  have hr := Nat.mod_lt k hpos
  have hk := Nat.div_add_mod k (note.toNat + 1)
  have hphase : ((held tap note k).phase + 1).toNat = k % (note.toNat + 1) + 1 := by
    simp [held]
    omega
  have hlt : note.toUInt16 < (held tap note k).phase + 1 ↔ k % (note.toNat + 1) = note.toNat := by
    rw [UInt16.lt_iff_toNat_lt, hphase, UInt8.toNat_toUInt16]
    omega
  unfold hiss
  dsimp only
  by_cases h : k % (note.toNat + 1) = note.toNat
  · obtain ⟨hd, hm⟩ : (k + 1) / (note.toNat + 1) = k / (note.toNat + 1) + 1 ∧
        (k + 1) % (note.toNat + 1) = 0 := by
      rw [Nat.div_mod_unique hpos, Nat.mul_add]
      omega
    rw [if_pos (hlt.mpr h), level, held, held, hd, hm, iterate_succ_apply']
    rfl
  · obtain ⟨hd, hm⟩ : (k + 1) / (note.toNat + 1) = k / (note.toNat + 1) ∧
        (k + 1) % (note.toNat + 1) = k % (note.toNat + 1) + 1 := by
      rw [Nat.div_mod_unique hpos]
      omega
    rw [if_neg (hlt.not.mpr h), level, hd]
    simp only [held, hd, hm]
    congr 2
    apply UInt16.toNat_inj.mp
    simp

end Wave

/-- The tap of a generator of noise, and after how many clocks its register comes round. -/
def Generator.register? : Generator → Option (UInt16 × Nat)
  | noise93 => some (Wave.shortTap, 93)
  | noise32k => some (Wave.longTap, 32767)
  | saw | triangle | square => none

namespace Wave

open Function

variable {g : Generator} {tap : UInt16} {cycle : Nat}

theorem register_cases (h : g.register? = some (tap, cycle)) :
    (∀ increment, next g increment = hiss tap) ∧ tap.toNat < 14 ∧ 1 < cycle ∧
      cycle.Coprime 8 ∧ minimalPeriod (turn tap.toNat) 1 = cycle := by
  cases g with
  | noise93 =>
    cases h
    exact ⟨fun _ => rfl, by decide, by decide, by decide, minimalPeriod_turn_short⟩
  | noise32k =>
    cases h
    exact ⟨fun _ => rfl, by decide, by decide, by decide, minimalPeriod_turn_long⟩
  | saw | triangle | square => cases h

/-- Noise has no use for the increment. -/
theorem swept_eq_held (hg : ∀ increment, next g increment = hiss tap) (note : UInt8)
    (increments : Nat → UInt16) (k : Nat) : swept g note increments k = held tap note k := by
  induction k with
  | zero => simp [swept, held]
  | succ k ih => rw [swept, ih, hg, hiss_held]

/-- Noise gives the low byte of its register, clocked once for every `note + 1` samples, whatever
the increments are. Its samples repeat from the first on, after so many for each clock of the cycle
and no sooner. The bits that are fed back never all become zero. -/
theorem noise_follows_register (h : g.register? = some (tap, cycle)) (note : UInt8)
    (increments : Nat → UInt16) :
    (∀ k, sweptSample g note increments k =
      ((clock tap)^[(k + 1) / (note.toNat + 1)] 1).toUInt8) ∧
    IsLeast {q | 0 < q ∧ Periodic (sweptSample g note increments) q} (cycle * (note.toNat + 1)) ∧
    ∀ word : UInt16, word &&& 0x7fff ≠ 0 → ∀ j, (clock tap)^[j] word &&& 0x7fff ≠ 0 := by
  obtain ⟨hg, ht, hc, hcoprime, hm⟩ := register_cases h
  have hs (k : Nat) :
      sweptSample g note increments k = level tap ((k + 1) / (note.toNat + 1)) := by
    rw [sweptSample, swept_eq_held hg, hg, hiss_held]
  have hp := periodic_held_iff hc (Nat.succ_pos note.toNat) (periodic_level_iff ht hm hcoprime)
  refine ⟨hs, ⟨⟨Nat.mul_pos (by omega) (Nat.succ_pos _), ?_⟩, ?_⟩, ?_⟩
  · rw [funext hs, hp]
  · rintro q ⟨hq, hperiod⟩
    rw [funext hs, hp] at hperiod
    exact Nat.le_of_dvd hq hperiod
  · intro word hw j
    exact clocks_ne_zero ht hw j

/-- The long register under the highest note, with an increment that grows and wraps; and a
register whose one bit beyond those fed back is set. -/
theorem noise_follows_register_highest :
    let samples := sweptSample .noise32k 255 UInt16.ofNat
    Generator.register? .noise32k = some (longTap, 32767) ∧
      (∀ k, samples k = ((clock longTap)^[(k + 1) / 256] 1).toUInt8) ∧
      IsLeast {q | 0 < q ∧ Periodic samples q} 8388352 ∧
      (0x8001 : UInt16) &&& 0x7fff ≠ 0 ∧ ∀ j, (clock longTap)^[j] 0x8001 &&& 0x7fff ≠ 0 := by
  intro samples
  have hr : Generator.register? .noise32k = some (longTap, 32767) := rfl
  obtain ⟨hs, hp, ha⟩ := noise_follows_register hr 255 UInt16.ofNat
  have hw : (0x8001 : UInt16) &&& 0x7fff ≠ 0 := by decide
  exact ⟨hr, hs, hp, hw, ha 0x8001 hw⟩

end Wave

end Polysynth
