import Mathlib.Data.Nat.ModEq
import Polysynth.Proofs.Holding

namespace Polysynth.Hold

/-- The loop that makes a frame: samples are asked for as long as one is owed. The list is what the
source answered. -/
inductive Settles : Hold → List UInt8 → List (Option UInt8) → Hold → List UInt8 → Prop where
  | made {h : Hold} {source : List UInt8} (within : h.owed < h.deviceRate) :
      Settles h source [] h source
  | ask {h h' : Hold} {source source' : List UInt8} {answers : List (Option UInt8)}
      (due : h.deviceRate ≤ h.owed)
      (more : Settles (h.ask source) source.tail answers h' source') :
      Settles h source (source.head? :: answers) h' source'

def answers (q : Nat) (source : List UInt8) : List (Option UInt8) :=
  (List.range q).map (fun i => source[i]?)

variable {h h' : Hold} {source source' : List UInt8} {found : List (Option UInt8)}

theorem answers_succ (q : Nat) (source : List UInt8) :
    answers (q + 1) source = source.head? :: answers q source.tail := by
  simp [answers, List.range_succ_eq_map, List.head?_eq_getElem?]

/-- The loop asks for as many samples as are owed. -/
theorem settles_asked (hd : 0 < h.deviceRate) (source : List UInt8) :
    Settles h source (answers (h.owed / h.deviceRate) source)
      (asked (h.owed / h.deviceRate) source h) (source.drop (h.owed / h.deviceRate)) := by
  -- Each sample that is asked for takes the quotient down by one, whatever the source answers.
  generalize hq : h.owed / h.deviceRate = q
  induction q generalizing h source with
  | zero =>
    rw [asked_zero]
    exact .made ((Nat.div_eq_zero_iff_lt hd).mp hq)
  | succ q ih =>
    have hle : h.deviceRate ≤ h.owed := by
      apply Nat.le_of_not_lt
      intro hlt
      rw [Nat.div_eq_of_lt hlt] at hq
      cases hq
    have hq' : (h.ask source).owed / h.deviceRate = q := by
      rw [Nat.div_eq_sub_div hd hle] at hq
      exact Nat.succ.inj hq
    rw [answers_succ, asked_succ, ← List.drop_tail]
    exact .ask hle (ih (h := h.ask source) hd source.tail hq')

theorem Settles.unique {found' : List (Option UInt8)} {last last' : Hold}
    {rest rest' : List UInt8} (hs : Settles h source found last rest)
    (hs' : Settles h source found' last' rest') : found = found' ∧ last = last' ∧ rest = rest' := by
  induction hs generalizing found' last' rest' with
  | made within =>
    cases hs' with
    | made => exact ⟨rfl, rfl, rfl⟩
    | ask due => exact absurd within (Nat.not_lt.mpr due)
  | ask due _ ih =>
    cases hs' with
    | made within => exact absurd within (Nat.not_lt.mpr due)
    | ask _ more =>
      obtain ⟨rfl, hl, hr⟩ := ih more
      exact ⟨rfl, hl, hr⟩

/-- The loop ends, and what it leaves is the next frame. -/
theorem Settled.settles_iff (hs : h.Settled) (source : List UInt8) :
    Settles h.owe source found h' source' ↔
      found = answers h.due source ∧ h' = (h.frame source).2.1 ∧
        source' = (h.frame source).2.2 := by
  have hf : Settles h.owe source (answers h.due source) (h.frame source).2.1
      (h.frame source).2.2 := by
    rw [frame_eq]
    exact settles_asked (h := h.owe) hs.device source
  constructor
  · intro hl
    exact hl.unique hf
  · rintro ⟨rfl, rfl, rfl⟩
    exact hf

theorem extend_pulls (n : Nat) {r : Run} (hs : r.hold.Settled) :
    (extend n r).pulls = r.pulls + r.hold.taken n := by
  induction n generalizing r with
  | zero =>
    rw [hs.taken_zero]
    rfl
  | succ n ih =>
    rw [extend_succ, ih (hs.frame r.source), hs.taken_succ n r.source, ← Nat.add_assoc]
    rfl

/-- The samples asked for in two goes. -/
theorem current_asked_add (h : Hold) (source : List UInt8) (q : Nat) :
    (asked (h.due + q) source h).current =
      (asked q (h.frame source).2.2 (h.frame source).2.1).current := by
  cases q with
  | zero => rw [asked_zero, frame_eq]; rfl
  | succ q =>
    have hi : h.due + (q + 1) - 1 = h.due + q := rfl
    simp [asked, frame_eq, hi]

/-- Each frame holds the last sample that was asked for by then. -/
theorem extend_frames (n : Nat) {r : Run} (hs : r.hold.Settled) :
    (extend n r).frames.toList = r.frames.toList ++
      (List.range n).map (fun i => (asked (r.hold.taken (i + 1)) r.source r.hold).current) := by
  induction n generalizing r with
  | zero => simp [extend]
  | succ n ih =>
    have hshift (i : Nat) : (asked (r.hold.taken (i + 1 + 1)) r.source r.hold).current =
        (asked (r.next.hold.taken (i + 1)) r.next.source r.next.hold).current := by
      rw [hs.taken_succ (i + 1) r.source]
      exact current_asked_add r.hold r.source _
    have hfirst : (asked (r.hold.taken (0 + 1)) r.source r.hold).current =
        (r.hold.frame r.source).1 := by
      rw [hs.taken_succ 0 r.source, (hs.frame r.source).taken_zero, frame_eq]
      rfl
    rw [extend_succ, ih (hs.frame r.source), List.range_succ_eq_map, List.map_cons, List.map_map,
      hfirst]
    simp only [Function.comp_def, Nat.succ_eq_add_one, hshift]
    simp [Run.next]

/-- The holds that frames lead to from a fresh one, whatever their sources give. -/
inductive Reached (s d : Nat) : Hold → Prop where
  | start : Reached s d (start s d)
  | frame {h : Hold} (source : List UInt8) (before : Reached s d h) :
      Reached s d (h.frame source).2.1

variable {s d : Nat}

theorem start_eq (hd : 1 ≤ d) :
    start s d = { sourceRate := s, deviceRate := d, owed := d - s } := by
  rw [start, Nat.max_eq_left hd]

theorem Reached.rates (hr : Reached s d h) : h.sourceRate = s ∧ h.deviceRate = max d 1 := by
  induction hr with
  | start => exact ⟨rfl, rfl⟩
  | frame source _ ih =>
    obtain ⟨hs, hd⟩ := rates_frame source _
    exact ⟨hs.trans ih.1, hd.trans ih.2⟩

theorem Reached.settled (hs : 1 ≤ s) (hr : Reached s d h) : h.Settled := by
  induction hr with
  | start => exact settled_start hs d
  | frame source _ ih => exact ih.frame source

theorem taken_start (hd : 1 ≤ d) (n : Nat) : (start s d).taken n = (n * s + (d - s)) / d := by
  rw [start_eq hd, taken, Nat.add_comm]

/-- A fast device asks for a new sample each time the source is one further. -/
theorem taken_start_of_le (hd : 1 ≤ d) (hle : s ≤ d) (i : Nat) :
    (start s d).taken (i + 1) = i * s / d + 1 := by
  have hn : (i + 1) * s + (d - s) = i * s + d := by
    rw [Nat.add_mul]
    omega
  rw [taken_start hd, hn, Nat.add_div_right _ hd]

theorem taken_start_of_lt (hd : 1 ≤ d) (hlt : d < s) (i : Nat) :
    (start s d).taken (i + 1) = (i + 1) * s / d := by
  rw [taken_start hd, Nat.sub_eq_zero_of_le (Nat.le_of_lt hlt), Nat.add_zero]

theorem current_asked_of_pos {q : Nat} (hq : 0 < q) (source : List UInt8) (h : Hold) :
    (asked q source h).current = (source[q - 1]?).getD silence :=
  if_neg (Nat.ne_of_gt hq)

/-- The source sample that a frame of a fresh hold plays. -/
theorem current_asked_start (hd : 1 ≤ d) (source : List UInt8) (i : Nat) :
    (asked ((start s d).taken (i + 1)) source (start s d)).current =
      (source[if s ≤ d then i * s / d else (i + 1) * s / d - 1]?).getD silence := by
  split
  · rename_i hle
    rw [taken_start_of_le hd hle, current_asked_of_pos (Nat.succ_pos _)]
    rfl
  · rename_i hlt
    have hlt : d < s := Nat.lt_of_not_le hlt
    have hp : 0 < (i + 1) * s / d := by
      apply Nat.div_pos _ hd
      exact Nat.le_trans (Nat.le_of_lt hlt) (Nat.le_mul_of_pos_left s (Nat.succ_pos i))
    rw [taken_start_of_lt hd hlt, current_asked_of_pos hp]

theorem frames_start (hs : 1 ≤ s) (hd : 1 ≤ d) (source : List UInt8) (n : Nat) :
    ((start s d).run n source).frames.toList = (List.range n).map (fun i =>
      (source[if s ≤ d then i * s / d else (i + 1) * s / d - 1]?).getD silence) := by
  have hf := extend_frames n
    (r := { frames := #[], pulls := 0, hold := start s d, source := source }) (settled_start hs d)
  simp only [current_asked_start hd] at hf
  exact hf

/-- As many frames as the device has in a second take as many samples as the source has. -/
theorem Settled.taken_deviceRate (hs : h.Settled) : h.taken h.deviceRate = h.sourceRate := by
  rw [taken, Nat.add_mul_div_left _ _ hs.device, Nat.div_eq_of_lt hs.owed, Nat.zero_add]

theorem ceil_le_iff (hs : 1 ≤ s) (a i : Nat) : (a + s - 1) / s ≤ i ↔ a ≤ i * s := by
  rw [Nat.div_le_iff_le_mul_add_pred hs, Nat.mul_comm]
  omega

/-- Between two multiples of `d`, the multiples of `s` number `d / s`, rounded down or up. -/
theorem ceil_add (hs : 1 ≤ s) (a d : Nat) :
    ∃ len, (a + d + s - 1) / s = (a + s - 1) / s + len ∧
      (len = d / s ∨ len = (d + s - 1) / s) := by
  have hsum : a + d + s - 1 = (a + s - 1) + d := by omega
  rw [hsum, Nat.add_div hs, Nat.add_assoc]
  refine ⟨_, rfl, ?_⟩
  split
  · rename_i hcarry
    right
    have hm : 0 < d % s := by
      have := Nat.mod_lt (a + s - 1) hs
      omega
    have hd := Nat.div_add_mod d s
    have hl := Nat.mod_lt d hs
    have hone : d + s - 1 = s * (d / s + 1) + (d % s - 1) := by
      rw [Nat.mul_add, Nat.mul_one]
      omega
    have hrest : (d % s - 1) / s = 0 := Nat.div_eq_of_lt (Nat.lt_of_le_of_lt (Nat.sub_le _ _) hl)
    rw [hone, Nat.mul_add_div hs, hrest]
  · left
    rfl

/-- The frames that play one sample of the source follow each other. -/
theorem held_interval (hs : 1 ≤ s) (hd : 1 ≤ d) (k : Nat) :
    ∃ first len, (len = d / s ∨ len = (d + s - 1) / s) ∧
      ∀ i, i * s / d = k ↔ first ≤ i ∧ i < first + len := by
  obtain ⟨len, hlen, hcases⟩ := ceil_add hs (k * d) d
  refine ⟨(k * d + s - 1) / s, len, hcases, ?_⟩
  intro i
  have hupper := ceil_le_iff hs (k * d + d) i
  rw [hlen, ← Nat.not_lt, ← Nat.not_lt (a := i * s)] at hupper
  rw [ceil_le_iff hs, not_iff_not.mp hupper, ← Nat.succ_mul]
  constructor
  · rintro rfl
    exact ⟨Nat.div_mul_le_self _ _, Nat.lt_mul_of_div_lt (Nat.lt_succ_self _) hd⟩
  · rintro ⟨hl, hu⟩
    exact Nat.div_eq_of_lt_le hl hu

/-- A hold plays, in each frame, the sample that its source has come to by then: the first of the
source in the first frame of a fast device, the last of those due on a slow one, and silence after
the end of the source. So many frames ask for so many samples as the quotient of the times says.
The loop of a frame ends with less than a sample owed, and the sum it begins with fits 32 bits. A
second of the device is a second of the source, wherever it begins. On a fast device each sample is
played for as many frames as go into its time, rounded down or up. -/
theorem rate_conversion_exact (hs : 1 ≤ s) (hd : 1 ≤ d) (hsum : s + d ≤ 2 ^ 32) :
    (∀ (source : List UInt8) (n : Nat),
      let r := (start s d).run n source
      r.frames.toList = (List.range n).map (fun i =>
        (source[if s ≤ d then i * s / d else (i + 1) * s / d - 1]?).getD silence) ∧
      r.pulls = (n * s + (d - s)) / d) ∧
    (∀ h, Reached s d h →
      h.owed < d ∧ h.owed + s < 2 ^ 32 ∧
      (∀ source found h' source', Settles h.owe source found h' source' ↔
        found = answers h.due source ∧ (h'.current, h', source') = h.frame source) ∧
      (∀ source found h' source', Settles h.owe source found h' source' → h'.owed < d) ∧
      ∀ source, (h.run d source).pulls = s) ∧
    (s ≤ d → ∀ k, ∃ first len, (len = d / s ∨ len = (d + s - 1) / s) ∧
      ∀ source i,
        let r := (start s d).run (i + 1) source
        (r.pulls = k + 1 ↔ first ≤ i ∧ i < first + len) ∧
        (r.pulls = k + 1 → r.frames.toList.getLast? = some ((source[k]?).getD silence))) := by
  have hfresh : (start s d).Settled := settled_start hs d
  have hpulls (source : List UInt8) (n : Nat) :
      ((start s d).run n source).pulls = (start s d).taken n := by
    rw [run, extend_pulls n hfresh, Nat.zero_add]
  refine ⟨?_, ?_, ?_⟩
  · intro source n r
    exact ⟨frames_start hs hd source n, (hpulls source n).trans (taken_start hd n)⟩
  · intro h hr
    have ht := hr.settled hs
    obtain ⟨rfl, hrate⟩ := hr.rates
    obtain rfl : h.deviceRate = d := hrate.trans (Nat.max_eq_left hd)
    have ho := ht.owed
    refine ⟨ho, by omega, ?_, ?_, ?_⟩
    · intro source found h' source'
      rw [ht.settles_iff]
      constructor
      · rintro ⟨hfound, rfl, rfl⟩
        exact ⟨hfound, rfl⟩
      · rintro ⟨hfound, he⟩
        obtain ⟨_, he⟩ := Prod.mk.inj he
        exact ⟨hfound, Prod.mk.inj he⟩
    · intro source found h' source' hl
      obtain ⟨_, rfl, _⟩ := ht.settles_iff source |>.mp hl
      rw [← (h.rates_frame source).2]
      exact (ht.frame source).owed
    · intro source
      rw [run, extend_pulls _ ht, ht.taken_deviceRate, Nat.zero_add]
  · intro hle k
    obtain ⟨first, len, hcases, hi⟩ := held_interval hs hd k
    refine ⟨first, len, hcases, ?_⟩
    intro source i r
    have hr : r.pulls = k + 1 ↔ i * s / d = k := by
      rw [hpulls, taken_start_of_le hd hle, Nat.add_right_cancel_iff]
    refine ⟨hr.trans (hi i), ?_⟩
    intro hk
    have hf : r.frames.toList = _ := frames_start hs hd source (i + 1)
    rw [hf, List.range_succ, List.map_append, List.map_singleton, List.getLast?_concat, if_pos hle,
      hr.mp hk]

/-- Eight frames for three samples, of which the source has two. -/
theorem rate_conversion_three_to_eight :
    let r := (start 3 8).run 8 [10, 20]
    r.frames.toList = [10, 10, 10, 20, 20, 20, silence, silence] ∧ r.pulls = 3 ∧
      Reached 3 8 ((start 3 8).frame []).2.1 ∧
      (((start 3 8).frame []).2.1.run 8 [10, 20]).pulls = 3 ∧
      ((start 8 3).run 2 [1, 2, 3, 4, 5]).frames.toList = [2, 5] := by
  intro r
  obtain ⟨hrun, hreached, _⟩ := rate_conversion_exact (s := 3) (d := 8) (by decide) (by decide)
    (by decide)
  obtain ⟨hslow, _⟩ := rate_conversion_exact (s := 8) (d := 3) (by decide) (by decide) (by decide)
  have hr : Reached 3 8 ((start 3 8).frame []).2.1 := .frame [] .start
  obtain ⟨hf, hp⟩ := hrun [10, 20] 8
  exact ⟨hf, hp, hr, (hreached _ hr).2.2.2.2 [10, 20], (hslow [1, 2, 3, 4, 5] 2).1⟩

end Polysynth.Hold
