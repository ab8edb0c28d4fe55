import Polysynth.Proofs.Interleaving

namespace Polysynth

inductive Signal where
  | interrupt
  | claim
  | publish
  deriving DecidableEq

/-- A sample published late, and the next one right behind it. -/
def hurried : List Signal := [.interrupt, .publish, .claim, .publish]

theorem concat_suffix_concat (ts us : List Signal) (t u : Signal) :
    ts ++ [t] <:+ us ++ [u] ↔ t = u ∧ ts <:+ us := by
  rw [← List.reverse_prefix, List.reverse_concat, List.reverse_concat, List.cons_prefix_cons,
    List.reverse_prefix]

theorem suffix_concat_self (ts us : List Signal) (t : Signal) :
    ts ++ [t] <:+ us ++ [t] ↔ ts <:+ us := by
  rw [concat_suffix_concat]
  exact and_iff_right rfl

theorem not_suffix_concat (ts us : List Signal) {t u : Signal} (h : t ≠ u) :
    ¬ ts ++ [t] <:+ us ++ [u] := by
  rw [concat_suffix_concat]
  exact fun hs => h hs.1

/-- A hurried run ends with a publish. -/
theorem hurried_infix_publish (ts : List Signal) :
    hurried <:+: ts ++ [.publish] ↔ [.interrupt, .publish, .claim] <:+ ts ∨ hurried <:+: ts := by
  rw [List.infix_concat_iff]
  exact or_congr_left (suffix_concat_self [.interrupt, .publish, .claim] ts .publish)

theorem hurried_infix_other (ts : List Signal) {t : Signal} (h : .publish ≠ t) :
    hurried <:+: ts ++ [t] ↔ hurried <:+: ts := by
  rw [List.infix_concat_iff]
  exact or_iff_right (not_suffix_concat [.interrupt, .publish, .claim] ts h)

open Moment

namespace Watch

variable {σ : Type} {next : σ → UInt8 × σ} {s : σ} {w w' : Watch σ} {ts : List Signal}

/-- The signals of a run, the first of them in front, and where they lead. -/
inductive Trace (next : σ → UInt8 × σ) (s : σ) : List Signal → Watch σ → Prop where
  | start : Trace next s [] { handoff := { source := s }, computing := true }
  | interrupt {ts : List Signal} {w : Watch σ} (h : Trace next s ts w) :
      Trace next s (ts ++ [.interrupt]) w.interrupt
  | claim {ts : List Signal} {w : Watch σ} {slot : Slot} (h : Trace next s ts w)
      (idle : w.computing = false) (asked : w.handoff.slot.claim? = some slot) :
      Trace next s (ts ++ [.claim]) (w.claim slot)
  | publish {ts : List Signal} {w : Watch σ} (h : Trace next s ts w) (busy : w.computing = true) :
      Trace next s (ts ++ [.publish]) (w.publish next)

theorem Trace.reach (h : Trace next s ts w) : Reach next s w := by
  induction h with
  | start => exact .start
  | interrupt _ ih => exact ih.step (.interrupt _)
  | claim _ idle asked ih => exact ih.step (.claim idle asked)
  | publish _ busy ih => exact ih.step (.publish busy)

theorem Trace.step (h : Trace next s ts w) (hs : Step next w w') :
    ∃ t, Trace next s (ts ++ [t]) w' := by
  cases hs with
  | interrupt => exact ⟨_, h.interrupt⟩
  | claim idle asked => exact ⟨_, h.claim idle asked⟩
  | publish busy => exact ⟨_, h.publish busy⟩

/-- Every run has its signals. -/
theorem reach_iff_trace : Reach next s w ↔ ∃ ts, Trace next s ts w := by
  constructor
  · intro h
    induction h with
    | start => exact ⟨[], .start⟩
    | step _ hs ih =>
      obtain ⟨ts, ht⟩ := ih
      obtain ⟨t, ht⟩ := ht.step hs
      exact ⟨_, ht⟩
  · rintro ⟨ts, ht⟩
    exact ht.reach

structure Told (ts : List Signal) (w : Watch σ) : Prop where
  busy_ready : w.computing = true → (w.handoff.slot.ready = true ↔ [.interrupt] <:+ ts)
  busy_fresh : w.computing = true →
    (w.handoff.slot.fresh = true ↔ [.interrupt, .publish, .claim] <:+ ts)
  idle_fresh : w.computing = false → (w.handoff.slot.fresh = true ↔ [.publish] <:+ ts)
  idle_ready : w.computing = false → w.handoff.slot.fresh = true →
    (w.handoff.slot.ready = true ↔ [.interrupt, .publish] <:+ ts)

namespace Told

theorem start (s : σ) : Told [] { handoff := { source := s }, computing := true } where
  busy_ready _ := by simp
  busy_fresh _ := by simp
  idle_fresh hc := nomatch hc
  idle_ready hc := nomatch hc

theorem interrupt (ts : List Signal) (w : Watch σ) : Told (ts ++ [.interrupt]) w.interrupt where
  busy_ready _ := iff_of_true rfl (List.suffix_append ts _)
  busy_fresh _ :=
    iff_of_false Bool.false_ne_true (not_suffix_concat [.interrupt, .publish] ts (by decide))
  idle_fresh _ := iff_of_false Bool.false_ne_true (not_suffix_concat [] ts (by decide))
  idle_ready _ hf := nomatch hf

theorem claim (h : Told ts w) {slot : Slot} (idle : w.computing = false)
    (asked : w.handoff.slot.claim? = some slot) : Told (ts ++ [.claim]) (w.claim slot) := by
  obtain ⟨hr, rfl⟩ := Slot.claim?_cases asked
  refine ⟨?_, ?_, ?_, ?_⟩
  · intro _
    exact iff_of_false Bool.false_ne_true (not_suffix_concat [] ts (by decide))
  · intro _
    apply Iff.trans _ (suffix_concat_self [.interrupt, .publish] ts .claim).symm
    constructor
    · intro hf
      exact (h.idle_ready idle hf).mp hr
    · intro hs
      apply (h.idle_fresh idle).mpr
      exact (List.suffix_cons _ _).trans hs
  · intro hc
    cases hc
  · intro hc
    cases hc

theorem publish (h : Told ts w) (busy : w.computing = true) :
    Told (ts ++ [.publish]) (w.publish next) where
  busy_ready hc := nomatch hc
  busy_fresh hc := nomatch hc
  idle_fresh _ := iff_of_true rfl (List.suffix_append ts _)
  idle_ready _ _ := (h.busy_ready busy).trans (suffix_concat_self [.interrupt] ts .publish).symm

theorem of_trace (h : Trace next s ts w) : Told ts w := by
  induction h with
  | start => exact start s
  | interrupt => exact interrupt _ _
  | claim _ idle asked ih => exact ih.claim idle asked
  | publish _ busy ih => exact ih.publish busy

end Told

/-- A sample is lost where the main loop hurries, and nowhere else. -/
theorem overwritten_eq_zero_iff (h : Trace next s ts w) :
    w.past.countP overwrites = 0 ↔ ¬ hurried <:+: ts := by
  induction h with
  | start => simp [hurried]
  | @interrupt ts w _ ih =>
    rw [Balanced.overwrites_interrupt, hurried_infix_other ts (by decide)]
    exact ih
  | @claim ts w slot _ _ _ ih =>
    rw [hurried_infix_other ts (by decide)]
    exact ih
  | @publish ts w h busy ih =>
    have hf := (Told.of_trace h).busy_fresh busy
    rw [Balanced.overwrites_publish, hurried_infix_publish, ← hf, Nat.add_eq_zero_iff, ih, not_or,
      and_comm, Bool.toNat_eq_zero, Bool.not_eq_true]

/-- What was emitted fresh and what waits are all that was published if nothing was overwritten. -/
theorem emitted_eq_published_iff (h : Reach next s w) :
    gather freshEmission? w.past ++ w.waiting = gather publication? w.past ↔
      w.past.countP overwrites = 0 := by
  have hp := (Balanced.of_reach h).published
  rw [← length_waiting] at hp
  constructor
  · intro hg
    have hl := congrArg List.length hg
    rw [List.length_append] at hl
    omega
  · intro h0
    apply (InOrder.of_reach h).sublist.eq_of_length
    rw [List.length_append]
    omega

/-- A sample overwrites one that was never emitted exactly when that one was published late, after
an interrupt had come while it was computed, and no interrupt has come since. A run in which the
main loop never hurries like that emits its source without a gap, and only such a run does. So no
sample is lost while interrupts come only when the main loop computes nothing. -/
theorem overwritten_exactly_when_hurried (next : σ → UInt8 × σ) (s : σ) :
    (∀ w : Watch σ, Reach next s w ↔ ∃ ts, Trace next s ts w) ∧
    ∀ (ts : List Signal) (w : Watch σ), Trace next s ts w →
      let overwritten := w.past.countP overwrites
      let published := (gather publication? w.past).length
      (w.computing = true →
        (w.handoff.slot.fresh = true ↔ [.interrupt, .publish, .claim] <:+ ts)) ∧
      (overwritten = 0 ↔ ¬ hurried <:+: ts) ∧
      (gather freshEmission? w.past ++ w.waiting = (draw next published s).1.toList ↔
        ¬ hurried <:+: ts) ∧
      (¬ [.interrupt, .publish] <:+: ts → overwritten = 0) := by
  refine ⟨fun w => reach_iff_trace, ?_⟩
  intro ts w h overwritten published
  have ho := overwritten_eq_zero_iff h
  refine ⟨(Told.of_trace h).busy_fresh, ho, ?_, ?_⟩
  · rw [← (Faithful.of_reach h.reach).published_eq, emitted_eq_published_iff h.reach]
    exact ho
  · intro hq
    apply ho.mpr
    intro hh
    exact hq (List.IsInfix.trans ⟨[], [.claim, .publish], rfl⟩ hh)

/-- A late sample is emitted if an interrupt comes before the next sample is published, and all of
the source is. -/
theorem overwritten_never_by_patient_loop :
    let next : Nat → UInt8 × Nat := fun n => (UInt8.ofNat n, n + 1)
    let ts : List Signal :=
      [.publish, .interrupt, .claim, .interrupt, .publish, .interrupt, .claim, .publish, .interrupt]
    ∃ w : Watch Nat, Trace next 5 ts w ∧ ¬ hurried <:+: ts ∧ w.handoff.emitted = #[5, 5, 6, 7] ∧
      w.past.countP overwrites = 0 ∧
      gather freshEmission? w.past ++ w.waiting = (draw next 3 5).1.toList := by
  intro next ts
  have ht : Trace next 5 ts _ :=
    (((((Trace.start.publish rfl).interrupt.claim rfl rfl).interrupt.publish rfl).interrupt.claim
      rfl rfl).publish rfl).interrupt
  have hh : ¬ hurried <:+: ts := by decide
  obtain ⟨_, ho, hg, _⟩ := (overwritten_exactly_when_hurried next 5).2 ts _ ht
  exact ⟨_, ht, hh, rfl, ho.mpr hh, hg.mpr hh⟩

/-- An interrupt comes while the second sample is computed, and the main loop polls twice before
the next interrupt. The source gives 5, 6 and 7, and 6 is never emitted. -/
theorem late_sample_overwritten :
    let next : Nat → UInt8 × Nat := fun n => (UInt8.ofNat n, n + 1)
    let primed := ({ source := 5 } : Handoff Nat).prime next 0
    let h := [Turn.interrupt, .poll 1, .poll 0, .interrupt].foldl (Turn.take next) primed
    h.source = 8 ∧ h.emitted = #[5, 5, 7] ∧
      ∃ past, Reach next 5 ⟨h, false, past⟩ ∧ .published 7 true ∈ past ∧
        past.countP overwrites = 1 := by
  intro next primed h
  have hr : Reach next 5 ⟨h, false, _⟩ :=
    (((((((Reach.start.step (.publish rfl)).step (.interrupt _)).step (.claim rfl rfl)).step
      (.interrupt _)).step (.publish rfl)).step (.claim rfl rfl)).step (.publish rfl)).step
      (.interrupt _)
  exact ⟨rfl, rfl, _, hr, by decide, rfl⟩

end Watch

end Polysynth
