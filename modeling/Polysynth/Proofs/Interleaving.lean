import Polysynth.Handoff
import Polysynth.Proofs.Drawing

namespace Polysynth

/-- A sample emitted or published, and whether the slot was fresh until then. -/
inductive Moment where
  | emitted (sample : UInt8) (fresh : Bool)
  | published (sample : UInt8) (fresh : Bool)
  deriving DecidableEq

namespace Moment

def emission? : Moment → Option UInt8
  | emitted x _ => some x
  | published _ _ => none

def freshEmission? : Moment → Option UInt8
  | emitted x fresh => if fresh then some x else none
  | published _ _ => none

def publication? : Moment → Option UInt8
  | emitted _ _ => none
  | published x _ => some x

/-- The interrupt found nothing new. -/
def late : Moment → Bool
  | emitted _ fresh => !fresh
  | published _ _ => false

/-- The sample published before was never emitted. -/
def overwrites : Moment → Bool
  | emitted _ _ => false
  | published _ fresh => fresh

end Moment

open Moment

/-- The samples picked from a past that begins with its latest moment, in the order they came. -/
def gather (pick : Moment → Option UInt8) (past : List Moment) : List UInt8 :=
  (past.filterMap pick).reverse

theorem gather_cons (pick : Moment → Option UInt8) (m : Moment) (past : List Moment) :
    gather pick (m :: past) = gather pick past ++ (pick m).toList := by
  cases h : pick m <;> simp [gather, h]

/-- An emission is fresh, or it is late and counted. -/
theorem length_emissions (past : List Moment) :
    (gather emission? past).length =
      (gather freshEmission? past).length + past.countP late := by
  induction past with
  | nil => rfl
  | cons m past ih =>
    rw [gather_cons, gather_cons, List.length_append, List.length_append, List.countP_cons, ih]
    cases m with
    | emitted x fresh =>
      cases fresh <;> simp [emission?, freshEmission?, late] <;> omega
    | published x fresh => simp [emission?, freshEmission?, late]

theorem emissions_eq_fresh {past : List Moment} (h : past.countP late = 0) :
    gather emission? past = gather freshEmission? past := by
  induction past with
  | nil => rfl
  | cons m past ih =>
    rw [List.countP_cons, Nat.add_eq_zero_iff] at h
    rw [gather_cons, gather_cons, ih h.1]
    cases m with
    | emitted x fresh =>
      cases fresh with
      | false => simp [late] at h
      | true => rfl
    | published x fresh => rfl

structure Watch (σ : Type) where
  handoff : Handoff σ
  computing : Bool
  past : List Moment := []

namespace Watch

variable {σ : Type}

def interrupt (w : Watch σ) : Watch σ where
  handoff := w.handoff.interrupt
  computing := w.computing
  past := .emitted w.handoff.slot.held w.handoff.slot.fresh :: w.past

def claim (slot : Slot) (w : Watch σ) : Watch σ where
  handoff := { w.handoff with slot := slot }
  computing := true
  past := w.past

def publish (next : σ → UInt8 × σ) (w : Watch σ) : Watch σ where
  handoff := w.handoff.compute next 0
  computing := false
  past := .published (next w.handoff.source).1 w.handoff.slot.fresh :: w.past

def interrupts : Nat → Watch σ → Watch σ
  | 0, w => w
  | n + 1, w => w.interrupt.interrupts n

def answer (next : σ → UInt8 × σ) (during : Nat) (w : Watch σ) : Watch σ :=
  (w.interrupts during).publish next

/-- An interrupt comes at any time. The main loop claims a request only when it computes nothing. -/
inductive Step (next : σ → UInt8 × σ) : Watch σ → Watch σ → Prop where
  | interrupt (w : Watch σ) : Step next w w.interrupt
  | claim {w : Watch σ} {slot : Slot} (idle : w.computing = false)
      (asked : w.handoff.slot.claim? = some slot) : Step next w (w.claim slot)
  | publish {w : Watch σ} (busy : w.computing = true) : Step next w (w.publish next)

inductive Reach (next : σ → UInt8 × σ) (s : σ) : Watch σ → Prop where
  | start : Reach next s { handoff := { source := s }, computing := true }
  | step {w w' : Watch σ} : Reach next s w → Step next w w' → Reach next s w'

end Watch

inductive Turn where
  | interrupt
  | poll (during : Nat)

namespace Turn

variable {σ : Type}

def take (next : σ → UInt8 × σ) (h : Handoff σ) : Turn → Handoff σ
  | interrupt => h.interrupt
  | poll during => (h.poll next during).2

def watch (next : σ → UInt8 × σ) (w : Watch σ) : Turn → Watch σ
  | interrupt => w.interrupt
  | poll during =>
    match w.handoff.slot.claim? with
    | none => w
    | some slot => (w.claim slot).answer next during

end Turn

theorem Slot.claim?_cases {slot claimed : Slot} (h : slot.claim? = some claimed) :
    slot.ready = true ∧ claimed = { slot with ready := false } := by
  unfold claim? at h
  split at h
  · next hr => exact ⟨hr, (Option.some.inj h).symm⟩
  · cases h

namespace Handoff

variable {σ : Type}

/-- Interrupts leave the source alone, so the sample being computed does not depend on them. -/
theorem source_interrupts (n : Nat) (h : Handoff σ) : (h.interrupts n).source = h.source := by
  induction n generalizing h with
  | zero => rfl
  | succ n ih => exact ih h.interrupt

/-- A poll that finds a request takes it back before it computes. -/
theorem poll_of_ready {h : Handoff σ} (hr : h.slot.ready = true) (next : σ → UInt8 × σ)
    (during : Nat) :
    h.poll next during =
      (true, { h with slot := { h.slot with ready := false } }.compute next during) := by
  rw [poll, Slot.claim?, if_pos hr]

theorem poll_of_not_ready {h : Handoff σ} (hr : h.slot.ready = false) (next : σ → UInt8 × σ)
    (during : Nat) : h.poll next during = (false, h) := by
  rw [poll, Slot.claim?, hr]
  rfl

end Handoff

namespace Watch

variable {σ : Type} {next : σ → UInt8 × σ} {s : σ} {w w' : Watch σ}

theorem handoff_interrupts (n : Nat) (w : Watch σ) :
    (w.interrupts n).handoff = w.handoff.interrupts n := by
  induction n generalizing w with
  | zero => rfl
  | succ n ih => exact ih w.interrupt

theorem computing_interrupts (n : Nat) (w : Watch σ) :
    (w.interrupts n).computing = w.computing := by
  induction n generalizing w with
  | zero => rfl
  | succ n ih => exact ih w.interrupt

theorem source_interrupts (n : Nat) (w : Watch σ) :
    (w.interrupts n).handoff.source = w.handoff.source := by
  rw [handoff_interrupts, Handoff.source_interrupts]

theorem handoff_answer (next : σ → UInt8 × σ) (during : Nat) (w : Watch σ) :
    (w.answer next during).handoff = w.handoff.compute next during := by
  rw [answer, publish, handoff_interrupts]
  rfl

/-- The steps of a turn do to the hand-off what the turn does. -/
theorem handoff_watch (next : σ → UInt8 × σ) (w : Watch σ) (t : Turn) :
    (t.watch next w).handoff = t.take next w.handoff := by
  cases t with
  | interrupt => rfl
  | poll during =>
    unfold Turn.watch Turn.take Handoff.poll
    cases w.handoff.slot.claim? with
    | none => rfl
    | some slot => exact handoff_answer next during _

namespace Reach

theorem interrupts (hr : Reach next s w) (n : Nat) : Reach next s (w.interrupts n) := by
  induction n generalizing w with
  | zero => exact hr
  | succ n ih => exact ih (hr.step (.interrupt _))

theorem answer (hr : Reach next s w) (hc : w.computing = true) (during : Nat) :
    Reach next s (w.answer next during) :=
  (hr.interrupts during).step (.publish ((computing_interrupts during w).trans hc))

theorem watch (hr : Reach next s w) (hi : w.computing = false) (t : Turn) :
    Reach next s (t.watch next w) ∧ (t.watch next w).computing = false := by
  cases t with
  | interrupt => exact ⟨hr.step (.interrupt _), hi⟩
  | poll during =>
    cases hc : w.handoff.slot.claim? with
    | none =>
      simp only [Turn.watch, hc]
      exact ⟨hr, hi⟩
    | some slot =>
      simp only [Turn.watch, hc]
      exact ⟨(hr.step (.claim hi hc)).answer rfl during, rfl⟩

/-- Turns of the program are runs of steps. -/
theorem turns (hr : Reach next s w) (hi : w.computing = false) (ts : List Turn) :
    Reach next s (ts.foldl (Turn.watch next) w) ∧
      (ts.foldl (Turn.watch next) w).computing = false ∧
      (ts.foldl (Turn.watch next) w).handoff = ts.foldl (Turn.take next) w.handoff := by
  induction ts generalizing w with
  | nil => exact ⟨hr, hi, rfl⟩
  | cons t ts ih =>
    obtain ⟨ht, hj⟩ := hr.watch hi t
    rw [List.foldl_cons, List.foldl_cons, ← handoff_watch]
    exact ih ht hj

/-- What holds at the start and is kept by every step holds of every run. -/
theorem keeps {kept : Watch σ → Prop}
    (start : kept { handoff := { source := s }, computing := true })
    (step : ∀ {w w'}, kept w → Step next w w' → kept w') (h : Reach next s w) : kept w := by
  induction h with
  | start => exact start
  | step _ hs ih => exact step ih hs

end Reach

def waiting (w : Watch σ) : List UInt8 :=
  if w.handoff.slot.fresh then [w.handoff.slot.held] else []

theorem length_waiting (w : Watch σ) : w.waiting.length = w.handoff.slot.fresh.toNat := by
  rw [waiting]
  cases w.handoff.slot.fresh <;> rfl

theorem emissions_interrupt (w : Watch σ) :
    gather emission? w.interrupt.past = gather emission? w.past ++ [w.handoff.slot.held] :=
  gather_cons _ _ _

/-- What waits is emitted fresh by the next interrupt. -/
theorem fresh_interrupt (w : Watch σ) :
    gather freshEmission? w.interrupt.past = gather freshEmission? w.past ++ w.waiting := by
  rw [interrupt, gather_cons, freshEmission?, waiting]
  cases w.handoff.slot.fresh <;> rfl

theorem published_interrupt (w : Watch σ) :
    gather publication? w.interrupt.past = gather publication? w.past := by
  rw [interrupt, gather_cons]
  exact List.append_nil _

theorem emissions_publish (w : Watch σ) :
    gather emission? (w.publish next).past = gather emission? w.past := by
  rw [publish, gather_cons]
  exact List.append_nil _

theorem fresh_publish (w : Watch σ) :
    gather freshEmission? (w.publish next).past = gather freshEmission? w.past := by
  rw [publish, gather_cons]
  exact List.append_nil _

theorem published_publish (w : Watch σ) :
    gather publication? (w.publish next).past =
      gather publication? w.past ++ [(next w.handoff.source).1] :=
  gather_cons _ _ _

theorem emissions_answer (during : Nat) (w : Watch σ) :
    (gather emission? (w.answer next during).past).length =
      (gather emission? w.past).length + during := by
  rw [answer, emissions_publish]
  induction during generalizing w with
  | zero => rfl
  | succ n ih =>
    rw [interrupts, ih w.interrupt, emissions_interrupt, List.length_append, List.length_singleton]
    omega

/-- One poll publishes one sample, however many interrupts come meanwhile. -/
theorem published_answer (during : Nat) (w : Watch σ) :
    gather publication? (w.answer next during).past =
      gather publication? w.past ++ [(next w.handoff.source).1] := by
  rw [answer, published_publish, source_interrupts]
  congr 1
  induction during generalizing w with
  | zero => rfl
  | succ n ih => rw [interrupts, ih w.interrupt, published_interrupt]

theorem held_answer (during : Nat) (w : Watch σ) :
    (w.answer next during).handoff.slot.held = (next w.handoff.source).1 := by
  rw [← source_interrupts during w]
  rfl

structure Faithful (next : σ → UInt8 × σ) (s : σ) (w : Watch σ) : Prop where
  emitted : w.handoff.emitted.toList = gather emission? w.past
  drawn : draw next (gather publication? w.past).length s =
    ((gather publication? w.past).toArray, w.handoff.source)
  held : w.handoff.slot.held = (gather publication? w.past).getLastD silence
  latest : ∀ {after x fresh before}, w.past = after ++ .emitted x fresh :: before →
    x = (gather publication? before).getLastD silence

namespace Faithful

theorem start (next : σ → UInt8 × σ) (s : σ) :
    Faithful next s { handoff := { source := s }, computing := true } where
  emitted := rfl
  drawn := rfl
  held := rfl
  latest := by
    intro after x fresh before h
    cases after <;> cases h

theorem interrupt (h : Faithful next s w) : Faithful next s w.interrupt where
  emitted := by
    rw [emissions_interrupt, ← h.emitted]
    exact Array.toList_push
  drawn := by
    rw [published_interrupt]
    exact h.drawn
  held := by
    rw [published_interrupt]
    exact h.held
  latest := by
    intro after x fresh before hp
    cases after with
    | nil =>
      cases hp
      exact h.held
    | cons m after => exact h.latest (List.cons.inj hp).2

/-- The source gives next the sample after all that were published. -/
theorem upcoming (h : Faithful next s w) :
    sampleAfter next (gather publication? w.past).length s = (next w.handoff.source).1 := by
  rw [sampleAfter, h.drawn]

theorem publish (h : Faithful next s w) : Faithful next s (w.publish next) where
  emitted := by
    rw [emissions_publish]
    exact h.emitted
  drawn := by
    rw [published_publish, List.length_append, List.length_singleton, draw_succ_last, h.upcoming,
      h.drawn, List.push_toArray]
    rfl
  held := by
    rw [published_publish, List.getLastD_concat]
    rfl
  latest := by
    intro after x fresh before hp
    cases after with
    | nil => cases hp
    | cons m after => exact h.latest (List.cons.inj hp).2

theorem step (h : Faithful next s w) (hs : Step next w w') : Faithful next s w' := by
  cases hs with
  | interrupt => exact h.interrupt
  | claim _ asked =>
    obtain ⟨_, rfl⟩ := Slot.claim?_cases asked
    exact ⟨h.emitted, h.drawn, h.held, h.latest⟩
  | publish => exact h.publish

theorem of_reach (h : Reach next s w) : Faithful next s w :=
  h.keeps (start next s) Faithful.step

end Faithful

structure InOrder (w : Watch σ) : Prop where
  sublist : (gather freshEmission? w.past ++ w.waiting).Sublist (gather publication? w.past)
  renewed : ∀ {after x before}, w.past = after ++ .emitted x true :: before →
    w.handoff.slot.fresh = true → gather publication? after ≠ []
  once : ∀ {after x between y before},
    w.past = after ++ .emitted x true :: (between ++ .emitted y true :: before) →
      gather publication? between ≠ []

namespace InOrder

theorem start (s : σ) : InOrder { handoff := { source := s }, computing := true } where
  sublist := List.Sublist.refl _
  renewed := by
    intro after x before hp
    cases after <;> cases hp
  once := by
    intro after x between y before hp
    cases after <;> cases hp

theorem interrupt (h : InOrder w) : InOrder w.interrupt where
  sublist := by
    have hw : w.interrupt.waiting = [] := rfl
    rw [fresh_interrupt, published_interrupt, hw, List.append_nil]
    exact h.sublist
  renewed := by
    intro after x before _ hf
    cases hf
  once := by
    intro after x between y before hp
    cases after with
    | nil =>
      -- The emission is this one, and it found what was published since the one before it.
      obtain ⟨hm, hp⟩ := List.cons.inj hp
      exact h.renewed hp (Moment.emitted.inj hm).2
    | cons m after => exact h.once (List.cons.inj hp).2

theorem publish (h : InOrder w) : InOrder (w.publish next) where
  sublist := by
    have hw : (w.publish next).waiting = [(next w.handoff.source).1] := rfl
    rw [fresh_publish, published_publish, hw]
    have hs : (gather freshEmission? w.past).Sublist (gather publication? w.past) :=
      (List.sublist_append_left _ _).trans h.sublist
    exact hs.append (List.Sublist.refl _)
  renewed := by
    intro after x before hp _
    cases after with
    | nil => cases hp
    | cons m after =>
      obtain ⟨rfl, _⟩ := List.cons.inj hp
      rw [gather_cons]
      exact List.append_ne_nil_of_right_ne_nil _ (List.cons_ne_nil _ _)
  once := by
    intro after x between y before hp
    cases after with
    | nil => cases hp
    | cons m after => exact h.once (List.cons.inj hp).2

theorem step (h : InOrder w) (hs : Step next w w') : InOrder w' := by
  cases hs with
  | interrupt => exact h.interrupt
  | claim _ asked =>
    obtain ⟨_, rfl⟩ := Slot.claim?_cases asked
    exact ⟨h.sublist, h.renewed, h.once⟩
  | publish => exact h.publish

theorem of_reach (h : Reach next s w) : InOrder w :=
  h.keeps (start s) InOrder.step

end InOrder

/-- The overrun set aside for a sample that may yet be overwritten: the held one, or the one being
computed while a request for the next is pending. -/
def credit (w : Watch σ) : Nat :=
  if w.computing then (w.handoff.slot.fresh || w.handoff.slot.ready).toNat
  else (w.handoff.slot.fresh && w.handoff.slot.ready).toNat

/-- Each sample published is emitted, overwritten or waiting, and overruns pay for overwriting. -/
structure Balanced (w : Watch σ) : Prop where
  overruns : w.handoff.slot.overruns = UInt32.ofNat (w.past.countP late)
  published : (gather publication? w.past).length =
    (gather freshEmission? w.past).length + w.past.countP overwrites + w.handoff.slot.fresh.toNat
  paid : w.past.countP overwrites + w.credit ≤ w.past.countP late
  busy : w.computing = true → w.handoff.slot.fresh = true → w.handoff.slot.ready = false
  idle : w.computing = false → w.handoff.slot.fresh = false → w.handoff.slot.ready = true

namespace Balanced

theorem start (s : σ) : Balanced { handoff := { source := s }, computing := true } where
  overruns := rfl
  published := rfl
  paid := Nat.le_refl _
  busy := by
    intro _ hf
    cases hf
  idle := by
    intro hc
    cases hc

theorem late_interrupt (w : Watch σ) :
    w.interrupt.past.countP late = w.past.countP late + (!w.handoff.slot.fresh).toNat := by
  rw [Watch.interrupt, List.countP_cons, late]
  cases w.handoff.slot.fresh <;> rfl

theorem overwrites_interrupt (w : Watch σ) :
    w.interrupt.past.countP overwrites = w.past.countP overwrites := rfl

theorem late_publish (w : Watch σ) :
    (w.publish next).past.countP late = w.past.countP late := rfl

theorem overwrites_publish (w : Watch σ) :
    (w.publish next).past.countP overwrites =
      w.past.countP overwrites + w.handoff.slot.fresh.toNat := by
  rw [Watch.publish, List.countP_cons, overwrites]
  cases w.handoff.slot.fresh <;> rfl

/-- An interrupt that finds nothing fresh is counted. What it asks for may be answered twice, and
then the count pays for the sample overwritten. -/
theorem interrupt (h : Balanced w) : Balanced w.interrupt where
  overruns := by
    have ho : w.interrupt.handoff.slot.overruns =
        if w.handoff.slot.fresh then w.handoff.slot.overruns else w.handoff.slot.overruns + 1 := rfl
    rw [ho, late_interrupt, h.overruns]
    cases w.handoff.slot.fresh with
    | true => rfl
    | false => exact (UInt32.ofNat_add _ _).symm
  published := by
    have hf : w.interrupt.handoff.slot.fresh = false := rfl
    rw [published_interrupt, fresh_interrupt, List.length_append, length_waiting,
      overwrites_interrupt, hf, h.published]
    simp only [Bool.toNat_false]
    omega
  paid := by
    have hc : w.interrupt.credit = w.computing.toNat := by
      rw [credit]
      cases hc : w.computing <;> simp [Watch.interrupt, Handoff.interrupt, Slot.interrupt, hc]
    have hp := h.paid
    rw [overwrites_interrupt, hc, late_interrupt]
    revert hp
    unfold credit
    cases w.computing <;> cases w.handoff.slot.fresh <;> simp <;> omega
  busy := by
    intro _ hf
    cases hf
  idle := by
    intro _ _
    rfl

theorem claim (h : Balanced w) {slot : Slot} (hi : w.computing = false)
    (hs : w.handoff.slot.claim? = some slot) : Balanced (w.claim slot) := by
  obtain ⟨hr, rfl⟩ := Slot.claim?_cases hs
  refine ⟨h.overruns, h.published, ?_, ?_, ?_⟩
  · have hp := h.paid
    simp only [credit, hi, hr, Bool.and_true, Bool.false_eq_true, ↓reduceIte] at hp
    simpa [credit, Watch.claim] using hp
  · intro _ _
    rfl
  · intro hc
    cases hc

/-- Only a request that was made while a sample was computed has that sample overwritten, and the
interrupt that made it was late. -/
theorem publish (h : Balanced w) (hb : w.computing = true) : Balanced (w.publish next) where
  overruns := h.overruns
  published := by
    have hf : (w.publish next).handoff.slot.fresh = true := rfl
    rw [published_publish, fresh_publish, overwrites_publish, List.length_append, h.published, hf]
    simp only [List.length_singleton, Bool.toNat_true]
    omega
  paid := by
    have hc : (w.publish next).credit = w.handoff.slot.ready.toNat := rfl
    have hp := h.paid
    have hn := h.busy hb
    rw [overwrites_publish, late_publish, hc]
    simp only [credit, hb, ↓reduceIte] at hp
    -- What overwrites a waiting sample leaves no request pending, and so needs no credit after it.
    cases hf : w.handoff.slot.fresh with
    | false => simpa [hf] using hp
    | true => simpa [hf, hn hf] using hp
  busy := by
    intro hc
    cases hc
  idle := by
    intro _ hf
    cases hf

theorem step (h : Balanced w) (hs : Step next w w') : Balanced w' := by
  cases hs with
  | interrupt => exact h.interrupt
  | claim idle asked => exact h.claim idle asked
  | publish busy => exact h.publish busy

theorem of_reach (h : Reach next s w) : Balanced w :=
  h.keeps (start s) Balanced.step

/-- The counter has 32 bits, so it tells the overruns of so many interrupts and no more. -/
theorem toNat_overruns (h : Balanced w) (hn : (gather emission? w.past).length < UInt32.size) :
    w.handoff.slot.overruns.toNat = w.past.countP late := by
  have hl := length_emissions w.past
  rw [h.overruns]
  exact UInt32.toNat_ofNat_of_lt' (by omega)

theorem overwritten_le (h : Balanced w) : w.past.countP overwrites ≤ w.past.countP late :=
  Nat.le_trans (Nat.le_add_right _ _) h.paid

end Balanced

theorem Faithful.published_eq (h : Faithful next s w) : gather publication? w.past =
    (draw next (gather publication? w.past).length s).1.toList := by
  rw [h.drawn]

/-- Without an overrun nothing was overwritten, and all that was published but for the sample that
waits was emitted. -/
theorem emissions_of_no_late (hr : Reach next s w) (hl : w.past.countP late = 0) :
    gather emission? w.past = (draw next (gather emission? w.past).length s).1.toList := by
  have hb := Balanced.of_reach hr
  have ho := hb.overwritten_le
  have hp : gather freshEmission? w.past ++ w.waiting = gather publication? w.past := by
    apply (InOrder.of_reach hr).sublist.eq_of_length
    rw [List.length_append, length_waiting, hb.published]
    omega
  have hn : (gather freshEmission? w.past).length ≤ (gather publication? w.past).length := by
    rw [hb.published]
    omega
  rw [emissions_eq_fresh hl, ← take_draw next hn, ← (Faithful.of_reach hr).published_eq, ← hp,
    List.take_left]

/-- Wherever interrupts and polls are put between each other, every emission is what was published
last. What is published is the source, in order. Each published sample is emitted fresh once, or
overwritten, or waits in the slot. Each interrupt emits a fresh sample or is an overrun, and no more
is overwritten than there were overruns. A main loop that computes nothing while nothing waits has a
request to answer, and the next poll answers it with the next sample of the source. So a run without
overruns emits the source itself. -/
theorem every_emission_accounted (next : σ → UInt8 × σ) (s : σ) :
    (∀ (during : Nat) (turns : List Turn),
      let start : Watch σ := { handoff := { source := s }, computing := true }
      let w := turns.foldl (Turn.watch next) (start.answer next during)
      Reach next s w ∧ w.computing = false ∧
        w.handoff = turns.foldl (Turn.take next) (start.handoff.prime next during)) ∧
    ∀ w : Watch σ, Reach next s w →
      let emissions := gather emission? w.past
      let fresh := gather freshEmission? w.past
      let published := gather publication? w.past
      let overwritten := w.past.countP overwrites
      let slot := w.handoff.slot
      w.handoff.emitted.toList = emissions ∧
      (∀ after x f before, w.past = after ++ .emitted x f :: before →
        x = (gather publication? before).getLastD silence) ∧
      published = (draw next published.length s).1.toList ∧
      fresh.Sublist published ∧
      (∀ after x between y before,
        w.past = after ++ .emitted x true :: (between ++ .emitted y true :: before) →
          gather publication? between ≠ []) ∧
      published.length = fresh.length + overwritten + slot.fresh.toNat ∧
      (slot.ready = false → ∀ during, w.handoff.poll next during = (false, w.handoff)) ∧
      (w.computing = false → slot.fresh = false → slot.ready = true) ∧
      (w.computing = false → slot.ready = true → ∀ during,
        let claimed := w.claim { slot with ready := false }
        let answered := claimed.answer next during
        w.handoff.poll next during = (true, claimed.handoff.compute next during) ∧
        claimed.handoff.compute next during = answered.handoff ∧ Reach next s answered ∧
        gather publication? answered.past = published ++ [sampleAfter next published.length s] ∧
        (gather emission? answered.past).length = emissions.length + during ∧
        answered.handoff.slot.held = sampleAfter next published.length s ∧
        answered.handoff.slot.fresh = true) ∧
      (emissions.length < UInt32.size →
        emissions.length = fresh.length + slot.overruns.toNat ∧
        overwritten ≤ slot.overruns.toNat ∧
        (slot.overruns = 0 → emissions = (draw next emissions.length s).1.toList)) := by
  refine ⟨?_, ?_⟩
  · intro during turns start w
    have hp : (start.answer next during).handoff = start.handoff.prime next during :=
      handoff_answer next during start
    rw [← hp]
    exact (Reach.start.answer rfl during).turns rfl turns
  · intro w hr emissions fresh published overwritten slot
    have hf := Faithful.of_reach hr
    have ho := InOrder.of_reach hr
    have hb := Balanced.of_reach hr
    refine ⟨hf.emitted, fun _ _ _ _ => hf.latest, hf.published_eq, ?_, fun _ _ _ _ _ => ho.once,
      hb.published, fun hn => Handoff.poll_of_not_ready hn next, hb.idle, ?_, ?_⟩
    · exact (List.sublist_append_left _ _).trans ho.sublist
    · intro hc hq during claimed answered
      have hk : Reach next s claimed := hr.step (.claim hc (if_pos hq))
      have hx : sampleAfter next published.length s = (next claimed.handoff.source).1 := hf.upcoming
      rw [hx]
      exact ⟨Handoff.poll_of_ready hq next during, (handoff_answer next during claimed).symm,
        hk.answer rfl during, published_answer during claimed, emissions_answer during claimed,
        held_answer during claimed, rfl⟩
    · intro hn
      have hl : slot.overruns.toNat = w.past.countP late := hb.toNat_overruns hn
      rw [hl]
      refine ⟨length_emissions w.past, hb.overwritten_le, ?_⟩
      intro h0
      rw [h0] at hl
      exact emissions_of_no_late hr hl.symm

/-- An interrupt that comes too soon has the first sample overwritten. In step, two interrupts emit
the first two samples, and the poll between them publishes the second. -/
theorem every_emission_accounted_too_soon :
    let next : Nat → UInt8 × Nat := fun n => (UInt8.ofNat n, n + 1)
    (∃ w : Watch Nat, Reach next 5 w ∧
      w.past = [.published 6 true, .published 5 false, .emitted silence false] ∧
      w.past.countP overwrites = 1 ∧ 1 ≤ w.handoff.slot.overruns.toNat) ∧
    (∃ w : Watch Nat, Reach next 5 w ∧ w.handoff.slot.fresh = false ∧
      (w.handoff.poll next 0).1 = true ∧ (w.handoff.poll next 0).2.slot.held = 6) ∧
    ∃ w : Watch Nat, Reach next 5 w ∧ w.handoff.slot.overruns = 0 ∧
      gather emission? w.past = [5, 6] := by
  intro next
  have hs : Reach next 5 _ :=
    (((Reach.start.step (.interrupt _)).step (.publish rfl)).step (.claim rfl rfl)).step
      (.publish rfl)
  have hw : Reach next 5 _ := (Reach.start.step (.publish rfl)).step (.interrupt _)
  have hi : Reach next 5 _ :=
    ((hw.step (.claim rfl rfl)).step (.publish rfl)).step (.interrupt _)
  obtain ⟨_, _, _, _, _, _, _, _, _, hl⟩ := (every_emission_accounted next 5).2 _ hs
  obtain ⟨_, _, _, _, _, _, _, _, hp, _⟩ := (every_emission_accounted next 5).2 _ hw
  obtain ⟨_, _, _, _, _, _, _, _, _, he⟩ := (every_emission_accounted next 5).2 _ hi
  obtain ⟨hq, ha, _, _, _, hh, _⟩ := hp rfl rfl 0
  refine ⟨⟨_, hs, rfl, rfl, (hl (by decide)).2.1⟩, ⟨_, hw, rfl, ?_, ?_⟩,
    ⟨_, hi, rfl, (he (by decide)).2.2 rfl⟩⟩
  · rw [hq]
  · rw [hq, ha, hh]
    rfl

end Watch

end Polysynth
