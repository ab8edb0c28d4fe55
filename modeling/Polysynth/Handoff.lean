import Polysynth.Wave

namespace Polysynth

/-- A place for one sample, between the sampling interrupt and the main loop. -/
structure Slot where
  held : UInt8 := silence
  /-- The held sample has not been emitted yet. -/
  fresh : Bool := false
  /-- The next sample is asked for. -/
  ready : Bool := false
  overruns : UInt32 := 0
  deriving DecidableEq

namespace Slot

/-- Emits the held sample and asks for the next. An interrupt that finds no new sample emits the old
one again and counts an overrun. -/
def interrupt (s : Slot) : UInt8 × Slot :=
  (s.held,
    { s with
      fresh := false, ready := true
      overruns := if s.fresh then s.overruns else s.overruns + 1 })

def claim? (s : Slot) : Option Slot := if s.ready then some { s with ready := false } else none

def publish (sample : UInt8) (s : Slot) : Slot := { s with held := sample, fresh := true }

end Slot

structure Handoff (σ : Type) where
  slot : Slot := {}
  source : σ
  emitted : Array UInt8 := #[]

namespace Handoff

variable {σ : Type}

def interrupt (h : Handoff σ) : Handoff σ :=
  let (sample, slot) := h.slot.interrupt
  { h with slot := slot, emitted := h.emitted.push sample }

def interrupts : Nat → Handoff σ → Handoff σ
  | 0, h => h
  | n + 1, h => h.interrupt.interrupts n

/-- Computes a sample and publishes it. Meanwhile `during` interrupts fire. -/
def compute (next : σ → UInt8 × σ) (during : Nat) (h : Handoff σ) : Handoff σ :=
  let h := h.interrupts during
  let (sample, source) := next h.source
  { h with slot := h.slot.publish sample, source := source }

def prime (next : σ → UInt8 × σ) (during : Nat) (h : Handoff σ) : Handoff σ :=
  { h with slot := { h.slot with ready := false } }.compute next during

def poll (next : σ → UInt8 × σ) (during : Nat) (h : Handoff σ) : Bool × Handoff σ :=
  match h.slot.claim? with
  | none => (false, h)
  | some slot => (true, { h with slot := slot }.compute next during)

def pass (next : σ → UInt8 × σ) (during : Nat) (h : Handoff σ) : Bool × Handoff σ :=
  h.interrupt.poll next during

def tally (step : Handoff σ → Bool × Handoff σ) : Nat → Nat × Handoff σ → Nat × Handoff σ
  | 0, counted => counted
  | n + 1, (count, h) =>
    let (answered, h) := step h
    tally step n (count + answered.toNat, h)

def polls (next : σ → UInt8 × σ) (during n : Nat) (h : Handoff σ) : Nat × Handoff σ :=
  tally (poll next during) n (0, h)

def passes (next : σ → UInt8 × σ) (during n : Nat) (h : Handoff σ) : Nat × Handoff σ :=
  tally (pass next during) n (0, h)

end Handoff

end Polysynth
