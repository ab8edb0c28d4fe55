namespace Polysynth

inductive Event where
  | note (pitch ticks : UInt8)
  | rest (ticks : UInt8)
  deriving DecidableEq

namespace Event

def ticks : Event → UInt8
  | note _ t => t
  | rest t => t

def isRest : Event → Bool
  | note _ _ => false
  | rest _ => true

/-- The bytes of an event. A rest keeps the low seven bits of its length. -/
def encode : Event → List UInt8
  | note p t => [p, t]
  | rest t => [0x80 ||| (t &&& 0x7f)]

/-- Reads the event at the head of a stream and gives the bytes after it. An empty stream and a
pitch byte without a length hold no event. -/
def decode : List UInt8 → Option (Event × List UInt8)
  | [] => none
  | b :: bs =>
    if 0x80 ≤ b then some (rest (b &&& 0x7f), bs)
    else
      match bs with
      | [] => none
      | t :: bs => some (note b t, bs)

end Event

def maxRestTicks : Nat := 127

def pitchCount : Nat := 72

def events : List UInt8 → List Event
  | [] => []
  | [b] => if 0x80 ≤ b then [.rest (b &&& 0x7f)] else []
  | b :: t :: bs =>
    if 0x80 ≤ b then .rest (b &&& 0x7f) :: events (t :: bs) else .note b t :: events bs

/-- Adds the ticks of an event to a count of 32 bits, unless the count would overflow. -/
def Event.addTicks? (count : Nat) (e : Event) : Option Nat :=
  if count + e.ticks.toNat < UInt32.size then some (count + e.ticks.toNat) else none

/-- The length of a stream in ticks. A stream that is longer than 32 bits can tell has none: the
count ends the program. -/
def duration? (stream : List UInt8) : Option Nat :=
  (events stream).foldlM Event.addTicks? 0

/-- Walking a stream is decoding its head, then walking what follows. -/
theorem events_eq_decode (stream : List UInt8) :
    events stream =
      match Event.decode stream with
      | none => []
      | some (e, after) => e :: events after := by
  match stream with
  | [] => rfl
  | [b] => simp only [events, Event.decode]; split <;> rfl
  | b :: t :: bs => rw [events, Event.decode]; split <;> rfl

/-- An event read from a stream takes at least one byte of it. -/
theorem Event.decode_length_lt {stream after : List UInt8} {e : Event}
    (h : Event.decode stream = some (e, after)) : after.length < stream.length := by
  unfold Event.decode at h
  split at h
  · simp at h
  · split at h
    · simp only [Option.some.injEq, Prod.mk.injEq] at h
      simp [← h.2]
    · split at h
      · simp at h
      · simp only [Option.some.injEq, Prod.mk.injEq] at h
        simp only [← h.2, List.length_cons]
        omega

end Polysynth
