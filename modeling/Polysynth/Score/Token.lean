import Polysynth.Event
import Polysynth.Text

namespace Polysynth.Score

/-- The place of a letter in its octave. A small letter is a natural, and a capital the sharp above
it. -/
def semitone? : Char → Option UInt8
  | 'c' => some 0
  | 'C' => some 1
  | 'd' => some 2
  | 'D' => some 3
  | 'e' => some 4
  | 'E' => some 5
  | 'f' => some 5
  | 'F' => some 6
  | 'g' => some 7
  | 'G' => some 8
  | 'a' => some 9
  | 'A' => some 10
  | 'b' => some 11
  | 'B' => some 12
  | _ => none

def octave? (c : Char) : Option UInt8 :=
  if '0' ≤ c ∧ c ≤ '5' then some (UInt8.ofNat (c.toNat - '0'.toNat)) else none

/-- The pitch of a letter and an octave. The sharp of the highest `b` lies one above the table. -/
def pitch? : List Char → Option UInt8
  | [letter, octave] => do
    let s ← semitone? letter
    let o ← octave? octave
    return s + 12 * o
  | _ => none

inductive Length where
  /-- `-n`: this many ticks. -/
  | ticks (n : Nat)
  /-- `=n`: one part in `n` of a whole note. -/
  | fraction (n : Nat)
  /-- `=n.`: three halves of one part in `n`. -/
  | dotted (n : Nat)
  /-- `=n,m`: one part in `n`, divided by `m`. -/
  | tuplet (n m : Nat)
  deriving DecidableEq

namespace Length

/-- Numbers and products in a length stay below `2 ^ 32`. -/
def limit : Nat := 0x100000000

def bounded? (n : Nat) : Option Nat := if n < limit then some n else none

def quotient? (n d : Nat) : Option Nat := if d = 0 then none else some (n / d)

/-- The length in ticks, rounded down. There is none for a zero divisor or a product that reaches
`limit`. -/
def ticks? (whole : Nat) : Length → Option Nat
  | ticks n => some n
  | fraction n => quotient? whole n
  | dotted n => do quotient? (← bounded? (3 * whole)) (← bounded? (2 * n))
  | tuplet n m => do quotient? whole (← bounded? (n * m))

def read? (sign : Char) (text : List Char) : Option Length :=
  match sign with
  | '-' => (Text.naturalBelow? limit text).map ticks
  | '=' =>
    match Text.dropSuffix? '.' text with
    | some base => (Text.naturalBelow? limit base).map dotted
    | none =>
      match Text.splitFirst? ',' text with
      | some (n, m) => do
        return tuplet (← Text.naturalBelow? limit n) (← Text.naturalBelow? limit m)
      | none => (Text.naturalBelow? limit text).map fraction
  | _ => none

end Length

inductive TokenFault where
  | malformed
  | badLength
  | lengthOutOfRange (length : Int)
  | pitchOutOfRange (pitch : UInt8)
  | zeroLength
  deriving DecidableEq

structure Timing where
  ticksPerWhole : Nat
  cutTicks : Nat
  deriving DecidableEq

structure Token where
  /-- A rest has no pitch. -/
  pitch : Option UInt8
  sign : Char
  length : List Char
  /-- A `+` turns the end of the event into a rest of a fixed number of ticks. -/
  cut : Bool
  deriving DecidableEq

namespace Token

def sound? : List Char → Option (Option UInt8 × List Char)
  | '/' :: cs => some (none, cs)
  | letter :: octave :: cs => (pitch? [letter, octave]).map (fun p => (some p, cs))
  | _ => none

def read? (cs : List Char) : Option Token := do
  let (pitch, tail) ← sound? cs
  match tail with
  | [] => none
  | sign :: text =>
    if sign = '-' ∨ sign = '=' then
      let stripped := Text.dropSuffix? '+' text
      let length := stripped.getD text
      if length.isEmpty then none
      else some { pitch := pitch, sign := sign, length := length, cut := stripped.isSome }
    else none

def cutBy (timing : Timing) (t : Token) : Nat := if t.cut then timing.cutTicks else 0

def event (pitch : Option UInt8) (length : Int) : Except TokenFault Event :=
  match pitch with
  | none =>
    if 0 ≤ length ∧ length ≤ maxRestTicks then .ok (.rest (UInt8.ofNat length.toNat))
    else .error (.lengthOutOfRange length)
  | some p =>
    if pitchCount ≤ p.toNat then .error (.pitchOutOfRange p)
    else if 0 ≤ length ∧ length ≤ 255 then .ok (.note p (UInt8.ofNat length.toNat))
    else .error (.lengthOutOfRange length)

/-- The events of a token: a note or a rest, and the rest that its cut leaves. -/
def events (timing : Timing) (t : Token) : Except TokenFault (List Event) :=
  match (Length.read? t.sign t.length).bind (Length.ticks? timing.ticksPerWhole) with
  | none => .error .badLength
  | some ticks =>
    let cut := t.cutBy timing
    let length := (ticks : Int) - cut
    match event t.pitch length with
    | .error e => .error e
    | .ok e =>
      if length = 0 then .error .zeroLength
      else if cut = 0 then .ok [e]
      else .ok [e, .rest (UInt8.ofNat cut)]

def encode (timing : Timing) (cs : List Char) : Except TokenFault (List UInt8) :=
  match read? cs with
  | none => .error .malformed
  | some t => (t.events timing).map (fun es => es.flatMap Event.encode)

/-- Appends the bytes of a token to a stream, and gives the stream after it. -/
def append (timing : Timing) (cs : List Char) (stream : List UInt8) :
    Except TokenFault Unit × List UInt8 :=
  match encode timing cs with
  | .error fault => (.error fault, stream)
  | .ok bytes => (.ok (), stream ++ bytes)

end Token

end Polysynth.Score
