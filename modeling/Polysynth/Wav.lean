namespace Polysynth

structure Sink where
  room : Nat
  written : Array UInt8 := #[]

namespace Sink

def full : String := "failed to write whole buffer"

/-- Writes all bytes or, if there is no room for them, those that fit. -/
def write (bytes : Array UInt8) (s : Sink) : Bool × Sink :=
  let taken := bytes.take s.room
  (bytes.size ≤ s.room, { room := s.room - taken.size, written := s.written ++ taken })

def writeAll (s : Sink) : List (Array UInt8) → Bool × Sink
  | [] => (true, s)
  | bytes :: more =>
    match s.write bytes with
    | (true, s) => s.writeAll more
    | (false, s) => (false, s)

end Sink

namespace Wav

-- Numbers are written with the low byte first.
def word (n : UInt16) : List UInt8 := [n.toUInt8, (n >>> 8).toUInt8]

def long (n : UInt32) : List UInt8 :=
  [n.toUInt8, (n >>> 8).toUInt8, (n >>> 16).toUInt8, (n >>> 24).toUInt8]

def tag (s : String) : List UInt8 := s.toList.map (fun c => UInt8.ofNat c.toNat)

def channels : UInt16 := 1
def bitsPerSample : UInt16 := 8
def blockAlign : UInt16 := channels * (bitsPerSample / 8)

/-- The 44 bytes before the samples. Sizes count the byte that makes an odd number of samples
even, except for the size of the data. -/
def header (size rate : UInt32) : List UInt8 :=
  let padded := size + size % 2
  tag "RIFF" ++ long (36 + padded) ++ tag "WAVE" ++
    tag "fmt " ++ long 16 ++ word 1 ++ word channels ++ long rate ++
    long (rate * blockAlign.toUInt32) ++ word blockAlign ++ word bitsPerSample ++
    tag "data" ++ long size

def chunks (samples : Array UInt8) (rate : UInt32) : List (Array UInt8) :=
  [(header (UInt32.ofNat samples.size) rate).toArray, samples] ++
    (if samples.size % 2 = 1 then [#[0]] else [])

def write (samples : Array UInt8) (rate : UInt32) (s : Sink) : Bool × Sink :=
  s.writeAll (chunks samples rate)

def image (samples : Array UInt8) (rate : UInt32) : Array UInt8 :=
  (header (UInt32.ofNat samples.size) rate).toArray ++ samples ++
    (if samples.size % 2 = 1 then #[0] else #[])

end Wav

end Polysynth
