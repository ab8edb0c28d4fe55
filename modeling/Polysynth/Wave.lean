namespace Polysynth

inductive Generator where
  | saw
  | triangle
  | square
  | noise93
  | noise32k
  deriving DecidableEq

namespace Generator

def all : List Generator := [saw, triangle, square, noise93, noise32k]

def name : Generator → String
  | saw => "saw"
  | triangle => "tri"
  | square => "sq"
  | noise93 => "noise93"
  | noise32k => "noise32k"

def ofName? (s : String) : Option Generator :=
  all.find? (fun g => g.name == s)

def index (g : Generator) : Nat := all.idxOf g

def unknownName : String := "unknown generator (expected saw, tri, sq, noise93 or noise32k)"

theorem ofName?_name (g : Generator) : ofName? g.name = some g := by
  cases g <;> decide

end Generator

def silence : UInt8 := 128

def sampleRate : Nat := 22050

section Draw

variable {σ : Type}

def drawOnto (next : σ → UInt8 × σ) : Nat → σ → Array UInt8 → Array UInt8 × σ
  | 0, s, out => (out, s)
  | n + 1, s, out =>
    let (sample, s) := next s
    drawOnto next n s (out.push sample)

/-- The first `n` samples of a source, and the source after them. -/
def draw (next : σ → UInt8 × σ) (n : Nat) (s : σ) : Array UInt8 × σ := drawOnto next n s #[]

theorem drawOnto_eq (next : σ → UInt8 × σ) (n : Nat) (s : σ) (out : Array UInt8) :
    drawOnto next n s out = (out ++ (draw next n s).1, (draw next n s).2) := by
  induction n generalizing s out with
  | zero => simp [draw, drawOnto]
  | succ n ih =>
    simp only [draw, drawOnto]
    rw [ih, ih (next s).2 (#[].push (next s).1)]
    simp only [Array.push_eq_append, Array.append_assoc, Array.empty_append]

/-- The first sample comes from the source as it is, the others from the source after it. -/
theorem draw_succ (next : σ → UInt8 × σ) (n : Nat) (s : σ) :
    draw next (n + 1) s =
      (#[(next s).1] ++ (draw next n (next s).2).1, (draw next n (next s).2).2) := by
  simp only [draw, drawOnto]
  exact drawOnto_eq next n (next s).2 (#[].push (next s).1)

theorem size_draw (next : σ → UInt8 × σ) (n : Nat) (s : σ) : (draw next n s).1.size = n := by
  induction n generalizing s with
  | zero => rfl
  | succ n ih =>
    rw [draw_succ]
    simp only [Array.size_append, ih]
    exact Nat.add_comm 1 n

end Draw

structure Wave where
  /-- Place in the period of a tone; for noise, how long the register has been held. -/
  phase : UInt16 := 0
  /-- The shift register of noise. -/
  noise : UInt16 := 1
  deriving DecidableEq

namespace Wave

def highLevel : UInt8 := 175
def lowLevel : UInt8 := 83

def sawLevel (phase : UInt16) : UInt8 := (phase >>> 8).toUInt8

/-- A ramp up and a ramp down. The peak would be 256 and is held at 255. -/
def triangleLevel (phase : UInt16) : UInt8 :=
  if phase < 0x8000 then ((phase <<< 1) >>> 8).toUInt8
  else
    let fall := (phase - 0x8000).toUInt32 <<< 1
    (min ((0x10000 - fall) >>> 8) 0xff).toUInt8

def squareLevel (phase : UInt16) : UInt8 :=
  if phase &&& 0x8000 ≠ 0 then highLevel else lowLevel

/-- Shifts into the register the sum of bit 14 and bit `tap`. -/
def shift (tap : UInt16) (word : UInt16) : UInt16 :=
  (word <<< 1) ||| (((word >>> 14) ^^^ (word >>> tap)) &&& 1)

/-- One step of noise takes eight new bits. -/
def clock (tap : UInt16) (word : UInt16) : UInt16 := Nat.repeat (shift tap) 8 word

def shortTap : UInt16 := 8
def longTap : UInt16 := 13

def tone (level : UInt16 → UInt8) (increment : UInt16) (w : Wave) : UInt8 × Wave :=
  (level w.phase, { w with phase := w.phase + increment })

/-- Noise steps its register every `note + 1` samples. -/
def hiss (tap : UInt16) (note : UInt8) (w : Wave) : UInt8 × Wave :=
  let held := w.phase + 1
  if note.toUInt16 < held then
    let word := clock tap w.noise
    (word.toUInt8, { phase := 0, noise := word })
  else (w.noise.toUInt8, { w with phase := held })

def next (g : Generator) (increment : UInt16) (note : UInt8) (w : Wave) : UInt8 × Wave :=
  match g with
  | .saw => tone sawLevel increment w
  | .triangle => tone triangleLevel increment w
  | .square => tone squareLevel increment w
  | .noise93 => hiss shortTap note w
  | .noise32k => hiss longTap note w

end Wave

end Polysynth
