namespace Polysynth.Decimal

/-- What the bits of a double say. A finite one is `mantissa · 2 ^ exponent` with a sign. -/
inductive Double where
  | nan
  | infinite (negative : Bool)
  | finite (negative : Bool) (mantissa : Nat) (exponent : Int)
  deriving DecidableEq

namespace Double

def minExponent : Int := -1074

def hiddenBit : Nat := 1 <<< 52

def ofBits (bits : UInt64) : Double :=
  let negative := bits.toNat >>> 63 == 1
  let exponent := (bits.toNat >>> 52) % 0x800
  let fraction := bits.toNat % hiddenBit
  if exponent = 0x7ff then
    if fraction = 0 then infinite negative else nan
  else if exponent = 0 then finite negative fraction minExponent
  else finite negative (hiddenBit + fraction) (minExponent + exponent - 1)

/-- The nearest whole number, a half away from zero, cut to `0` and `limit`. -/
def round (limit : Nat) : Double → Nat
  | nan => 0
  | infinite negative => if negative then 0 else limit
  | finite negative m q =>
    if negative then 0
    else if 0 ≤ q then min limit (m <<< q.toNat)
    else
      let unit := 1 <<< (-q).toNat
      min limit ((2 * m + unit) / (2 * unit))

end Double

def roundDiv (n d : Nat) : Nat := (2 * n + d) / (2 * d)

/-- Writes `n` with its last `places` digits after a point. -/
def withPlaces (places n : Nat) : String :=
  let unit := Nat.pow 10 places
  let fraction := toString (n % unit)
  let zeros := String.ofList (List.replicate (places - fraction.length) '0')
  s!"{n / unit}.{zeros}{fraction}"

def fixed (places n d : Nat) : String := withPlaces places (roundDiv (n * Nat.pow 10 places) d)

structure Figure where
  digits : Nat
  exponent : Int
  deriving DecidableEq

namespace Shortest

-- Numbers are compared in units that make both whole: `k · 2 ^ q / 4` is `k * scale q p` units, and
-- `d · 10 ^ p` is `d * step q p` units.
def scale (q p : Int) : Nat := Nat.pow 10 (-p).toNat <<< (q - 2).toNat

def step (q p : Int) : Nat := Nat.pow 10 p.toNat <<< (2 - q).toNat

/-- Whether `d · 10 ^ p` is nearer to `m · 2 ^ q` than to the neighbours of that double. A number
halfway between two doubles names the one with the even mantissa. Below a power of two the
doubles lie twice as close. -/
def names (m : Nat) (q : Int) (d : Nat) (p : Int) : Bool :=
  let below := if m = Double.hiddenBit ∧ Double.minExponent < q then 1 else 2
  let low := (4 * m - below) * scale q p
  let high := (4 * m + 2) * scale q p
  let at_ := d * step q p
  if m % 2 = 0 then low ≤ at_ && at_ ≤ high else low < at_ && at_ < high

def pick? (m : Nat) (q p : Int) : Option Nat :=
  let n := 4 * m * scale q p
  let d := n / step q p
  let up := step q p ≤ 2 * (n % step q p)
  match names m q d p, names m q (d + 1) p with
  | false, false => none
  | true, false => some d
  | false, true => some (d + 1)
  | true, true => some (if up then d + 1 else d)

/-- Tries ever finer steps, `tries` of them, from `10 ^ p` on. -/
def search (m : Nat) (q : Int) : Nat → Int → Option Figure
  | 0, _ => none
  | tries + 1, p =>
    match pick? m q p with
    | some d => some ⟨d, p⟩
    | none => search m q tries (p - 1)

-- All doubles are below ten times the coarsest step, and seventeen digits name any of them.
def coarsest : Int := 308

def tries : Nat := 700

def figure? (m : Nat) (q : Int) : Option Figure := search m q tries coarsest

end Shortest

def Figure.text (f : Figure) : String :=
  if 0 ≤ f.exponent then toString (f.digits * Nat.pow 10 f.exponent.toNat)
  else withPlaces (-f.exponent).toNat f.digits

/-- The fewest digits that still name a double, and of those the nearest number. -/
def Double.text : Double → String
  | nan => "NaN"
  | infinite negative => if negative then "-inf" else "inf"
  | finite negative m q =>
    let sign := if negative then "-" else ""
    if m = 0 then sign ++ "0" else sign ++ ((Shortest.figure? m q).map Figure.text).getD "0"

end Polysynth.Decimal
