import IncrementalLP.Number.Decimal
/-!
# Binary floating point

The exact rational behind a double-precision float, the reals that are read as it, and the float
nearest to a rational. Everything goes through the bits, so that it can be computed with and
reasoned about in integers.
-/
namespace IncrementalLP.Binary

/-- A power of two with any integer exponent. -/
def twoPow (e : Int) : Rat :=
  if e < 0 then 1 / Nat.pow 2 (-e).toNat else Nat.pow 2 e.toNat

/-- A finite non-negative float: the number `mantissa * 2 ^ exponent`. -/
structure Parts where
  mantissa : Nat
  exponent : Int
  /-- The gap to the float below is half the gap to the float above. -/
  narrowBelow : Bool

def signBit (x : Float) : Bool := x.toBits >>> 63 == 1

/-- The parts of the magnitude of a float; none for infinities and for what is not a number. -/
def parts? (x : Float) : Option Parts :=
  let e := ((x.toBits >>> 52) &&& 0x7FF).toNat
  let f := (x.toBits &&& 0xFFFFFFFFFFFFF).toNat
  if e = 0x7FF then none
  else if e = 0 then some ⟨f, -1074, false⟩
  else some ⟨Nat.pow 2 52 + f, (e : Int) - 1075, f = 0 && decide (1 < e)⟩

def Parts.value (p : Parts) : Rat := p.mantissa * twoPow p.exponent

/-- The reals nearer to this float than to its neighbours. The ends, halfway to a neighbour, are
read as the float with the even mantissa. -/
def Parts.interval (p : Parts) : Decimal.Interval :=
  let half := twoPow (p.exponent - 1)
  { low := p.value - (if p.narrowBelow then half / 2 else half)
    high := p.value + half
    closed := p.mantissa % 2 = 0 }

def toRat? (x : Float) : Option Rat :=
  (parts? x).map fun p => if signBit x then -p.value else p.value

/-- How many binary digits a natural number has. -/
def bitCount (n : Nat) : Nat := if n = 0 then 0 else n.log2 + 1

/-- The least exponent whose power of two exceeds a positive rational. -/
def scale (v : Rat) : Int :=
  let k : Int := (bitCount v.num.natAbs : Int) - bitCount v.den
  if v < twoPow k then k else k + 1

/-- The bits of the float nearest to a positive rational, ties to the even mantissa. Numbers
halfway beyond the largest float become infinite. -/
def magnitudeBits (v : Rat) : UInt64 :=
  let e := max (scale v - 53) (-1074)
  let m := Decimal.nearestNat (v / twoPow e)
  let bits := (e + 1074).toNat * Nat.pow 2 52 + m
  if 0x7FF * Nat.pow 2 52 ≤ bits then 0x7FF0000000000000 else UInt64.ofNat bits

/-- The float nearest to a rational; zero becomes the positive zero. -/
def nearest (v : Rat) : Float :=
  if v = 0 then 0.0
  else if v < 0 then Float.ofBits (magnitudeBits (-v) ||| 0x8000000000000000)
  else Float.ofBits (magnitudeBits v)

/-- The fewest decimal digits that are read as the magnitude of a float that is not zero. -/
def Parts.shortest (p : Parts) : Decimal := Decimal.shortest p.value p.interval

end IncrementalLP.Binary
