/-!
# Decimals

A positive rational is turned into decimal digits in one of two ways: rounded to a number of
significant digits, or by the fewest digits that still single it out within an interval. Both
work by exact arithmetic on the grid of the multiples of a power of ten.
-/
namespace IncrementalLP

/-- The number `digits * 10 ^ exponent`. -/
structure Decimal where
  digits : Nat
  exponent : Int
  deriving Repr, DecidableEq

namespace Decimal

/-- A power of ten with any integer exponent. -/
def tenPow (e : Int) : Rat :=
  if e < 0 then 1 / Nat.pow 10 (-e).toNat else Nat.pow 10 e.toNat

def value (d : Decimal) : Rat := d.digits * tenPow d.exponent

/-- How many decimal digits a natural number has. -/
def digitCount (n : Nat) : Nat := (Nat.toDigits 10 n).length

/-- The least exponent whose power of ten exceeds a positive rational. -/
def scale (v : Rat) : Int :=
  let k : Int := (digitCount v.num.natAbs : Int) - digitCount v.den
  if v < tenPow k then k else k + 1

/-- The integer nearest to a rational that is not negative; a half goes to the even neighbour. -/
def nearestNat (v : Rat) : Nat :=
  let low := v.floor.toNat
  let rest := v - low
  if rest < 1 / 2 then low
  else if 1 / 2 < rest then low + 1
  else if low % 2 = 0 then low else low + 1

/-- Drops zeros at the end of the digits, at most as many as there is fuel for. -/
def stripZeros : Nat → Decimal → Decimal
  | 0, d => d
  | fuel + 1, d =>
    if d.digits ≠ 0 ∧ d.digits % 10 = 0 then stripZeros fuel ⟨d.digits / 10, d.exponent + 1⟩ else d

/-- The same number without zeros at the end of its digits. -/
def normalize (d : Decimal) : Decimal := stripZeros (digitCount d.digits) d

/-- A positive rational rounded to `n` significant digits, a half to the even neighbour. -/
def round (n : Nat) (v : Rat) : Decimal :=
  let e := scale v - n
  normalize ⟨nearestNat (v / tenPow e), e⟩

/-- The reals that are read as the same number: an interval with or without its two ends. -/
structure Interval where
  low : Rat
  high : Rat
  closed : Bool

def Interval.contains (i : Interval) (v : Rat) : Bool :=
  (i.low < v && v < i.high) || (i.closed && (v == i.low || v == i.high))

/-- The better of the two multiples of a grid that enclose a number, among those in the interval:
the nearer one, and the even one of two equally near. -/
def onGrid? (v : Rat) (i : Interval) (e : Int) : Option Decimal :=
  let grid := tenPow e
  let low := (v / grid).floor.toNat
  match i.contains (low * grid), i.contains ((low + 1 : Nat) * grid) with
  | true, true => some ⟨nearestNat (v / grid), e⟩
  | true, false => some ⟨low, e⟩
  | false, true => some ⟨low + 1, e⟩
  | false, false => none

/-- The fewest digits that lie in the interval of a positive number, seventeen at most. -/
def shortest (v : Rat) (i : Interval) : Decimal :=
  let k := scale v
  match (List.range 17).findSome? (fun (n : Nat) => onGrid? v i (k - ((n : Int) + 1))) with
  | some d => normalize d
  | none => round 17 v

end Decimal

end IncrementalLP
