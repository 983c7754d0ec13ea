import IncrementalLP.Number.Decimal
/-!
# Layout of decimals

How the digits of a decimal are written: positionally while the decimal exponent of the leading
digit stays in a range, and otherwise with an exponent of at least two digits.
-/
namespace IncrementalLP

/-- The decisions of a number format. -/
structure Layout where
  /-- Exponents of the leading digit from here on are written positionally. -/
  plainFrom : Int
  /-- Exponents of the leading digit from here on are written with an exponent. -/
  plainBelow : Int
  /-- Whole numbers written positionally end in a point and a zero. -/
  pointZero : Bool

namespace Layout

/-- Numbers are written with the fewest digits that identify them, positionally from `0.0001` to
below `10 ^ 16`, and always look like a number with a fraction. -/
def natural : Layout := ⟨-4, 16, true⟩

/-- Numbers rounded to some significant digits are written positionally while those digits reach
the units, and without a fraction that is zero. -/
def compact (digits : Nat) : Layout := ⟨-4, digits, false⟩

def zeros (n : Nat) : String := String.ofList (List.replicate n '0')

/-- An exponent with its sign and at least two digits. -/
def exponentText (e : Int) : String :=
  let digits := toString e.natAbs
  (if e < 0 then "e-" else "e+") ++ (if digits.length < 2 then "0" ++ digits else digits)

/-- The digits with the point after the leading one, or without a point if there is but one. -/
def leadingPoint (digits : List Char) : String :=
  match digits with
  | [] => ""
  | [c] => String.ofList [c]
  | c :: rest => String.ofList (c :: '.' :: rest)

/-- The text of a decimal whose digits do not end in zero. -/
def write (layout : Layout) (d : Decimal) : String :=
  let digits := Nat.toDigits 10 d.digits
  let leading : Int := (digits.length : Int) - 1 + d.exponent
  if layout.plainFrom ≤ leading ∧ leading < layout.plainBelow then
    if 0 ≤ d.exponent then
      String.ofList digits ++ zeros d.exponent.toNat ++ (if layout.pointZero then ".0" else "")
    else if 0 ≤ leading then
      let whole := leading.toNat + 1
      String.ofList (digits.take whole) ++ "." ++ String.ofList (digits.drop whole)
    else "0." ++ zeros (-leading - 1).toNat ++ String.ofList digits
  else leadingPoint digits ++ exponentText leading

/-- The text of zero. -/
def zeroText (layout : Layout) : String := if layout.pointZero then "0.0" else "0"

end Layout

end IncrementalLP
