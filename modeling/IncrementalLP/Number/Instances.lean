import IncrementalLP.Number.Extended
import IncrementalLP.Number.Binary
import IncrementalLP.Number.Layout
/-!
# The two number types

Exact rationals, on which the solver is reasoned about, and double-precision floats, on which it
runs.
-/
namespace IncrementalLP

/-- The text of a rational rounded to a number of significant digits. -/
def Layout.roundedText (digits : Nat) (v : Rat) : String :=
  if v = 0 then "0"
  else if v < 0 then "-" ++ (compact digits).write (Decimal.round digits (-v))
  else (compact digits).write (Decimal.round digits v)

/-- A rational is written as a quotient in lowest terms, or as an integer. -/
def rationalText (v : Rat) : String :=
  if v.den = 1 then toString v.num else toString v.num ++ "/" ++ toString v.den

instance : Scalar Rat where
  zero := 0
  one := 1
  decidableLT := inferInstance
  decidableLE := inferInstance
  toRat? := some
  nearest := id
  text := rationalText
  rounded := Layout.roundedText

/-- A float with the sign in front; the text of its magnitude is given for what is neither
infinite nor undefined nor zero. -/
def Binary.signedText (layout : Layout) (digits : Binary.Parts → Decimal) (x : Float) : String :=
  let sign := if Binary.signBit x then "-" else ""
  match Binary.parts? x with
  | some p => sign ++ (if p.mantissa = 0 then layout.zeroText else layout.write (digits p))
  | none => if x.isNaN then "nan" else sign ++ "inf"

instance : Scalar Float where
  decidableLT := inferInstance
  decidableLE := inferInstance
  toRat? := Binary.toRat?
  nearest := Binary.nearest
  text := Binary.signedText .natural Binary.Parts.shortest
  rounded n := Binary.signedText (.compact n) fun p => Decimal.round n p.value

end IncrementalLP
