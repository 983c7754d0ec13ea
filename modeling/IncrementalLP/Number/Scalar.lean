/-!
# Scalars

The arithmetic that matrices, instances and solvers are written over. Every definition of the
library that computes takes the number type as a parameter, so that one text of the solver runs on
double-precision floats and is reasoned about on exact rationals.
-/
namespace IncrementalLP

/-- A number type with the operations of the solver, an exact reading where one exists, and the
two ways in which its values are written. Equality is numeric: it may identify values that are
not the same (the two zeros of a float) and may fail on a value that is not a number. -/
class Scalar (α : Type) extends Zero α, One α, Add α, Sub α, Neg α, Mul α, Div α, LT α, LE α,
    BEq α where
  decidableLT : DecidableLT α
  decidableLE : DecidableLE α
  /-- The rational that the value stands for; none for infinities and for what is not a number. -/
  toRat? : α → Option Rat
  /-- The value nearest to a rational. -/
  nearest : Rat → α
  /-- The text that identifies the value. -/
  text : α → String
  /-- The text of the value rounded to a number of significant digits. -/
  rounded : Nat → α → String

instance Scalar.instDecidableLT {α : Type} [Scalar α] : DecidableLT α := Scalar.decidableLT
instance Scalar.instDecidableLE {α : Type} [Scalar α] : DecidableLE α := Scalar.decidableLE

namespace Scalar

variable {α : Type} [Scalar α]

/-- The absolute value. What is not a number stays what it is. -/
def magnitude (x : α) : α := if x < 0 then -x else x

/-- Values strictly smaller in magnitude than the threshold are replaced by zero. -/
def snap (threshold x : α) : α := if magnitude x < threshold then 0 else x

/-- Is the value an ordinary number, neither infinite nor undefined? -/
def isFinite (x : α) : Bool := (toRat? x).isSome

end Scalar

end IncrementalLP
