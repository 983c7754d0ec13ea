import IncrementalLP.Number.Scalar
/-!
# Extended numbers

Limits and coefficients as a caller states them: an ordinary number, one of the two infinities, or
a value that is not a number. Validation decides which of them may stay.
-/
namespace IncrementalLP

inductive Extended (α : Type) where
  | negInf
  | finite (value : α)
  | posInf
  | nan
  deriving Repr, DecidableEq

namespace Extended

variable {α : Type}

/-- The number itself where it is an ordinary one. -/
def finite? : Extended α → Option α
  | .finite x => some x
  | _ => none

def isFinite : Extended α → Bool
  | .finite _ => true
  | _ => false

def isNan : Extended α → Bool
  | .nan => true
  | _ => false

variable [Scalar α]

/-- The class a computed value falls in. -/
def ofScalar (x : α) : Extended α :=
  if Scalar.isFinite x then .finite x
  else if 0 < x then .posInf
  else if x < 0 then .negInf
  else .nan

/-- The order of the extended line. A value that is not a number is comparable to nothing. -/
def less : Extended α → Extended α → Bool
  | .nan, _ => false
  | _, .nan => false
  | .negInf, .negInf => false
  | .negInf, _ => true
  | _, .negInf => false
  | .posInf, _ => false
  | .finite _, .posInf => true
  | .finite x, .finite y => decide (x < y)

/-- The difference; opposite excesses cancel to a value that is not a number. -/
def minus : Extended α → Extended α → Extended α
  | .nan, _ => .nan
  | _, .nan => .nan
  | .posInf, .posInf => .nan
  | .negInf, .negInf => .nan
  | .posInf, _ => .posInf
  | .negInf, _ => .negInf
  | .finite _, .posInf => .negInf
  | .finite _, .negInf => .posInf
  | .finite x, .finite y => ofScalar (x - y)

/-- The sum; opposite excesses cancel to a value that is not a number. -/
def plus : Extended α → Extended α → Extended α
  | .nan, _ => .nan
  | _, .nan => .nan
  | .posInf, .negInf => .nan
  | .negInf, .posInf => .nan
  | .posInf, _ => .posInf
  | .negInf, _ => .negInf
  | .finite _, .posInf => .posInf
  | .finite _, .negInf => .negInf
  | .finite x, .finite y => ofScalar (x + y)

instance : Add (Extended α) := ⟨plus⟩

/-- The value as a scalar of the number type, written as a quotient where it is not finite. -/
def toScalar : Extended α → α
  | .finite x => x
  | .posInf => 1 / 0
  | .negInf => -1 / 0
  | .nan => 0 / 0

def text : Extended α → String
  | .negInf => "-inf"
  | .finite x => Scalar.text x
  | .posInf => "inf"
  | .nan => "nan"

end Extended

end IncrementalLP
