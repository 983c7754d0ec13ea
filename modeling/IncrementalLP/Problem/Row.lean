import IncrementalLP.Number.Extended
/-!
# Rows and columns

The constraints and variables of a linear program as they are described by a caller, with the
limits that each row puts on its activity.
-/
namespace IncrementalLP

/-- How the activity of a row compares with its right-hand side. A range row keeps the activity
between the right-hand side and a width below it. -/
inductive RowSense (α : Type) where
  | atMost
  | atLeast
  | equal
  | range (width : Extended α)
  deriving Repr, DecidableEq

def RowSense.symbol {α : Type} : RowSense α → String
  | .atMost => "<="
  | .atLeast => ">="
  | .equal => "=="
  | .range _ => "range"

/-- The width of a range row. -/
def RowSense.width? {α : Type} : RowSense α → Option (Extended α)
  | .range w => some w
  | _ => none

structure Row (α : Type) where
  sense : RowSense α
  rhs : Extended α
  name : Option String := none
  deriving Repr, DecidableEq

namespace Row

variable {α : Type} [Scalar α]

/-- The least activity that the row allows. -/
def lower (r : Row α) : Extended α :=
  match r.sense with
  | .atMost => .negInf
  | .atLeast | .equal => r.rhs
  | .range w => r.rhs.minus w

/-- The greatest activity that the row allows. -/
def upper (r : Row α) : Extended α :=
  match r.sense with
  | .atLeast => .posInf
  | _ => r.rhs

end Row

structure Column (α : Type) where
  objective : Extended α
  lower : Extended α
  upper : Extended α
  name : Option String := none
  deriving Repr, DecidableEq

/-- A variable without cost that may take every value from zero on. -/
def Column.free {α : Type} [Scalar α] : Column α :=
  { objective := .finite 0, lower := .finite 0, upper := .posInf }

/-- The direction in which the objective is to be improved. -/
inductive Sense where
  | min
  | max
  deriving Repr, DecidableEq

namespace Sense

def name : Sense → String
  | .min => "min"
  | .max => "max"

def ofName? (s : String) : Option Sense :=
  if s = "min" then some .min else if s = "max" then some .max else none

end Sense

/-- The two sorts of named entities of an instance. -/
inductive EntityKind where
  | row
  | column
  deriving Repr, DecidableEq

namespace EntityKind

def name : EntityKind → String
  | .row => "row"
  | .column => "column"

def ofName? (s : String) : Option EntityKind :=
  if s = "row" then some .row else if s = "column" then some .column else none

end EntityKind

end IncrementalLP
