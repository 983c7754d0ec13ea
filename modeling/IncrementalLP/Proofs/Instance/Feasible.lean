import IncrementalLP.Proofs.Number.Exact
import IncrementalLP.Instance.Basic
/-!
# Points of an instance

What an instance means apart from every method that solves it: the points that keep all its
limits, and the value of its objective there.
-/
namespace IncrementalLP

namespace Extended

/-- A lower limit lets a value pass. -/
def AtMost (limit : Extended ℚ) (v : ℚ) : Prop :=
  match limit with
  | .negInf => True
  | .finite l => l ≤ v
  | .posInf | .nan => False

/-- An upper limit lets a value pass. -/
def AtLeast (limit : Extended ℚ) (v : ℚ) : Prop :=
  match limit with
  | .posInf => True
  | .finite u => v ≤ u
  | .negInf | .nan => False

end Extended

/-- One value of the objective improves on another. -/
def Sense.Better (s : Sense) (a b : ℚ) : Prop :=
  match s with
  | .max => b < a
  | .min => a < b

namespace Instance

variable (i : Instance ℚ)

/-- The sum of the values that are stored for a place of the matrix. -/
def coefficient (k j : ℕ) : ℚ := SparseMatrix.valueAt i.matrix.entries k j

def rowActivity (x : Fin i.numColumns → ℚ) (k : ℕ) : ℚ :=
  ∑ j : Fin i.numColumns, i.coefficient k j * x j

/-- The value of the objective. -/
def value (x : Fin i.numColumns → ℚ) : ℚ :=
  ∑ j : Fin i.numColumns, (i.columns.get j).objective.toScalar * x j

/-- Every row activity is within the limits of its row, and every component within its bounds. -/
structure Feasible (x : Fin i.numColumns → ℚ) : Prop where
  rowLower : ∀ k : Fin i.numRows, (i.rows.get k).lower.AtMost (i.rowActivity x k)
  rowUpper : ∀ k : Fin i.numRows, (i.rows.get k).upper.AtLeast (i.rowActivity x k)
  columnLower : ∀ j, (i.columns.get j).lower.AtMost (x j)
  columnUpper : ∀ j, (i.columns.get j).upper.AtLeast (x j)

end Instance

end IncrementalLP
