import IncrementalLP.Dense.Elimination
import IncrementalLP.Number.Instances
/-!
# Least squares

A system whose matrix is singular is answered by the shortest among the vectors that come nearest
to solving it. That vector is a combination of the rows of the matrix; the combination satisfies
linear equations that always have a solution. It is computed in rationals, and rounded at the end.
-/
namespace IncrementalLP.Dense

/-- The matrix with rows `a` times the matrix with columns `b`. -/
def product {l m n : Nat} (a : Vector (Vector Rat m) l) (b : Vector (Vector Rat m) n) :
    Vector (Vector Rat n) l :=
  .ofFn fun i => .ofFn fun j => dot (a.get i) (b.get j)

/-- The shortest least-squares solution for a matrix given by its rows. -/
def leastSquaresExact {m n : Nat} (rows : Vector (Vector Rat n) m) (rhs : Vector Rat m) :
    Vector Rat n :=
  let columns := transpose rows
  let gram := product columns columns
  let matrix := product gram rows
  let right : Vector Rat n := .ofFn fun i => dot (columns.get i) rhs
  let weights := eliminateFree m ((List.finRange n).map fun i => ⟨matrix.get i, right.get i⟩)
  .ofFn fun j => dot (columns.get j) weights

variable {α : Type} [Scalar α]

/-- The rationals that the components stand for, if all are finite. -/
def exactVector? {n : Nat} (v : Vector α n) : Option (Vector Rat n) := v.mapM Scalar.toRat?

/-- The least-squares solution in any number type; it is not a number where an input is not
finite. -/
def leastSquares {m n : Nat} (rows : Vector (Vector α n) m) (rhs : Vector α m) : Vector α n :=
  match rows.mapM exactVector?, exactVector? rhs with
  | some a, some b => (leastSquaresExact a b).map Scalar.nearest
  | _, _ => .replicate n (0 / 0)

/-- The solution of a square system, or the least-squares solution of a singular one. -/
def solve {m : Nat} (rows : Vector (Vector α m) m) (rhs : Vector α m) : Vector α m :=
  match eliminate m ((List.finRange m).map fun i => ⟨rows.get i, rhs.get i⟩) with
  | some x => x
  | none => leastSquares rows rhs

end IncrementalLP.Dense
