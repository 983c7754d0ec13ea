import IncrementalLP.Number.Scalar
/-!
# Dense vectors and matrices

Vectors of a fixed length, and matrices that are stored as vectors of rows or of columns. Sums run
from the first index to the last and start at zero.
-/
namespace IncrementalLP.Dense

variable {α β : Type}

/-- The first of the items than which none is better. -/
def firstBest (better : β → β → Bool) : List β → Option β
  | [] => none
  | b :: rest => some (rest.foldl (fun best c => if better c best then c else best) b)

/-- The rows of a matrix from its columns, or the columns from its rows. -/
def transpose {m n : Nat} (a : Vector (Vector α m) n) : Vector (Vector α n) m :=
  .ofFn fun i => .ofFn fun j => (a.get j).get i

variable [Scalar α]

/-- The sum over all indices below `n`. -/
def sum (n : Nat) (f : Fin n → α) : α := Fin.foldl n (fun s i => s + f i) 0

def dot {n : Nat} (u v : Vector α n) : α := sum n fun i => u.get i * v.get i

/-- The vector that is zero but for one component. -/
def unit {n : Nat} (k : Fin n) : Vector α n := .ofFn fun i => if i = k then 1 else 0

/-- The vector with given values at given places and zero elsewhere. At a place that is named more
than once the last value counts. -/
def scatter {m n : Nat} (places : Vector (Fin n) m) (values : Vector α m) : Vector α n :=
  .ofFn fun j => Fin.foldl m (fun x k => if places.get k = j then values.get k else x) 0

/-- All components snapped to zero that are smaller than a threshold. -/
def snap {n : Nat} (threshold : α) (v : Vector α n) : Vector α n := v.map (Scalar.snap threshold)

end IncrementalLP.Dense
