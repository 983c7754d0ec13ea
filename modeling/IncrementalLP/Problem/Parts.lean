import IncrementalLP.Matrix.Sparse
import IncrementalLP.Reading.Records
/-!
# Parts of problems

The rows, columns and matrix of a problem, before they become an instance, and the document that
they are written to.
-/
namespace IncrementalLP

/-- The parts of a problem. -/
structure ProblemParts (α : Type) where
  rows : List (Row α)
  columns : List (Column α)
  matrix : SparseMatrix α

/-- A row with its entries, as columns and values. -/
structure Cut (α : Type) where
  row : Row α
  entries : List (Nat × α)

/-- The entries of a cut as they are offered to an instance. -/
def Cut.offered {α : Type} [Scalar α] (c : Cut α) : RowEntries α where
  columns := .ok (.integers (c.entries.map fun e => Int64.ofNat e.1))
  values := .ok (c.entries.map fun e => .ofScalar e.2)

/-- The layout of the columns of a matrix. Entries that came with appended rows are not in it. -/
def SparseMatrix.layout (m : SparseMatrix Float) : ColumnLayout where
  starts := m.columns.starts.map Int.ofNat
  rows := m.columns.positions.map Int.ofNat
  values := m.columns.values.map .ofScalar
  numRows := some m.numRows

/-- The document of a problem with a name and a direction of its objective. -/
def ProblemParts.document (p : ProblemParts Float) (name sense : String) : Value :=
  .object [("name", .text name), ("sense", .text sense), ("rows", .list (p.rows.map (·.toValue))),
    ("columns", .list (p.columns.map (·.toValue))), ("matrix", p.matrix.layout.toValue)]

/-- The name and the sense of a document where none are given. -/
def defaultLabel : String × String := ("random-lp", "max")

end IncrementalLP
