import IncrementalLP.Matrix.Sparse
/-!
# Conversions of matrices

A sparse matrix as coordinates, as compressed columns with ascending rows, and as a dense table,
and the ways back. Coordinates may name a place more than once; the values of one place are added
in the order in which they are given.
-/
namespace IncrementalLP

variable {α β : Type}

/-- Entries in compressed columns: in each column the rows ascend strictly. -/
structure Compressed (β : Type) where
  numRows : Nat
  columns : Runs β

namespace Compressed

/-- Adds the values of neighbours with equal rows, starting with a value for row `i`. -/
def sumRepeatsFrom [Add β] (i : Nat) (a : β) : List (Nat × β) → List (Nat × β)
  | [] => [(i, a)]
  | (j, b) :: rest =>
    if j = i then sumRepeatsFrom i (a + b) rest else (i, a) :: sumRepeatsFrom j b rest

def sumRepeats [Add β] : List (Nat × β) → List (Nat × β)
  | [] => []
  | (i, a) :: rest => sumRepeatsFrom i a rest

/-- The column of a matrix that holds given rows and values. -/
def columnOf [Add β] (entries : List (Nat × β)) : List (Nat × β) :=
  sumRepeats (entries.mergeSort fun a b => decide (a.1 ≤ b.1))

/-- Compresses entries into a number of columns. -/
def ofEntries [Add β] (numRows numColumns : Nat) (entries : List (Entry β)) : Compressed β where
  numRows := numRows
  columns := (List.range numColumns).map fun j =>
    columnOf ((entries.filter (·.column == j)).map fun e => (e.row, e.value))

/-- Compresses coordinates into a shape, in which each of them must lie. -/
def ofCoordinates [Add β] (numRows numColumns : Int) (entries : List (Int × Int × β)) :
    Offer (Compressed β) :=
  let outside : Int × Int × β → Bool := fun e =>
    decide (e.1 < 0) || decide (numRows ≤ e.1) || decide (e.2.1 < 0) || decide (numColumns ≤ e.2.1)
  if numRows < 0 ∨ numColumns < 0 ∨ entries.any outside then .error .unusable
  else .ok (.ofEntries numRows.toNat numColumns.toNat
    (entries.map fun e => ⟨e.1.toNat, e.2.1.toNat, e.2.2⟩))

end Compressed

/-- A table of numbers with equally long rows. -/
structure Table (α : Type) where
  numColumns : Nat
  rows : List (List (Extended α))

/-- Is the value zero? Of the two zeros both are. -/
def isZero [Scalar α] (v : Extended α) : Bool :=
  match v with
  | .finite x => x == 0
  | _ => false

/-- What is not zero in a table, row by row. -/
def Table.nonzeros [Scalar α] (t : Table α) : List (Entry (Extended α)) :=
  t.rows.zipIdx.flatMap fun (row, i) =>
    (row.zipIdx.filter fun e => !isZero e.1).map fun e => ⟨i, e.2, e.1⟩

namespace SparseMatrix

/-- The entries in compressed columns. -/
def compressed [Add α] (m : SparseMatrix α) : Compressed α :=
  .ofEntries m.numRows m.numColumns m.entries

variable [Scalar α]

/-- The value that entries give to a place: zero, with the values of that place added to it. -/
def valueAt (entries : List (Entry α)) (i j : Nat) : α :=
  (entries.filter fun e => e.row == i && e.column == j).foldl (fun s e => s + e.value) 0

/-- The rows of the matrix with all their zeros. -/
def dense (m : SparseMatrix α) : List (List α) :=
  let entries := m.entries
  (List.range m.numRows).map fun i => (List.range m.numColumns).map fun j => valueAt entries i j

/-- A matrix from compressed columns. -/
def ofCompressed (c : Compressed (Extended α)) : Except (Fault α) (SparseMatrix α) :=
  build (.ok (.integers (c.columns.starts.map Int64.ofNat)))
    (.ok (.integers (c.columns.positions.map Int64.ofNat)))
    (.ok (.numbers c.columns.values)) (.ok (some (.whole c.numRows)))

/-- A matrix of a shape from coordinates, each of which must lie inside the shape. -/
def ofCoordinates (numRows numColumns : Int) (entries : List (Int × Int × Extended α)) :
    Except (Fault α) (SparseMatrix α) := do
  ofCompressed (← accept (Compressed.ofCoordinates numRows numColumns entries))

/-- A matrix from a table. Zeros are not stored. -/
def ofTable (t : Table α) : Except (Fault α) (SparseMatrix α) :=
  ofCompressed (.ofEntries t.rows.length t.numColumns t.nonzeros)

def ofTable? (offer : Offer (Table α)) : Except (Fault α) (SparseMatrix α) := do
  ofTable (← accept offer)

/-- The matrix again, by way of its compressed columns. -/
def roundTrip (m : SparseMatrix α) : Except (Fault α) (SparseMatrix α) :=
  let c := m.compressed
  ofCompressed ⟨c.numRows, c.columns.map (·.map fun e => (e.1, .finite e.2))⟩

end SparseMatrix

end IncrementalLP
