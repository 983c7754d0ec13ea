import IncrementalLP.Problem.Parts
import IncrementalLP.Random.Draws
/-!
# Random problems

Problems to maximise that are feasible and bounded: all rows are upper limits that zero satisfies,
all coefficients are positive, and every column has an entry as long as there is a row.
-/
namespace IncrementalLP

namespace RandomProblem

variable {σ α : Type} [Scalar α]

/-- A whole number as a scalar. -/
def whole (n : Int) : α := Scalar.nearest n

/-- An upper limit with a random right-hand side. -/
def limit (d : DrawSource σ α) (low high : α) (name : Option String) : StateM σ (Row α) := do
  let rhs ← d.between low high
  return ⟨.atMost, .finite rhs, name⟩

/-- A random coefficient. -/
def coefficient (d : DrawSource σ α) : StateM σ α := d.between (Scalar.nearest (1 / 2)) (whole 5)

/-- One of the ordinals below a count; there is none below a count that is negative. -/
def pick (d : DrawSource σ α) (count : Int) : StateM σ (Offer Nat) :=
  if count < 0 then return .error .unusable
  else do return .ok (← d.drawBelow count.toNat)

/-- The rows in which a column has entries: each with a given chance, and one of them if there is
any row and none was chosen. -/
def chooseRows (d : DrawSource σ α) (numRows : Int) (density : Extended α) :
    StateM σ (Offer (List Nat)) := do
  let chosen ← (List.range numRows.toNat).filterM fun _ => do
    return (Extended.finite (← d.drawFraction)).less density
  if chosen.isEmpty && numRows ≠ 0 then
    return (← pick d numRows).map fun i => [i]
  else return .ok chosen

/-- The entries of a number of columns; it ends early where a row cannot be chosen. -/
def columnRuns (d : DrawSource σ α) (numRows : Int) (density : Extended α) :
    Nat → StateM σ (Offer (Runs α))
  | 0 => return .ok []
  | k + 1 => do
    match ← chooseRows d numRows density with
    | .error cause => return .error cause
    | .ok rows =>
      let run ← rows.mapM fun i => do return (i, ← coefficient d)
      return (← columnRuns d numRows density k).map (run :: ·)

/-- Runs as a matrix of a number of rows. -/
def matrixOf (runs : Runs α) (numRows : Int) : Except (Fault α) (SparseMatrix α) :=
  SparseMatrix.build (.ok (.integers (runs.starts.map Int64.ofNat)))
    (.ok (.integers (runs.positions.map Int64.ofNat)))
    (.ok (.numbers (runs.values.map .finite))) (.ok (some (.whole numRows)))

/-- A random problem of given sizes. -/
def generate (d : DrawSource σ α) (numRows numColumns : Int) (density : Extended α) :
    StateM σ (Except (Fault α) (ProblemParts α)) := do
  let n : α := whole numColumns
  let rows ← (List.range numRows.toNat).mapM fun i =>
    limit d (n * whole 2) (n * whole 6) (some ("c" ++ toString i))
  let columns ← (List.range numColumns.toNat).mapM fun j => do
    let cost ← d.between (whole 1) (whole 4)
    return { Column.free with objective := .finite cost, name := some ("x" ++ toString j) }
  match ← columnRuns d numRows density numColumns.toNat with
  | .error cause => return .error (.misread cause)
  | .ok runs => return (matrixOf runs numRows).map fun matrix => ⟨rows, columns, matrix⟩

/-- The random entries of a cut over a number of columns. -/
def cutEntries (d : DrawSource σ α) (density : Extended α) : List Nat → StateM σ (List (Nat × α))
  | [] => return []
  | j :: rest => do
    if (Extended.finite (← d.drawFraction)).less density then
      let v ← coefficient d
      return (j, v) :: (← cutEntries d density rest)
    else cutEntries d density rest

/-- A random row that zero satisfies, over a number of columns. It has an entry if there is a
column. -/
def cut (d : DrawSource σ α) (numColumns : Int) (density : Extended α) :
    StateM σ (Except (Fault α) (Cut α)) := do
  let entries ← cutEntries d density (List.range numColumns.toNat)
  let filled : Offer (List (Nat × α)) ← do
    if entries.isEmpty && numColumns ≠ 0 then
      match ← pick d numColumns with
      | .error cause => pure (.error cause)
      | .ok j => do pure (.ok [(j, ← coefficient d)])
    else pure (.ok entries)
  match filled with
  | .error cause => return .error (.misread cause)
  | .ok entries =>
    let row ← limit d (whole 1) (whole numColumns * whole 3) none
    return .ok ⟨row, entries⟩

/-- A number of cuts, one after the other. -/
def cuts (d : DrawSource σ α) (numColumns : Int) (density : Extended α) :
    Nat → StateM σ (Except (Fault α) (List (Cut α)))
  | 0 => return .ok []
  | k + 1 => do
    match ← cut d numColumns density with
    | .error f => return .error f
    | .ok c => return (← cuts d numColumns density k).map (c :: ·)

/-- The random problem of a seed. -/
def ofSeed (numRows numColumns : Int) (density : α) (seed : Int) :
    Except (Fault α) (ProblemParts α) :=
  (generate Twister.source numRows numColumns (.ofScalar density) (Twister.ofSeed seed)).1

/-- A number of cuts of a seed. -/
def cutsOfSeed (numColumns : Int) (density : α) (seed : Int) (count : Nat) :
    Except (Fault α) (List (Cut α)) :=
  (cuts Twister.source numColumns (.ofScalar density) count (Twister.ofSeed seed)).1

end RandomProblem

end IncrementalLP
