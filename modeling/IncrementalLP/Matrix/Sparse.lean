import IncrementalLP.Attempt
import IncrementalLP.Matrix.Offered
import IncrementalLP.Matrix.Runs
/-!
# Sparse matrices

A constraint matrix that grows at two ends. Entries that come with columns are kept in one run per
column; entries that come with appended rows are kept in one run per row, so that appending rows
never touches the columns. Everything a caller hands in is checked before it is stored.
-/
namespace IncrementalLP

/-- An entry by its place. -/
structure Entry (β : Type) where
  row : Nat
  column : Nat
  value : β
  deriving Repr, DecidableEq

structure SparseMatrix (α : Type) where
  /-- The rows before the first appended one. -/
  baseRows : Nat
  /-- For each column the entries that came with it, as rows and values. -/
  columns : Runs α
  /-- For each appended row the entries that came with it, as columns and values. -/
  appended : Runs α

namespace SparseMatrix

variable {α : Type}

def numRows (m : SparseMatrix α) : Nat := m.baseRows + m.appended.length

def numColumns (m : SparseMatrix α) : Nat := m.columns.length

/-- The number of entries. -/
def size (m : SparseMatrix α) : Nat := m.columns.size + m.appended.size

/-- A matrix without entries. -/
def blank (rows columns : Nat) : SparseMatrix α := ⟨rows, List.replicate columns [], []⟩

/-- A matrix without entries; no count may be negative. -/
def blank? (rows columns : Int) : Except (Fault α) (SparseMatrix α) :=
  if rows < 0 ∨ columns < 0 then .error (.negativeShape rows columns)
  else .ok (blank rows.toNat columns.toNat)

/-- The entries: those of the columns in order, then those of the appended rows in order. -/
def entries (m : SparseMatrix α) : List (Entry α) :=
  (m.columns.zipIdx.flatMap fun (run, j) => run.map fun e => ⟨e.1, j, e.2⟩) ++
    ((m.appended.zipIdx m.baseRows).flatMap fun (run, i) => run.map fun e => ⟨i, e.1, e.2⟩)

/-- The entries of a column as rows and values: those that came with it first. -/
def columnEntries (m : SparseMatrix α) (j : Nat) : List (Nat × α) :=
  m.columns.getD j [] ++ (m.appended.atPosition j).map fun e => (m.baseRows + e.1, e.2)

/-- The entries of a row as columns and values: those that came with columns first. -/
def rowEntries (m : SparseMatrix α) (i : Nat) : List (Nat × α) :=
  m.columns.atPosition i ++
    (if m.baseRows ≤ i then m.appended.getD (i - m.baseRows) [] else [])

def column (m : SparseMatrix α) (j : Int) : Except (Fault α) (List (Nat × α)) :=
  if 0 ≤ j ∧ j < m.numColumns then .ok (m.columnEntries j.toNat)
  else .error (.columnPosition j m.numColumns)

def row (m : SparseMatrix α) (i : Int) : Except (Fault α) (List (Nat × α)) :=
  if 0 ≤ i ∧ i < m.numRows then .ok (m.rowEntries i.toNat)
  else .error (.rowPosition i m.numRows)

section

variable [Scalar α]

/-- Starts begin at zero and do not decrease. The sign of a difference decides, which is taken in
words of 64 bits. Columns are counted from `first`. -/
def checkStarts (first : Nat) (starts : List Int64) : Except (Fault α) Unit :=
  match starts with
  | [] => .error .noColumnStart
  | s :: _ =>
    if s ≠ 0 then .error (.firstStartNotZero s.toInt)
    else
      match (Runs.steps starts).findIdx? (· < 0) with
      | some k =>
        .error (.startsDecrease (first + k) (starts.getD k 0).toInt (starts.getD (k + 1) 0).toInt)
      | none => .ok ()

/-- The last start is the number of rows and of values. -/
def checkCounts (starts rows : List Int64) (values : List α) : Except (Fault α) Unit :=
  let declared := (starts.getLastD 0).toInt
  if rows.length = declared ∧ values.length = declared then .ok ()
  else .error (.entryCounts declared rows.length values.length)

/-- The columns of a number of entries, one after the other. Where the differences of starts have
wrapped around, the lengths of the columns add up to more than there is memory for. -/
def ownersOf (starts : List Int64) (size : Nat) : Except (Fault α) (List Nat) :=
  if (Runs.lengths starts).foldl (· + ·) 0 = size then .ok (Runs.owners 0 (Runs.lengths starts))
  else .error .lengthsOverflow

/-- No row is negative or reaches the row count. -/
def checkRange (first : Nat) (numRows : Ordinal α) (owners : List Nat) (rows : List Int64) :
    Except (Fault α) Unit :=
  match rows.findIdx? fun r => decide (r < 0) || numRows.atMost r.toInt with
  | some k => .error (.rowOutside (first + owners.getD k 0) (rows.getD k 0).toInt numRows)
  | none => .ok ()

/-- No column lists a row twice: once the entries are in order, a row that is listed twice stands
beside itself. -/
def checkRepeats (first : Nat) (owners : List Nat) (rows : List Int64) :
    Except (Fault α) Unit :=
  match Runs.twin? (Runs.sort (owners.zip (rows.map (·.toInt)))) with
  | some (j, r) => .error (.rowRepeated (first + j) r)
  | none => .ok ()

/-- Checks the rows of entries in flat columns. Without entries there is nothing to check. -/
def checkRows (first : Nat) (numRows : Ordinal α) (starts rows : List Int64) :
    Except (Fault α) Unit :=
  if rows.isEmpty then .ok ()
  else do
    let owners ← ownersOf starts rows.length
    checkRange first numRows owners rows
    checkRepeats first owners rows

/-- The columns of a flat layout, if it is one. -/
def checkedRuns (first : Nat) (numRows : Ordinal α) (starts rows : List Int64)
    (values : List α) : Except (Fault α) (Runs α) := do
  checkStarts first starts
  checkCounts starts rows values
  checkRows first numRows starts rows
  let runs := Runs.cut (Runs.lengths starts) (rows.zip values)
  return runs.map (·.map fun e => (e.1.toInt.toNat, e.2))

/-- The row count that is meant: the one given, or just enough for the largest row. -/
def rowCount (rows : List Int64) : Option (Ordinal α) → Except (Fault α) (Ordinal α)
  | none => .ok (.whole (((rows.map (·.toInt)).max?.map (· + 1)).getD 0))
  | some n => if n.isNegative then .error (.negativeRowCount n) else .ok n

/-- A matrix from a column layout: where each column starts, the row of each entry, its value. -/
def build (starts rows : Offer IndexArray) (values : Offer (ValueArray α))
    (numRows : Offer (Option (Ordinal α))) : Except (Fault α) (SparseMatrix α) := do
  let starts ← readPositions .columnStart starts
  let rows ← readPositions .rowIndex rows
  let values ← readValues values
  let count ← rowCount rows (← accept numRows)
  let columns ← checkedRuns 0 count starts rows values
  return ⟨← accept count.count, columns, []⟩

/-- Appends columns in a layout of their own; answers with the ordinal of the first. -/
def appendColumns (starts rows : Offer IndexArray) (values : Offer (ValueArray α)) :
    Action (SparseMatrix α) α Nat := do
  let m ← get
  let starts ← Action.lift (readPositions .columnStart starts)
  let rows ← Action.lift (readPositions .rowIndex rows)
  let values ← Action.lift (readValues values)
  let columns ← Action.lift (checkedRuns m.numColumns (.whole m.numRows) starts rows values)
  modify fun m => { m with columns := m.columns ++ columns }
  return m.numColumns

/-- The entries of a row with a given ordinal, if they fit a number of columns. -/
def checkedRow (numColumns ordinal : Nat) (offer : Offer (RowEntries α)) :
    Except (Fault α) (List (Nat × α)) := do
  let given ← accept offer
  let columns ← readPositions (.columnsOfRow ordinal) given.columns
  let values ← accept given.values
  if let some j := columns.find? fun j => decide (j < 0) || decide ((numColumns : Int) ≤ j.toInt) then
    throw (.columnOutside ordinal j.toInt numColumns)
  if let some j := Runs.leastRepeated? (columns.map (·.toInt)) then
    throw (.columnRepeated ordinal j)
  match values.mapM (·.finite?) with
  | some finite => return (columns.map (·.toInt.toNat)).zip finite
  | none => throw (.entryNotFinite ordinal)

/-- The rows to be appended, ordinals counted from `first`. -/
def checkedRows (numColumns first : Nat) :
    List (Offer (RowEntries α)) → Except (Fault α) (Runs α)
  | [] => .ok []
  | row :: rest => do
    let entries ← checkedRow numColumns first row
    return entries :: (← checkedRows numColumns (first + 1) rest)

/-- Appends rows, all of them or none; answers with the ordinal of the first. -/
def appendRows (rows : Offer (List (Offer (RowEntries α)))) : Action (SparseMatrix α) α Nat := do
  let m ← get
  let rows ← Action.lift (accept rows)
  let prepared ← Action.lift (checkedRows m.numColumns m.numRows rows)
  Action.forEach prepared fun entries =>
    modify fun m => { m with appended := m.appended ++ [entries] }
  return m.numRows

/-- Appends rows without entries up to a row count. As long as no row has been appended, they are
counted with the rows of the columns. -/
def padRows (m : SparseMatrix α) (numRows : Nat) : SparseMatrix α :=
  let extra := numRows - m.numRows
  if m.appended.isEmpty then { m with baseRows := m.baseRows + extra }
  else { m with appended := m.appended ++ List.replicate extra [] }

/-- Appends rows without entries; the row count cannot shrink. -/
def extendRows (numRows : Int) : Action (SparseMatrix α) α Unit := do
  let m ← get
  if numRows < m.numRows then throw (.shrinking m.numRows numRows)
  modify fun m => m.padRows numRows.toNat

/-- The text that identifies the sizes of a matrix. -/
def text (m : SparseMatrix α) : String :=
  "<SparseMatrix " ++ Fault.sizes m.numRows m.numColumns ++ " nnz=" ++ toString m.size ++ ">"

end

end SparseMatrix

end IncrementalLP
