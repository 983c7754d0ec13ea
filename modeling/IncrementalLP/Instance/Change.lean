import IncrementalLP.Instance.Load
/-!
# Changes

In-place changes of a loaded instance. Appended rows keep the basis of the last solve, so that the
next solve can start from it; every other change drops it.
-/
namespace IncrementalLP

/-- New bounds for a column. -/
structure BoundChange (α : Type) where
  column : Offer (Ordinal α)
  lower : Offer (Extended α)
  upper : Offer (Extended α)

/-- A new cost for a column. -/
structure CostChange (α : Type) where
  column : Offer (Ordinal α)
  cost : Offer (Extended α)

namespace Instance

variable {α : Type} [Scalar α]

/-- Does something with the matrix. -/
def onMatrix {β : Type} (task : Action (SparseMatrix α) α β) : Action (Instance α) α β :=
  Action.within (·.matrix) (fun m i => { i with matrix := m }) task

/-- Appends rows, each with its entries; answers with their ordinals. -/
def addRows (rows : List (Row α)) (entries : Offer (List (Offer (RowEntries α)))) :
    Action (Instance α) α (List Nat) := do
  let i ← get
  Action.lift (i.requireLoaded "add rows")
  let entries ← Action.lift (accept entries)
  let first := i.numRows
  if rows.length ≠ entries.length then throw (.entryListCount rows.length entries.length)
  Action.lift (checkEach Row.check first rows)
  let names ← Action.lift (Names.index .row i.rowTable first (rows.map (·.name)))
  if i.matrix.numRows ≠ first then throw (.rowsOutOfStep i.matrix.numRows first)
  let _ ← onMatrix (SparseMatrix.appendRows (.ok entries))
  modify fun i => { i with rows := i.rows ++ rows }
  modify fun i => { i with rowTable := names }
  if !rows.isEmpty then
    modify markExtended
    Action.report (.rowsAppended i.name first (first + rows.length - 1))
  return List.range' first rows.length

/-- Appends one row, unless its description is at fault; answers with its ordinal. -/
def addRow (row : Except Complaint (Row α)) (entries : Offer (RowEntries α)) :
    Action (Instance α) α Nat := do
  let i ← get
  match row with
  | .error complaint => throw (.rowRejected i.numRows complaint)
  | .ok r =>
    let ordinals ← addRows [r] (.ok [entries])
    return ordinals.headD i.numRows

/-- Appends columns in a column layout; answers with their ordinals. The count is the length of the
starts as they were offered. -/
def addColumns (columns : List (Column α)) (count : Offer Nat) (starts rows : Offer IndexArray)
    (values : Offer (ValueArray α)) : Action (Instance α) α (List Nat) := do
  let i ← get
  Action.lift (i.requireLoaded "add columns")
  let count ← Action.lift (accept count)
  let first := i.numColumns
  if count ≠ columns.length + 1 then throw (.columnStartCount count columns.length)
  Action.lift (checkEach (fun k => Column.check (.whole k)) first columns)
  let names ← Action.lift (Names.index .column i.columnTable first (columns.map (·.name)))
  let _ ← onMatrix (SparseMatrix.appendColumns starts rows values)
  modify fun i => { i with columns := i.columns ++ columns }
  modify fun i => { i with columnTable := names }
  if !columns.isEmpty then loseBasis .columnsAdded
  return List.range' first columns.length

/-- The column that a change speaks of, if it is one of a number of columns. -/
def checkedColumn (count : Nat) (offer : Offer (Ordinal α)) : Except (Fault α) (Ordinal α) := do
  let ordinal ← accept offer
  if ordinal.isBelow count then return ordinal else throw (.noSuchColumn ordinal count)

/-- The position of a column that lies below the number of columns. -/
def columnPosition (ordinal : Ordinal α) : Except (Fault α) Nat :=
  match ordinal.whole? with
  | some k => .ok k.toNat
  | none => .error (.misread .notAPosition)

/-- A column with new bounds, and its position. -/
def checkedBounds (columns : List (Column α)) (offer : Offer (BoundChange α)) :
    Except (Fault α) (Nat × Column α) := do
  let change ← accept offer
  let ordinal ← checkedColumn columns.length change.column
  let k ← columnPosition ordinal
  let lower ← accept change.lower
  let upper ← accept change.upper
  match columns[k]? with
  | none => throw .positionOutside
  | some c =>
    let updated := { c with lower := lower, upper := upper }
    Column.check ordinal updated
    return (k, updated)

/-- Changes the bounds of columns, all of them or none. -/
def changeBounds (changes : Offer (List (Offer (BoundChange α)))) : Action (Instance α) α Unit := do
  let i ← get
  Action.lift (i.requireLoaded "change bounds")
  let changes ← Action.lift (accept changes)
  let staged ← Action.lift (changes.mapM (checkedBounds i.columns))
  Action.forEach staged fun s => modify fun i => { i with columns := i.columns.set s.1 s.2 }
  if !staged.isEmpty then loseBasis .boundsChanged

/-- A finite cost for a column. -/
def checkedCost (count : Nat) (offer : Offer (CostChange α)) :
    Except (Fault α) (Ordinal α × Extended α) := do
  let change ← accept offer
  let ordinal ← checkedColumn count change.column
  let cost ← accept change.cost
  if cost.isFinite then return (ordinal, cost) else throw (.newCostNotFinite ordinal)

/-- Sets the cost of a column, if the ordinal is a position. -/
def setCost (change : Ordinal α × Extended α) : Action (Instance α) α Unit := do
  let k ← Action.lift (columnPosition change.1)
  modify fun i => { i with columns := i.columns.modify k fun c => { c with objective := change.2 } }

/-- Changes the costs of columns. An ordinal that is no position ends this early, and the costs set
before stay set. -/
def changeObjective (changes : Offer (List (Offer (CostChange α)))) :
    Action (Instance α) α Unit := do
  let i ← get
  Action.lift (i.requireLoaded "change objective")
  let changes ← Action.lift (accept changes)
  let staged ← Action.lift (changes.mapM (checkedCost i.numColumns))
  Action.forEach staged setCost
  if !staged.isEmpty then loseBasis .objectiveChanged

/-- Turns the direction of the objective. -/
def changeSense (sense : Except String Sense) : Action (Instance α) α Unit := do
  let i ← get
  Action.lift (i.requireLoaded "change objective sense")
  let s ← Action.lift (checkSense sense)
  if s ≠ i.sense then
    modify fun i => { i with sense := s }
    loseBasis .senseChanged

end Instance

end IncrementalLP
