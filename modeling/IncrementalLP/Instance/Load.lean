import IncrementalLP.Instance.Basic
/-!
# Loading

An instance is filled from a description of its rows, columns and matrix. Every check comes before
the first change, so that a description which is refused leaves the instance as it was. Names are
given to a range of rows or columns in the same way.
-/
namespace IncrementalLP

variable {α : Type}

/-- Runs a check on each item, with ordinals counted from `k`. -/
def checkEach {β : Type} (check : Nat → β → Except (Fault α) Unit) (k : Nat) :
    List β → Except (Fault α) Unit
  | [] => .ok ()
  | b :: rest => do
    check k b
    checkEach check (k + 1) rest

/-- What is given as the matrix of a description. -/
inductive MatrixSource (α : Type) where
  | held (m : SparseMatrix α)
  | layout (starts rows : Offer IndexArray) (values : Offer (ValueArray α))
      (numRows : Offer (Option (Ordinal α)))
  | compressed (c : Compressed (Extended α))
  /-- Something that is no matrix. -/
  | other

structure Description (α : Type) where
  name : String
  /-- The direction of the objective, or the text of what was given instead. -/
  sense : Except String Sense
  rows : List (Row α)
  columns : List (Column α)
  matrix : MatrixSource α

def checkSense : Except String Sense → Except (Fault α) Sense
  | .ok s => .ok s
  | .error shown => .error (.unknownSense shown)

def Row.rename (name : String) (r : Row α) : Row α := { r with name := some name }

def Column.rename (name : String) (c : Column α) : Column α := { c with name := some name }

variable [Scalar α]

/-- A right-hand side may be infinite only on the open side of an inequality, where it leaves the
row free. -/
def Row.check (ordinal : Nat) (r : Row α) : Except (Fault α) Unit :=
  let e : Entity α := ⟨.row, .whole ordinal, r.name⟩
  match r.sense, r.rhs with
  | _, .nan => .error (.rhsNan e)
  | .atMost, .negInf => .error (.neverSatisfied e r.sense.symbol r.rhs)
  | .atMost, _ => .ok ()
  | .atLeast, .posInf => .error (.neverSatisfied e r.sense.symbol r.rhs)
  | .atLeast, _ => .ok ()
  | .equal, v => if v.isFinite then .ok () else .error (.rhsNotFinite e v)
  | .range w, v =>
    if !v.isFinite then .error (.rhsNotFinite e v)
    else if w.isFinite then .ok () else .error (.widthNotFinite e w)

/-- The bounds of a column enclose a number, and its cost is one. -/
def Column.check (ordinal : Ordinal α) (c : Column α) : Except (Fault α) Unit :=
  let e : Entity α := ⟨.column, ordinal, c.name⟩
  if c.lower.isNan || c.upper.isNan then .error (.boundNan e)
  else match c.lower, c.upper with
    | .posInf, ub => .error (.unattainableBounds e .posInf ub)
    | lb, .negInf => .error (.unattainableBounds e lb .negInf)
    | lb, ub =>
      if ub.less lb then .error (.crossedBounds e lb ub)
      else if c.objective.isFinite then .ok () else .error (.costNotFinite e c.objective)

def MatrixSource.read : MatrixSource α → Except (Fault α) (SparseMatrix α)
  | .held m => .ok m
  | .layout starts rows values numRows => SparseMatrix.build starts rows values numRows
  | .compressed c => SparseMatrix.ofCompressed c
  | .other => .error .notAMatrix

namespace Instance

/-- Fills the instance from a description and discards what was known of earlier solves. -/
def load (d : Description α) : Action (Instance α) α Unit := do
  let sense ← Action.lift (checkSense d.sense)
  let matrix ← Action.lift d.matrix.read
  if matrix.numColumns ≠ d.columns.length then
    throw (.columnCount matrix.numColumns d.columns.length)
  if d.rows.length < matrix.numRows then
    throw (.rowCount matrix.numRows d.rows.length)
  Action.lift (checkEach Row.check 0 d.rows)
  Action.lift (checkEach (fun k => Column.check (.whole k)) 0 d.columns)
  let rowTable ← Action.lift (Names.index .row [] 0 (d.rows.map (·.name)))
  let columnTable ← Action.lift (Names.index .column [] 0 (d.columns.map (·.name)))
  modify fun i =>
    { i with
      name := d.name
      sense := sense
      matrix := matrix.padRows d.rows.length
      loaded := true
      rows := d.rows
      columns := d.columns
      rowTable := rowTable
      columnTable := columnTable
      progress := .unsolved
      lastStatus := none
      basis := none }
  Action.report (.loaded d.name d.rows.length d.columns.length matrix.size sense)

/-- Names the rows or columns from `first` to `last` in order. Inside the range names may change
places; a name that is carried outside the range is not free. -/
def assignNames (kind : Except String EntityKind) (names : Offer (List Names.Given))
    (first last : Int) : Action (Instance α) α Unit := do
  let i ← get
  Action.lift (i.requireLoaded "assign names")
  match kind with
  | .error shown => throw (.unknownKind shown)
  | .ok .row =>
    let given ← Action.lift (accept names)
    let (texts, table) ← Action.lift
      (Names.checkedRange .row i.numRows i.rowTable given first last)
    modify fun i => { i with rows := Names.overwrite Row.rename first.toNat texts i.rows }
    modify fun i => { i with rowTable := table }
  | .ok .column =>
    let given ← Action.lift (accept names)
    let (texts, table) ← Action.lift
      (Names.checkedRange .column i.numColumns i.columnTable given first last)
    modify fun i => { i with columns := Names.overwrite Column.rename first.toNat texts i.columns }
    modify fun i => { i with columnTable := table }

end Instance

end IncrementalLP
