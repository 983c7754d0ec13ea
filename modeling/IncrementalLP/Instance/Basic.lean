import IncrementalLP.Attempt
import IncrementalLP.Matrix.Conversion
import IncrementalLP.Instance.Names
/-!
# Instances

A linear program that is owned by a caller: its rows and columns, its matrix, the direction of its
objective, and what is known of its last solve. An instance that is only declared has nothing in
it; loading fills it.
-/
namespace IncrementalLP

/-- What has happened to an instance since it was loaded. -/
inductive Progress where
  | unsolved
  | solved
  /-- Solved once, and changed since. -/
  | modified
  deriving Repr, DecidableEq

def Progress.name : Progress → String
  | .unsolved => "unsolved"
  | .solved => "solved"
  | .modified => "modified"

structure Instance (α : Type) where
  /-- Tells instances apart, whatever their names are. -/
  token : Nat
  name : String
  sense : Sense
  matrix : SparseMatrix α
  loaded : Bool
  rows : List (Row α)
  columns : List (Column α)
  /-- The names of the rows, with their ordinals. -/
  rowTable : Names.Table
  columnTable : Names.Table
  progress : Progress
  lastStatus : Option SolveStatus
  /-- The basis from which the next solve may start. -/
  basis : Option (BasisHandle α)
  /-- How many solves have been recorded; it stamps the handles. -/
  solves : Nat

/-- The figures of an instance. -/
structure Summary where
  name : String
  sense : Sense
  rows : Nat
  columns : Nat
  nonzeros : Nat
  progress : Progress
  lastStatus : Option SolveStatus
  warmStartEligible : Bool

namespace Instance

variable {α : Type}

/-- An instance that is yet to be loaded. -/
def declare (token : Nat) (name : String) : Instance α where
  token := token
  name := name
  sense := .min
  matrix := .blank 0 0
  loaded := false
  rows := []
  columns := []
  rowTable := []
  columnTable := []
  progress := .unsolved
  lastStatus := none
  basis := none
  solves := 0

def numRows (i : Instance α) : Nat := i.rows.length

def numColumns (i : Instance α) : Nat := i.columns.length

def rowNames (i : Instance α) : List (Option String) := i.rows.map (·.name)

def columnNames (i : Instance α) : List (Option String) := i.columns.map (·.name)

def warmStartEligible (i : Instance α) : Bool := i.progress != .unsolved && i.basis.isSome

def summary (i : Instance α) : Summary where
  name := i.name
  sense := i.sense
  rows := i.numRows
  columns := i.numColumns
  nonzeros := i.matrix.size
  progress := i.progress
  lastStatus := i.lastStatus
  warmStartEligible := i.warmStartEligible

/-- The text that identifies an instance. -/
def text (i : Instance α) : String :=
  "<LPInstance '" ++ i.name ++ "' " ++ i.sense.name ++ " rows=" ++ toString i.numRows ++
    " cols=" ++ toString i.numColumns ++ " nnz=" ++ toString i.matrix.size ++
    " state=" ++ i.progress.name ++ ">"

/-- Operations other than loading need a loaded instance. -/
def requireLoaded (i : Instance α) (operation : String) : Except (Fault α) Unit :=
  if i.loaded then .ok () else .error (.notLoaded operation i.name)

/-- A position counted from the front or, if negative, from the end. -/
def position? (count : Nat) (ordinal : Int) : Option Nat :=
  if 0 ≤ ordinal then if ordinal < count then some ordinal.toNat else none
  else if 0 ≤ ordinal + count then some (ordinal + count).toNat else none

/-- The ordinal that carries a name, by the table of names. -/
def ordinalOf (table : Names.Table) (name : String) : Except (Fault α) Nat :=
  match Names.ordinal? table name with
  | some k => .ok k
  | none => .error .unknownName

/-- The name that an ordinal carries. -/
def nameAt (names : List (Option String)) (ordinal : Int) : Except (Fault α) (Option String) :=
  match (position? names.length ordinal).bind (names[·]?) with
  | some name => .ok name
  | none => .error .positionOutside

/-- The instance after rows were appended. -/
def markExtended (i : Instance α) : Instance α :=
  { i with progress := if i.progress = .solved then .modified else i.progress }

/-- The instance after a change that makes its basis useless. -/
def dropBasis (i : Instance α) : Instance α := { i.markExtended with basis := none }

/-- Drops the basis after a change that makes it useless, and reports it if there is one. -/
def loseBasis (loss : BasisLoss) : Action (Instance α) α Unit := do
  let i ← get
  if i.basis.isSome then Action.report (.basisDropped i.name loss)
  modify dropBasis

/-- The instance after a solve, whose basis it keeps. A handle that is new gets its stamp. -/
def recordSolve (i : Instance α) (r : SolveResult α) : Instance α :=
  { i with
    progress := .solved
    lastStatus := some r.status
    basis := r.basis.map fun h => { h with stamp := h.stamp <|> some (i.token, i.solves) }
    solves := i.solves + 1 }

end Instance

end IncrementalLP
