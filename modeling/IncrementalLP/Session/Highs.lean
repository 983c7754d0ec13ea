import IncrementalLP.Simplex.Solve
/-!
# HiGHS

An engine that leaves the work to the package `highspy`, which is a parameter here: a HiGHS object
gets calls, and what it tells depends on the calls that it got. The basis stays in the object, so a
warm solve needs the object of the last solve and appends the rows that it does not know yet.
-/
namespace IncrementalLP

/-- What a HiGHS object tells about the end of a run. -/
inductive HighsStatus where
  | optimal
  | modelEmpty
  | infeasible
  | unbounded
  | unboundedOrInfeasible
  | timeLimit
  | iterationLimit
  | interrupted
  | notSet
  | other
  deriving Repr, DecidableEq

/-- A call that a HiGHS object gets. Rows and columns come with the entries of all of them in one
list, and with the place at which the entries of each one start. -/
inductive HighsCall (α : Type) where
  | silence
  | addRows (lower upper : List (Extended α)) (starts columns : List Nat) (values : List α)
  | addColumns (costs lower upper : List (Extended α)) (starts rows : List Nat) (values : List α)
  | changeSense (sense : Sense)
  | useSimplex (method : SolveMethod)
  | limitIterations (limit : Int)
  | limitTime (limit : α)
  | run

/-- A HiGHS object: its number among those that an engine has made, and the calls that it got. -/
structure HighsObject (α : Type) where
  number : Nat
  calls : List (HighsCall α)

/-- The package `highspy`. -/
structure Highspy (α : Type) where
  /-- Has the last call failed? -/
  failed : HighsObject α → Bool
  status : HighsObject α → HighsStatus
  statusText : HighsObject α → String
  objective : HighsObject α → α
  iterations : HighsObject α → Int
  columnValues : HighsObject α → List α
  rowDuals : HighsObject α → List α

/-- The HiGHS engine between calls. -/
structure HighsEngine (α : Type) where
  package : Highspy α
  /-- The token of the registered instance. -/
  registered : Option Nat := none
  /-- The object that was filled last. -/
  held : Option (HighsObject α) := none
  /-- The token of the instance that it was filled with. -/
  owner : Option Nat := none
  /-- The rows and the columns that it knows. -/
  knownRows : Nat := 0
  knownColumns : Nat := 0
  /-- How many objects were made. -/
  made : Nat := 0

variable {α : Type}

namespace HighsObject

def after (o : HighsObject α) (calls : List (HighsCall α)) : HighsObject α :=
  { o with calls := o.calls ++ calls }

/-- An object that has run under given options. -/
def ran (object : HighsObject α) (method : SolveMethod) (o : SolveOptions α) : HighsObject α :=
  object.after ([.useSimplex method, .limitIterations o.maxIterations] ++
    (o.timeLimit.map .limitTime).toList ++ [.run])

end HighsObject

namespace Highspy

/-- The name under which HiGHS keeps its bases. -/
def name : String := "highs"

/-- An object whose last call, of a given name, must not have failed. -/
def checked (h : Highspy α) (call : String) (o : HighsObject α) :
    Except (Fault α) (HighsObject α) :=
  if h.failed o then .error (.engineFailed ("HiGHS " ++ call ++ " failed.")) else .ok o

/-- What the status of an object stands for, with a message; nothing if it has not run. -/
def outcome (h : Highspy α) (o : HighsObject α) :
    Except (Fault α) (Option (SolveStatus × String)) :=
  match h.status o with
  | .optimal | .modelEmpty => .ok (some (.optimal, ""))
  | .infeasible => .ok (some (.infeasible, "Infeasible."))
  | .unbounded => .ok (some (.unbounded, "Unbounded."))
  | .unboundedOrInfeasible => .ok (some (.infeasible, "Unbounded or infeasible."))
  | .timeLimit | .iterationLimit | .interrupted => .ok (some (.unfinished, h.statusText o))
  | .notSet => .ok none
  | .other => .error (.engineFailed ("HiGHS reported " ++ h.statusText o ++ "."))

/-- How an object has ended that was run. -/
def ending (h : Highspy α) (o : HighsObject α) : Except (Fault α) (SolveStatus × String) := do
  let o ← h.checked "run" o
  match ← h.outcome o with
  | some ending => return ending
  | none => throw (.engineFailed "HiGHS finished without a model status.")

/-- The result that an object stands for. -/
def result (h : Highspy α) (i : Instance α) (method : SolveMethod) (o : SolveOptions α)
    (object : HighsObject α) (status : SolveStatus) (message : String) : SolveResult α :=
  if status = .optimal then
    { status := .optimal
      objective := some (h.objective object)
      x := some (h.columnValues object)
      duals := if o.wantDuals then some (h.rowDuals object) else none
      iterations := h.iterations object
      method := method
      basis := some
        { owner := i.token
          numRows := i.numRows
          numColumns := i.numColumns
          engine := name } }
  else
    { status := status
      objective := none
      iterations := h.iterations object
      method := method
      message := message }

variable [Scalar α]

/-- The call that appends the rows of an instance from a place on, with given entries. -/
def rowsCall (i : Instance α) (first : Nat) (entries : Runs α) : HighsCall α :=
  let rows := i.rows.drop first
  .addRows (rows.map (·.lower)) (rows.map (·.upper)) entries.starts.dropLast entries.positions
    entries.values

def columnsCall (i : Instance α) : HighsCall α :=
  let entries := i.matrix.compressed.columns
  .addColumns (i.columns.map (·.objective)) (i.columns.map (·.lower)) (i.columns.map (·.upper))
    entries.starts.dropLast entries.positions entries.values

/-- An object filled with an instance: empty rows first, then the columns with their entries. -/
def filled (h : Highspy α) (i : Instance α) (o : HighsObject α) :
    Except (Fault α) (HighsObject α) := do
  let o ← h.checked "addRows" (o.after [rowsCall i 0 (List.replicate i.numRows [])])
  let o ← h.checked "addCols" (o.after [columnsCall i])
  h.checked "changeObjectiveSense" (o.after [.changeSense i.sense])

end Highspy

namespace HighsEngine

/-- The object from which a warm solve of an instance can start. -/
def ready? (e : HighsEngine α) (i : Instance α) : Option (HighsObject α) :=
  if e.owner = some i.token ∧ e.knownColumns = i.numColumns ∧ e.knownRows ≤ i.numRows then e.held
  else none

/-- The engine without its instance and its object. -/
def close (e : HighsEngine α) : HighsEngine α :=
  { e with registered := none, held := none, owner := none }

/-- What the object that is held has found, if there is one. -/
def status (e : HighsEngine α) : Except (Fault α) (Option SolveStatus) :=
  match e.held with
  | some o => (e.package.outcome o).map (·.map (·.1))
  | none => .ok none

def objective (e : HighsEngine α) : Option α := e.held.map e.package.objective

/-- Runs an object. -/
def run (i : Instance α) (method : SolveMethod) (o : SolveOptions α) (object : HighsObject α) :
    Action (HighsEngine α) α (SolveResult α) := do
  let package := (← get).package
  let object := object.ran method o
  modify fun e => { e with held := some object }
  let (status, message) ← Action.lift (package.ending object)
  Action.report (.highsEnded method i.name status (package.iterations object))
  return package.result i method o object status message

variable [Scalar α]

/-- Fills a new object with an instance, and holds it from then on. -/
def load (i : Instance α) : Action (HighsEngine α) α (HighsObject α) := do
  let e ← get
  set { e with made := e.made + 1 }
  let object ← Action.lift (e.package.filled i ⟨e.made, [.silence]⟩)
  modify fun e =>
    { e with
      held := some object
      owner := some i.token
      knownRows := i.numRows
      knownColumns := i.numColumns }
  return object

/-- Appends the rows of an instance that an object does not know yet. -/
def appendRows (i : Instance α) (object : HighsObject α) :
    Action (HighsEngine α) α (HighsObject α) := do
  let e ← get
  if i.numRows ≤ e.knownRows then return object
  let entries := (List.range' e.knownRows (i.numRows - e.knownRows)).map i.matrix.rowEntries
  let object := object.after [Highspy.rowsCall i e.knownRows entries]
  set { e with held := some object }
  let _ ← Action.lift (e.package.checked "addRows" object)
  modify fun e => { e with knownRows := i.numRows }
  return object

/-- Solves an instance from scratch. -/
def solvePrimal (i : Instance α) (o : SolveOptions α) :
    Action (HighsEngine α) α (SolveResult α) := do
  run i .primal o (← load i)

/-- Solves an instance from the basis of the object that is held, or else from scratch. -/
def solveDual (i : Instance α) (o : SolveOptions α) :
    Action (HighsEngine α) α (SolveResult α) := do
  match (← get).ready? i with
  | some object => run i .dual o (← appendRows i object)
  | none =>
    Action.report (.highsWithoutBasis i.name)
    solvePrimal i o

end HighsEngine

end IncrementalLP
