import IncrementalLP.Problem.Solve
import IncrementalLP.Problem.Row
/-!
# Events

What an operation reports about its progress: the event itself, its level of importance, the part
of the library that reports it, and the line that is written to a log.
-/
namespace IncrementalLP

/-- How important an event is. Every integer is a level; some of them have names. -/
structure Level where
  rank : Int
  deriving Repr, DecidableEq

namespace Level

/-- The level of a log that leaves the choice to its surroundings. -/
def unset : Level := ⟨0⟩

def debug : Level := ⟨10⟩

def info : Level := ⟨20⟩

def warning : Level := ⟨30⟩

def error : Level := ⟨40⟩

def critical : Level := ⟨50⟩

def named : List (String × Level) :=
  [("NOTSET", unset), ("DEBUG", debug), ("INFO", info), ("WARNING", warning), ("ERROR", error),
    ("CRITICAL", critical)]

def name (l : Level) : String :=
  match named.find? (·.2 == l) with
  | some e => e.1
  | none => "Level " ++ toString l.rank

/-- The level of a name. Two levels have a second name. -/
def ofName? (s : String) : Option Level :=
  ((named ++ [("WARN", warning), ("FATAL", critical)]).find? (·.1 == s)).map (·.2)

end Level

/-- The changes that end the use of a basis. -/
inductive BasisLoss where
  | columnsAdded
  | boundsChanged
  | objectiveChanged
  | senseChanged
  deriving Repr, DecidableEq

def BasisLoss.text : BasisLoss → String
  | .columnsAdded => "columns added"
  | .boundsChanged => "bounds changed"
  | .objectiveChanged => "objective changed"
  | .senseChanged => "objective sense changed"

/-- Why a basis is of no use for a warm start. -/
inductive WarmRefusal where
  | basisMismatch
  | notDualFeasible
  deriving Repr, DecidableEq

def WarmRefusal.text : WarmRefusal → String
  | .basisMismatch => "basis does not match the current rows"
  | .notDualFeasible => "basis is not dual feasible"

inductive Event (α : Type) where
  | loaded (name : String) (rows columns nonzeros : Nat) (sense : Sense)
  | rowsAppended (name : String) (first last : Nat)
  | basisDropped (name : String) (loss : BasisLoss)
  | primalPivot (count entering leaving : Nat) (step : α)
  | dualPivot (count leaving : Nat) (level : α) (entering : Nat) (ratio : α)
  | solvedOptimal (method : SolveMethod) (name : String) (objective : α) (iterations : Nat)
  | solveEnded (method : SolveMethod) (name : String) (status : SolveStatus) (iterations : Nat)
  | warmStartRefused (name : String) (refusal : WarmRefusal)
  | highsEnded (method : SolveMethod) (name : String) (status : SolveStatus) (iterations : Int)
  | highsWithoutBasis (name : String)
  deriving Repr

namespace Event

variable {α : Type}

def level : Event α → Level
  | .loaded .. | .solvedOptimal .. | .solveEnded .. | .highsEnded .. => .info
  | .rowsAppended .. | .basisDropped .. | .primalPivot .. | .dualPivot .. => .debug
  | .warmStartRefused .. | .highsWithoutBasis .. => .warning

/-- The name under which a part of the library reports. -/
def source : Event α → String
  | .loaded .. => "lpdriver.model.builder"
  | .rowsAppended .. => "lpdriver.model.mutator"
  | .basisDropped .. => "lpdriver.model.instance"
  | .primalPivot .. | .dualPivot .. | .solvedOptimal .. | .solveEnded .. | .warmStartRefused .. =>
    "lpdriver.engine.simplex"
  | .highsEnded .. | .highsWithoutBasis .. => "lpdriver.engine.highs"

variable [Scalar α]

def message : Event α → String
  | .loaded name rows columns nonzeros sense =>
    "Loaded '" ++ name ++ "': " ++ toString rows ++ " rows, " ++ toString columns ++ " columns, " ++
      toString nonzeros ++ " nonzeros (" ++ sense.name ++ ")."
  | .rowsAppended name first last =>
    "Instance '" ++ name ++ "': appended rows " ++ toString first ++ ".." ++ toString last ++ "."
  | .basisDropped name loss =>
    "Instance '" ++ name ++ "': warm start disabled (" ++ loss.text ++ ")."
  | .primalPivot count entering leaving step =>
    "primal pivot " ++ toString count ++ ": column " ++ toString entering ++ " enters, column " ++
      toString leaving ++ " leaves (step " ++ Scalar.rounded 6 step ++ ")"
  | .dualPivot count leaving level entering ratio =>
    "dual pivot " ++ toString count ++ ": column " ++ toString leaving ++ " leaves at " ++
      Scalar.rounded 6 level ++ ", column " ++ toString entering ++ " enters (ratio " ++
      Scalar.rounded 6 ratio ++ ")"
  | .solvedOptimal method name objective iterations =>
    method.name ++ " simplex on '" ++ name ++ "': optimal objective " ++
      Scalar.rounded 10 objective ++ " in " ++ toString iterations ++ " iterations."
  | .solveEnded method name status iterations =>
    method.name ++ " simplex on '" ++ name ++ "': " ++ status.name ++ " after " ++
      toString iterations ++ " iterations."
  | .warmStartRefused name refusal =>
    "Warm start of '" ++ name ++ "' not possible (" ++ refusal.text ++
      "). Falling back to cold start."
  | .highsEnded method name status iterations =>
    "HiGHS " ++ method.name ++ " simplex on '" ++ name ++ "': " ++ status.name ++ " after " ++
      toString iterations ++ " iterations."
  | .highsWithoutBasis name =>
    "HiGHS holds no basis for '" ++ name ++ "'. Falling back to cold start."

/-- The event as a line of a log. -/
def line (e : Event α) : String := e.level.name ++ " " ++ e.source ++ ": " ++ e.message

end Event

end IncrementalLP
