import IncrementalLP.Number.Scalar
import IncrementalLP.Form.Label
/-!
# Solves

What a solve is asked for, what it answers, and the handle by which a later solve starts from the
basis of an earlier one.
-/
namespace IncrementalLP

/-- Which of the improving columns enters the basis. -/
inductive PivotRule where
  | dantzig
  | bland
  deriving Repr, DecidableEq

/-- The engines that a session can be opened with by name. -/
inductive EngineChoice where
  | simplex
  | highs
  deriving Repr, DecidableEq

namespace PivotRule

def name : PivotRule → String
  | .dantzig => "dantzig"
  | .bland => "bland"

end PivotRule

namespace EngineChoice

def name : EngineChoice → String
  | .simplex => "simplex"
  | .highs => "highs"

def ofName? (s : String) : Option EngineChoice :=
  if s = "simplex" then some .simplex else if s = "highs" then some .highs else none

end EngineChoice

structure SolveOptions (α : Type) where
  maxIterations : Int
  /-- Values smaller than this in magnitude count as zero. -/
  tolerance : α
  rule : PivotRule
  wantDuals : Bool
  /-- Seconds a solve may take. -/
  timeLimit : Option α
  engine : EngineChoice
  logFile : Option String
  /-- What the clock shows, in seconds: first when the deadline is set, then before each pivot. It is
  read only under a time limit. -/
  clock : Nat → α

/-- Ten thousand iterations and a tolerance of a billionth. -/
def SolveOptions.standard {α : Type} [Scalar α] : SolveOptions α where
  maxIterations := 10000
  tolerance := Scalar.nearest (1 / 1000000000)
  rule := .dantzig
  wantDuals := true
  timeLimit := none
  engine := .simplex
  logFile := none
  clock := fun _ => 0

namespace SolveOptions

variable {α : Type}

/-- Has the time run out after a number of pivots? A deadline that is not a number never passes. -/
def expired [Scalar α] (o : SolveOptions α) (pivots : Nat) : Bool :=
  match o.timeLimit with
  | some limit => decide (o.clock 0 + limit ≤ o.clock (pivots + 1))
  | none => false

/-- The options for what is left of a solve after a number of pivots: the deadline stays, and time
has gone on. -/
def after (o : SolveOptions α) (pivots : Nat) : SolveOptions α :=
  { o with clock := fun
      | 0 => o.clock 0
      | k + 1 => o.clock (pivots + k + 1) }

end SolveOptions

inductive SolveStatus where
  | optimal
  | infeasible
  | unbounded
  | unfinished
  deriving Repr, DecidableEq

inductive SolveMethod where
  | primal
  | dual
  deriving Repr, DecidableEq

namespace SolveStatus

def name : SolveStatus → String
  | .optimal => "optimal"
  | .infeasible => "infeasible"
  | .unbounded => "unbounded"
  | .unfinished => "unfinished"

def ofName? (s : String) : Option SolveStatus :=
  [optimal, infeasible, unbounded, unfinished].find? (·.name == s)

end SolveStatus

namespace SolveMethod

def name : SolveMethod → String
  | .primal => "primal"
  | .dual => "dual"

def ofName? (s : String) : Option SolveMethod := [primal, dual].find? (·.name == s)

end SolveMethod

/-- What the simplex engine keeps of an optimal basis: the labels of the basic columns, the labels
of the rows known at the time, and the signs of the artificial columns. -/
structure BasisPayload (α : Type) where
  basis : List Label
  rows : List RowLabel
  signs : List (Label × α)

/-- A reference to the basis that a solve ended with. It belongs to one instance, by its token, and
to the engine of the given name. The stamp tells handles apart: it is that of the instance which
was the first to record the handle, with the number of solves that this instance had recorded
before. A handle that no instance has recorded has none. -/
structure BasisHandle (α : Type) where
  owner : Nat
  numRows : Nat
  numColumns : Nat
  engine : String
  stamp : Option (Nat × Nat) := none
  payload : Option (BasisPayload α) := none

structure SolveResult (α : Type) where
  status : SolveStatus
  objective : Option α
  x : Option (List α) := none
  duals : Option (List α) := none
  iterations : Int := 0
  method : SolveMethod := .primal
  message : String := ""
  basis : Option (BasisHandle α) := none

namespace SolveResult

variable {α : Type}

def isOptimal (r : SolveResult α) : Bool := r.status == .optimal

/-- Optimal, or stopped at a limit with a feasible point at hand. -/
def isFeasible (r : SolveResult α) : Bool :=
  r.isOptimal || (r.status == .unfinished && r.x.isSome)

end SolveResult

end IncrementalLP
