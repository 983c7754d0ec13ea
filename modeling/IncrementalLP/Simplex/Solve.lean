import IncrementalLP.Simplex.Dual
/-!
# Solving instances

A cold solve brings an instance into standard form, drives the artificial columns to zero, and
goes on with the objective of the instance. A warm solve carries a stored basis over to the form
with the rows added since, repairs it by the dual method, and falls back to a cold solve where the
basis does not fit.
-/
namespace IncrementalLP

/-- What is found out about a program. -/
inductive Verdict (α : Type) (m n : Nat) where
  | optimal (point : Point α m n)
  | infeasible
  /-- Found by the dual method: the objective of the dual problem has no bound. -/
  | dualUnbounded
  | unbounded
  /-- The sum of the artificial variables has no bound. -/
  | phaseOneUnbounded
  | iterationLimit
  | timeLimit

namespace Verdict

variable {α : Type} {m n : Nat}

def status : Verdict α m n → SolveStatus
  | .optimal _ => .optimal
  | .infeasible | .dualUnbounded => .infeasible
  | .unbounded | .phaseOneUnbounded => .unbounded
  | .iterationLimit | .timeLimit => .unfinished

def message : Verdict α m n → String
  | .optimal _ => ""
  | .infeasible => "Infeasible."
  | .dualUnbounded => "Infeasible (dual unbounded)."
  | .unbounded => "Unbounded."
  | .phaseOneUnbounded =>
    "Phase I detected unbounded auxiliary problem (likely modelling error)."
  | .iterationLimit => "Hit iteration limit."
  | .timeLimit => "Hit time limit."

def ofPrimal : PrimalEnd α m n → Verdict α m n
  | .optimal point => .optimal point
  | .unbounded => .unbounded
  | .iterationLimit => .iterationLimit
  | .timeLimit => .timeLimit

end Verdict

/-- What comes of working on a program: a run that ends in a verdict, and the signs that the
artificial columns have at its end. -/
structure Outcome (α : Type) (m n : Nat) extends Run (Verdict α m n) α m n where
  signs : Vector α n

/-- The answer to a solve, and what was reported on the way. -/
structure Answer (α : Type) where
  result : SolveResult α
  journal : List (Event α)

variable {α : Type} [Scalar α]

namespace Program

variable {m n : Nat}

/-- The program of the first phase: to make the artificial variables small. In this phase they
may enter. -/
def phaseOne (p : Program α m n) : Program α m n :=
  { p with cost := p.barred.map fun b => if b then -1 else 0, barred := .replicate n false }

/-- The sum of the artificial variables. -/
def artificialSum (p : Program α m n) (x : Vector α n) : α :=
  Dense.sum n fun j => if p.barred.get j then x.get j else 0

/-- The primal method on the objective itself, after some pivots that have been reported. -/
def phaseTwo (p : Program α m n) (o : SolveOptions α) (iterations : Nat)
    (journal : List (Event α)) (basis : Basis m n) : Outcome α m n :=
  let run := p.primal (o.after iterations) (o.maxIterations - iterations) basis
  ⟨⟨run.basis, iterations + run.iterations, .ofPrimal run.ending, journal ++ run.journal⟩, p.signs⟩

/-- The two phases from a basis whose variables are not negative. -/
def twoPhase (p : Program α m n) (o : SolveOptions α) (basis : Basis m n) : Outcome α m n :=
  if m = 0 || !p.barred.contains true then p.phaseTwo o 0 [] basis
  else
    let run := p.phaseOne.primal o o.maxIterations basis
    let ended := fun verdict =>
      (⟨⟨run.basis, run.iterations, verdict, run.journal⟩, p.signs⟩ : Outcome α m n)
    match run.ending with
    | .unbounded => ended .phaseOneUnbounded
    | .iterationLimit => ended .iterationLimit
    | .timeLimit => ended .timeLimit
    | .optimal point =>
      if o.tolerance < p.artificialSum point.x then ended .infeasible
      else p.phaseTwo o run.iterations run.journal run.basis

/-- The dual method from a basis, and the primal method after it; none if the basis is not dual
feasible. -/
def repair? (p : Program α m n) (o : SolveOptions α) (basis : Basis m n) :
    Option (Outcome α m n) :=
  let run := p.dual o o.maxIterations basis
  let ended := fun verdict =>
    some (⟨⟨run.basis, run.iterations, verdict, run.journal⟩, run.program.signs⟩ : Outcome α m n)
  match run.ending with
  | .notDualFeasible => none
  | .infeasible => ended .dualUnbounded
  | .iterationLimit => ended .iterationLimit
  | .timeLimit => ended .timeLimit
  | .optimal => some (run.program.phaseTwo o run.iterations run.journal run.basis)

end Program

namespace StandardForm

/-- Values this small in magnitude are reported as zero. -/
def reportThreshold : α := Scalar.nearest (1 / 1000000000000)

/-- The values of the variables of the instance at a point of the form. -/
def solution (f : StandardForm α) {n : Nat} (x : Vector α n) : List α :=
  f.offsets.zipIdx.map fun (offset, j) =>
    Scalar.snap reportThreshold
      ((f.components j).foldl (fun s c => s + c.2 * x[c.1]?.getD 0) offset)

/-- The prices of the rows of the instance, from those of the rows of the form. -/
def duals (f : StandardForm α) {m : Nat} (prices : Vector α m) : List α :=
  (List.range f.numRows).map fun i =>
    Scalar.snap reportThreshold
      ((f.slots i).foldl (fun s k => s + prices[k]?.getD 0) 0)

/-- What is kept of a basis: labels, and the signs of the artificial columns. -/
def payload (f : StandardForm α) (basis : Basis f.rows.length f.columns.length)
    (signs : Vector α f.columns.length) : BasisPayload α where
  basis := basis.toList.map fun j => (f.columns.get j).label
  rows := f.rowLabels
  signs := ((List.finRange f.columns.length).filter fun j =>
    (f.columns.get j).label.isArtificial).map fun j => ((f.columns.get j).label, signs.get j)

end StandardForm

namespace Instance

/-- The name under which the simplex method keeps its bases. -/
def simplexName : String := "simplex"

/-- The objective of the instance at a value that was maximised. -/
def objectiveAt (i : Instance α) (f : StandardForm α) (objective : α) : α :=
  match i.sense with
  | .max => f.constant + objective
  | .min => f.constant - objective

/-- The answer that an outcome on the form of an instance stands for. -/
def answer (i : Instance α) (f : StandardForm α) (method : SolveMethod) (o : SolveOptions α)
    (outcome : Outcome α f.rows.length f.columns.length) : Answer α :=
  match outcome.ending with
  | .optimal point =>
    let objective := i.objectiveAt f point.objective
    { result :=
        { status := .optimal
          objective := some objective
          x := some (f.solution point.x)
          duals :=
            if o.wantDuals && f.rows.length != 0 then some (f.duals point.prices) else none
          iterations := outcome.iterations
          method := method
          basis := some
            { owner := i.token
              numRows := i.numRows
              numColumns := i.numColumns
              engine := simplexName
              payload := some (f.payload outcome.basis outcome.signs) } }
      journal := outcome.journal ++
        [.solvedOptimal method i.name objective outcome.iterations] }
  | verdict =>
    { result :=
        { status := verdict.status
          objective := none
          iterations := outcome.iterations
          method := method
          message := verdict.message }
      journal := outcome.journal ++
        [.solveEnded method i.name verdict.status outcome.iterations] }

/-- Solves the instance from scratch. -/
def solvePrimal (i : Instance α) (o : SolveOptions α) : Answer α :=
  let f := i.standardForm none
  i.answer f .primal o (f.program.twoPhase o f.start)

/-- The answer of a cold solve after a basis was refused. -/
def refused (i : Instance α) (o : SolveOptions α) (refusal : WarmRefusal) : Answer α :=
  let cold := i.solvePrimal o
  let tail := if cold.result.message.isEmpty then "" else " " ++ cold.result.message
  { result :=
      { cold.result with
        message := "Warm start rejected (" ++ refusal.text ++ "); solved cold." ++ tail }
    journal := .warmStartRefused i.name refusal :: cold.journal }

/-- Solves the instance from a stored basis. -/
def solveDual (i : Instance α) (o : SolveOptions α) (stored : Option (BasisPayload α)) :
    Answer α :=
  let payload := stored.getD ⟨[], [], []⟩
  let f := i.standardForm (some payload.signs)
  match f.warmStart? payload with
  | none => i.refused o .basisMismatch
  | some basis =>
    match f.program.repair? o basis with
    | none => i.refused o .notDualFeasible
    | some outcome => i.answer f .dual o outcome

end Instance

end IncrementalLP
