import IncrementalLP.Simplex.Primal
/-!
# The dual method

From a basis at which no column improves the objective the method pivots until no basic variable
is negative. Barred columns never enter. A barred variable that is basic at a positive value has
its column negated, so that it is negative and can leave.
-/
namespace IncrementalLP

/-- How the dual method ends. -/
inductive DualEnd where
  | optimal
  | infeasible
  | notDualFeasible
  | iterationLimit
  | timeLimit
  deriving Repr, DecidableEq

/-- A run of the dual method, with the program as it has become. -/
structure DualRun (α : Type) (m n : Nat) extends Run DualEnd α m n where
  program : Program α m n

namespace Program

variable {α : Type} [Scalar α] {m n : Nat}

/-- The program with a column negated. -/
def flip (p : Program α m n) (j : Fin n) : Program α m n :=
  { p with
    columns := p.columns.set j ((p.columns.get j).map (- ·)) j.isLt
    signs := p.signs.set j (-p.signs.get j) j.isLt }

/-- The program after the barred columns that are basic at positive values have been negated. -/
def flipBasic (p : Program α m n) (tolerance : α) (basis : Basis m n) (values : Vector α m) :
    Program α m n :=
  (List.finRange m).foldl (fun q k =>
    if q.barred.get (basis.get k) && decide (tolerance < values.get k) then q.flip (basis.get k)
    else q) p

/-- The position that leaves, among those with negative values: the one with the smallest value, or
the one with the first column. -/
def dualLeaving? (o : SolveOptions α) (basis : Basis m n) (values : Vector α m)
    (positions : List (Fin m)) : Option (Fin m) :=
  match o.rule with
  | .bland => Dense.firstBest (fun k best => decide (basis.get k < basis.get best)) positions
  | .dantzig => Dense.firstBest (fun k best => decide (values.get k < values.get best)) positions

/-- The column that enters: one with the smallest ratio of its reduced cost to its entry in the
pivot row, and of these the first one or the one with the entry of largest magnitude. -/
def dualEntering? (o : SolveOptions α) (reduced pivotRow : Vector α n) (columns : List (Fin n)) :
    Option (α × Fin n) :=
  let ratios := columns.map fun j => (reduced.get j / pivotRow.get j, j)
  match o.rule with
  | .bland => Dense.firstBest (stepBefore fun j best => decide (j < best)) ratios
  | .dantzig =>
    Dense.firstBest (stepBefore fun j best =>
      decide (-Scalar.magnitude (pivotRow.get j) < -Scalar.magnitude (pivotRow.get best))) ratios

/-- The dual method from a basis, with a budget of pivots; `count` pivots are done already. -/
def dualFrom (p : Program α m n) (o : SolveOptions α) (budget count : Nat) (basis : Basis m n) :
    DualRun α m n :=
  let p := p.flipBasic o.tolerance basis (p.basicValues basis)
  let values := p.basicValues basis
  let reduced := p.reducedCosts o.tolerance basis (p.prices basis)
  let ended := fun ending => (⟨⟨basis, count, ending, []⟩, p⟩ : DualRun α m n)
  if count = 0 && !(p.enterable basis fun j => decide (o.tolerance < reduced.get j)).isEmpty then
    ended .notDualFeasible
  else
    match dualLeaving? o basis values
        ((List.finRange m).filter fun k => decide (values.get k < -o.tolerance)) with
    | none => ended .optimal
    | some k =>
      match budget with
      | 0 => ended .iterationLimit
      | budget + 1 =>
        if o.expired count then ended .timeLimit
        else
          let multipliers := Dense.solve (p.basic basis) (Dense.unit k)
          let pivotRow : Vector α n := .ofFn fun j =>
            Scalar.snap o.tolerance (Dense.dot multipliers (p.columns.get j))
          match dualEntering? o reduced pivotRow
              (p.enterable basis fun j => decide (pivotRow.get j < -o.tolerance)) with
          | none => ended .infeasible
          | some (ratio, j) =>
            let next := dualFrom p o budget (count + 1) (basis.set k j k.isLt)
            { next with
              journal := .dualPivot count (basis.get k) (values.get k) j ratio :: next.journal }

/-- The dual method with a limit of pivots. -/
def dual (p : Program α m n) (o : SolveOptions α) (limit : Int) (basis : Basis m n) :
    DualRun α m n :=
  p.dualFrom o limit.toNat 0 basis

end Program

end IncrementalLP
