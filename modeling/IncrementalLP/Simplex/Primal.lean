import IncrementalLP.Simplex.Program
/-!
# The primal method

From a basis whose basic variables are not negative the method pivots to bases of larger objective
until no column improves it. A basic variable of a barred column is at zero and has to stay there:
it leaves as soon as it would move.
-/
namespace IncrementalLP

/-- How the primal method ends. -/
inductive PrimalEnd (α : Type) (m n : Nat) where
  | optimal (point : Point α m n)
  | unbounded
  | iterationLimit
  | timeLimit

/-- A run of a method that ends in one of the ways `ε`: the last basis, the number of pivots, and
what was reported. -/
structure Run (ε α : Type) (m n : Nat) where
  basis : Basis m n
  iterations : Nat
  ending : ε
  journal : List (Event α)

namespace Program

variable {α : Type} [Scalar α] {m n : Nat}

/-- The values of the basic variables without noise around zero. -/
def cleanValues (p : Program α m n) (tolerance : α) (basis : Basis m n) : Vector α m :=
  let values := Dense.snap tolerance (p.basicValues basis)
  if values.any fun v => decide (v < -tolerance) then values.map fun v => if v < 0 then 0 else v
  else values

/-- The column that enters, among those that improve the objective: the one with the largest
reduced cost, or simply the first. -/
def entering? (o : SolveOptions α) (reduced : Vector α n) (columns : List (Fin n)) :
    Option (Fin n) :=
  match o.rule with
  | .bland => columns.head?
  | .dantzig => Dense.firstBest (fun j best => decide (reduced.get best < reduced.get j)) columns

/-- The steps that positions of the basis allow, if the basic variables move against a direction
from given values. A barred variable that would grow allows no step at all. -/
def steps (p : Program α m n) (tolerance : α) (basis : Basis m n) (values direction : Vector α m) :
    List (α × Fin m) :=
  (List.finRange m).filterMap fun k =>
    if tolerance < direction.get k then some (values.get k / direction.get k, k)
    else if direction.get k < -tolerance && p.barred.get (basis.get k) then some (0, k)
    else none

/-- The order of the steps when ties are broken by a second key. -/
def stepBefore {κ : Type} (less : κ → κ → Bool) (a b : α × κ) : Bool :=
  if a.1 == b.1 then less a.2 b.2 else decide (a.1 < b.1)

/-- The position that leaves: one with the smallest step, and of these the one with the first
column or simply the first one. -/
def leaving? (o : SolveOptions α) (basis : Basis m n) (steps : List (α × Fin m)) :
    Option (α × Fin m) :=
  match o.rule with
  | .bland => Dense.firstBest (stepBefore fun k best => decide (basis.get k < basis.get best)) steps
  | .dantzig => Dense.firstBest (fun a b => decide (a.1 < b.1)) steps

/-- The primal method from a basis, with a budget of pivots; `count` pivots are done already. -/
def primalFrom (p : Program α m n) (o : SolveOptions α) (budget count : Nat)
    (basis : Basis m n) : Run (PrimalEnd α m n) α m n :=
  let values := p.cleanValues o.tolerance basis
  let prices := p.prices basis
  let reduced := p.reducedCosts o.tolerance basis prices
  let improving := p.enterable basis fun j => decide (o.tolerance < reduced.get j)
  match entering? o reduced improving with
  | none => ⟨basis, count, .optimal (p.pointAt basis values prices), []⟩
  | some j =>
    match budget with
    | 0 => ⟨basis, count, .iterationLimit, []⟩
    | budget + 1 =>
      if o.expired count then ⟨basis, count, .timeLimit, []⟩
      else
        let direction := Dense.snap o.tolerance (p.inBasis basis (p.columns.get j))
        match leaving? o basis (p.steps o.tolerance basis values direction) with
        | none => ⟨basis, count, .unbounded, []⟩
        | some (step, k) =>
          let next := primalFrom p o budget (count + 1) (basis.set k j k.isLt)
          { next with journal := .primalPivot count j (basis.get k) step :: next.journal }

/-- A program without rows is settled at once: its optimum is zero, unless a column improves it. -/
def withoutRows (p : Program α m n) (tolerance : α) (basis : Basis m n) :
    Run (PrimalEnd α m n) α m n :=
  let improving := (List.finRange n).any fun j =>
    !p.barred.get j && decide (tolerance < p.cost.get j)
  ⟨basis, 0,
    if improving then .unbounded else .optimal ⟨.replicate n 0, 0, .replicate m 0⟩, []⟩

/-- The primal method with a limit of pivots, of which one is always granted. -/
def primal (p : Program α m n) (o : SolveOptions α) (limit : Int) (basis : Basis m n) :
    Run (PrimalEnd α m n) α m n :=
  if m = 0 then p.withoutRows o.tolerance basis
  else p.primalFrom o (max limit 1).toNat 0 basis

end Program

end IncrementalLP
