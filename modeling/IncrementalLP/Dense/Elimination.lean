import IncrementalLP.Dense.Basic
/-!
# Elimination

Linear equations are solved by eliminating one unknown after the other. The equation with the
largest coefficient of the unknown is solved for it, the first one of equally large, and the
unknown is removed from the others.
-/
namespace IncrementalLP.Dense

variable {α : Type} [Scalar α]

/-- An equation in `k` unknowns: the coefficients and the right-hand side. -/
structure Equation (α : Type) (k : Nat) where
  coefficients : Vector α k
  rhs : α

namespace Equation

variable {k : Nat}

/-- The coefficient of the first unknown. -/
def head (e : Equation α (k + 1)) : α := e.coefficients.get 0

/-- The coefficients of the other unknowns. -/
def tail (e : Equation α (k + 1)) : Vector α k := .ofFn fun j => e.coefficients.get j.succ

/-- The equation less the multiple of a pivot equation that removes the first unknown. -/
def reduce (pivot e : Equation α (k + 1)) : Equation α k :=
  let factor := e.head / pivot.head
  let p := pivot.tail
  let t := e.tail
  ⟨.ofFn fun j => t.get j - factor * p.get j, e.rhs - factor * pivot.rhs⟩

/-- The equation without its first unknown. -/
def dropHead (e : Equation α (k + 1)) : Equation α k := ⟨e.tail, e.rhs⟩

/-- The value of the first unknown, if the others have given values. -/
def solveHead (e : Equation α (k + 1)) (others : Vector α k) : α :=
  (e.rhs - dot e.tail others) / e.head

end Equation

/-- A vector with one component more in front. -/
def cons {k : Nat} (x : α) (v : Vector α k) : Vector α (k + 1) :=
  .ofFn fun i => Fin.cases x (fun j => v.get j) i

/-- The equation with the largest coefficient of the first unknown, and the others. -/
def pivotOf {k : Nat} : List (Equation α (k + 1)) →
    Option (Equation α (k + 1) × List (Equation α (k + 1)))
  | [] => none
  | e :: rest =>
    match pivotOf rest with
    | none => some (e, [])
    | some (p, others) =>
      if Scalar.magnitude e.head < Scalar.magnitude p.head then some (p, e :: others)
      else some (e, rest)

/-- The solution of a regular system; none where elimination meets an unknown without a
coefficient. -/
def eliminate : (k : Nat) → List (Equation α k) → Option (Vector α k)
  | 0, _ => some #v[]
  | k + 1, equations =>
    match pivotOf equations with
    | none => none
    | some (p, others) =>
      if p.head == 0 then none
      else (eliminate k (others.map p.reduce)).map fun v => cons (p.solveHead v) v

/-- A solution of a consistent system. Unknowns that the equations leave open are zero. -/
def eliminateFree : (k : Nat) → List (Equation α k) → Vector α k
  | 0, _ => #v[]
  | k + 1, equations =>
    match pivotOf equations with
    | none => .replicate (k + 1) 0
    | some (p, others) =>
      if p.head == 0 then cons 0 (eliminateFree k (equations.map (·.dropHead)))
      else
        let v := eliminateFree k (others.map p.reduce)
        cons (p.solveHead v) v

end IncrementalLP.Dense
