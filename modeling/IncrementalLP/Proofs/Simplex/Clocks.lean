import Mathlib
import IncrementalLP.Simplex.Solve
/-!
# Clocks

A solve reads the clock for no other reason than to find out whether its time has run out. Where
this happens after the same numbers of pivots, two clocks lead to the same answer.
-/
namespace IncrementalLP

variable {α : Type} [Scalar α] {o o' : SolveOptions α}

/-- The options differ in the clock at most, and by either clock the time has run out after the same
numbers of pivots. -/
structure SolveOptions.InStep (o o' : SolveOptions α) : Prop where
  settings : { o with clock := o'.clock } = o'
  expired : ∀ pivots, o'.expired pivots = o.expired pivots

namespace SolveOptions.InStep

theorem maxIterations (h : InStep o o') : o'.maxIterations = o.maxIterations := by
  rw [← h.settings]

theorem tolerance (h : InStep o o') : o'.tolerance = o.tolerance := by rw [← h.settings]

theorem rule (h : InStep o o') : o'.rule = o.rule := by rw [← h.settings]

theorem wantDuals (h : InStep o o') : o'.wantDuals = o.wantDuals := by rw [← h.settings]

theorem timeLimit (h : InStep o o') : o'.timeLimit = o.timeLimit := by rw [← h.settings]

theorem engine (h : InStep o o') : o'.engine = o.engine := by rw [← h.settings]

end SolveOptions.InStep

private theorem SolveOptions.expired_after (o : SolveOptions α) (first pivots : ℕ) :
    (o.after first).expired pivots = o.expired (first + pivots) := by
  unfold expired after
  cases o.timeLimit <;> rfl

private theorem SolveOptions.InStep.after (h : InStep o o') (pivots : ℕ) :
    InStep (o.after pivots) (o'.after pivots) where
  settings := by
    conv_rhs => rw [← h.settings]
    rfl
  expired more := by rw [expired_after, expired_after, h.expired]

namespace Program

variable {m n : ℕ} {p : Program α m n}

private theorem entering_inStep (h : o.InStep o') (reduced : Vector α n) (columns : List (Fin n)) :
    entering? o' reduced columns = entering? o reduced columns := by
  rw [entering?, entering?, h.rule]

private theorem leaving_inStep (h : o.InStep o') (β : Basis m n) (steps : List (α × Fin m)) :
    leaving? o' β steps = leaving? o β steps := by
  rw [leaving?, leaving?, h.rule]

private theorem primalFrom_inStep (h : o.InStep o') (budget count : ℕ) (β : Basis m n) :
    p.primalFrom o' budget count β = p.primalFrom o budget count β := by
  induction budget generalizing count β with
  | zero =>
      unfold primalFrom
      simp only [h.tolerance, entering_inStep h]
  | succ budget ih =>
      unfold primalFrom
      simp only [h.tolerance, entering_inStep h, leaving_inStep h, h.expired, ih]

theorem primal_inStep (h : o.InStep o') (limit : ℤ) (β : Basis m n) :
    p.primal o' limit β = p.primal o limit β := by
  rw [primal, primal, h.tolerance, primalFrom_inStep h]

private theorem dualLeaving_inStep (h : o.InStep o') (β : Basis m n) (values : Vector α m)
    (positions : List (Fin m)) :
    dualLeaving? o' β values positions = dualLeaving? o β values positions := by
  rw [dualLeaving?, dualLeaving?, h.rule]

private theorem dualEntering_inStep (h : o.InStep o') (reduced pivotRow : Vector α n)
    (columns : List (Fin n)) :
    dualEntering? o' reduced pivotRow columns = dualEntering? o reduced pivotRow columns := by
  rw [dualEntering?, dualEntering?, h.rule]

private theorem dualFrom_inStep (h : o.InStep o') (budget count : ℕ) (p : Program α m n)
    (β : Basis m n) :
    p.dualFrom o' budget count β = p.dualFrom o budget count β := by
  induction budget generalizing count p β with
  | zero =>
      unfold dualFrom
      simp only [h.tolerance, dualLeaving_inStep h]
  | succ budget ih =>
      unfold dualFrom
      simp only [h.tolerance, dualLeaving_inStep h, dualEntering_inStep h, h.expired, ih]

private theorem phaseTwo_inStep (h : o.InStep o') (p : Program α m n) (iterations : ℕ)
    (journal : List (Event α)) (β : Basis m n) :
    p.phaseTwo o' iterations journal β = p.phaseTwo o iterations journal β := by
  rw [phaseTwo, phaseTwo, h.maxIterations, primal_inStep (h.after iterations)]

theorem twoPhase_inStep (h : o.InStep o') (p : Program α m n) (β : Basis m n) :
    p.twoPhase o' β = p.twoPhase o β := by
  unfold twoPhase
  simp only [h.maxIterations, h.tolerance, primal_inStep h, phaseTwo_inStep h]

theorem repair_inStep (h : o.InStep o') (p : Program α m n) (β : Basis m n) :
    p.repair? o' β = p.repair? o β := by
  unfold repair? dual
  simp only [h.maxIterations, dualFrom_inStep h, phaseTwo_inStep h]

end Program

namespace Instance

private theorem answer_inStep (h : o.InStep o') (i : Instance α) (f : StandardForm α)
    (method : SolveMethod) (outcome : Outcome α f.rows.length f.columns.length) :
    i.answer f method o' outcome = i.answer f method o outcome := by
  unfold answer
  simp only [h.wantDuals]

theorem solvePrimal_inStep (h : o.InStep o') (i : Instance α) :
    i.solvePrimal o' = i.solvePrimal o := by
  rw [solvePrimal, solvePrimal, Program.twoPhase_inStep h, answer_inStep h]

theorem solveDual_inStep (h : o.InStep o') (i : Instance α) (stored : Option (BasisPayload α)) :
    i.solveDual o' stored = i.solveDual o stored := by
  unfold solveDual refused
  simp only [Program.repair_inStep h, answer_inStep h, solvePrimal_inStep h]

end Instance

end IncrementalLP
