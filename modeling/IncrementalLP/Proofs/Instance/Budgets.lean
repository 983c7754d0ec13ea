import IncrementalLP.Proofs.Instance.Visits
import IncrementalLP.Proofs.Simplex.Budgets
/-!
# Limits of iterations

How many iterations a solve reports, from scratch or from a stored basis, whatever the tolerance,
the rule and the limit of time. A limit is exceeded by one iteration at most, and only where the
first of two loops uses it up and ends by itself, so that the second one goes on.
-/
namespace IncrementalLP.Instance

open Program

variable {α : Type} [Scalar α] {i : Instance α} {o : SolveOptions α}

private theorem answer_iterations {f : StandardForm α} {method : SolveMethod}
    {out : Outcome α f.rows.length f.columns.length} :
    (i.answer f method o out).result.iterations = out.iterations := by
  unfold answer
  cases out.ending <;> rfl

/-- The first phase of a cold solve uses the limit up and drives the artificial variables out, and
the second one makes a pivot. -/
def ColdOverdraws (i : Instance α) (o : SolveOptions α) : Prop :=
  (i.standardForm none).program.PhasesOverdraw o (i.standardForm none).start

/-- The dual method uses the limit up and ends at an optimum, and the primal method makes a pivot;
or the stored basis is refused, and the cold solve that follows exceeds its limit. -/
inductive WarmOverdraws (i : Instance α) (o : SolveOptions α) (p : BasisPayload α) : Prop
  | repaired {β : Basis (i.standardForm (some p.signs)).rows.length
        (i.standardForm (some p.signs)).columns.length} :
      (i.standardForm (some p.signs)).warmStart? p = some β →
      (i.standardForm (some p.signs)).program.RepairOverdraws o β → WarmOverdraws i o p
  | refused : (∀ β, (i.standardForm (some p.signs)).warmStart? p = some β →
        (i.standardForm (some p.signs)).program.repair? o β = none) →
      i.ColdOverdraws o → WarmOverdraws i o p

private theorem solvePrimal_budgeted (i : Instance α) (hlimit : 1 ≤ o.maxIterations) :
    Budgeted o.maxIterations (i.ColdOverdraws o) (i.solvePrimal o).result.iterations := by
  unfold solvePrimal
  rw [answer_iterations]
  exact twoPhase_budgeted _ hlimit _

private theorem solveDual_budgeted (i : Instance α) (hlimit : 1 ≤ o.maxIterations)
    (p : BasisPayload α) :
    Budgeted o.maxIterations (i.WarmOverdraws o p) (i.solveDual o (some p)).result.iterations := by
  obtain ⟨hnone, refusal, hanswer⟩ | ⟨β, out, hwarm, hout, hanswer⟩ := i.solveDual_cases o p
  · rw [hanswer]
    refine (i.solvePrimal_budgeted hlimit).congr ⟨.refused hnone, fun h => ?_⟩
    cases h with
    | repaired hwarm hrepair => exact absurd (hnone _ hwarm) hrepair.repair_ne_none
    | refused _ hcold => exact hcold
  · rw [hanswer, answer_iterations]
    refine (repair_budgeted (by omega) hout).congr ⟨.repaired hwarm, fun h => ?_⟩
    cases h with
    | repaired hwarm' hrepair =>
        rw [hwarm] at hwarm'
        cases hwarm'
        exact hrepair
    | refused hnone _ =>
        rw [hnone β hwarm] at hout
        cases hout

/-- A solve keeps to its limit of iterations unless one loop uses it up exactly and another one
goes on. In that case it makes one iteration too many. -/
theorem iterations_budgeted (i : Instance α) (hlimit : 1 ≤ o.maxIterations) :
    ((i.solvePrimal o).result.iterations ≤ o.maxIterations + 1 ∧
        (o.maxIterations < (i.solvePrimal o).result.iterations ↔ i.ColdOverdraws o)) ∧
      ∀ stored : Option (BasisPayload α),
        (i.solveDual o stored).result.iterations ≤ o.maxIterations + 1 ∧
          (o.maxIterations < (i.solveDual o stored).result.iterations ↔
            i.WarmOverdraws o (stored.getD ⟨[], [], []⟩)) := by
  have hcold := i.solvePrimal_budgeted hlimit
  refine ⟨⟨hcold.le_succ, hcold.exceeds_iff⟩, fun stored => ?_⟩
  -- without a payload a solve starts from an empty one
  have hwarm := i.solveDual_budgeted hlimit (stored.getD ⟨[], [], []⟩)
  exact ⟨hwarm.le_succ, hwarm.exceeds_iff⟩

/-- To maximise a variable that is at least one and at most four, with one iteration: the first
phase makes it one, and the second one makes it four. Two iterations are enough. -/
theorem iterations_budgeted_sample :
    (Sample.ofParts .max Sample.between).ColdOverdraws { Sample.exact with maxIterations := 1 } ∧
      ¬ (Sample.ofParts .max Sample.between).ColdOverdraws
        { Sample.exact with maxIterations := 2 } := by
  constructor
  · exact (iterations_budgeted (Sample.ofParts .max Sample.between)
      (o := { Sample.exact with maxIterations := 1 }) le_rfl).1.2.mp (by decide +kernel)
  · exact mt (iterations_budgeted (Sample.ofParts .max Sample.between)
      (o := { Sample.exact with maxIterations := 2 }) (by decide)).1.2.mpr (by decide +kernel)

/-- With one iteration that problem is solved in two, from scratch and after a basis without
columns is refused. -/
theorem iterations_exceed_limit :
    ((Sample.ofParts .max Sample.between).solvePrimal
        { Sample.exact with maxIterations := 1 }).result.iterations = 2 ∧
      ((Sample.ofParts .max Sample.between).solveDual
        { Sample.exact with maxIterations := 1 } none).result.iterations = 2 := by
  decide +kernel

end IncrementalLP.Instance
