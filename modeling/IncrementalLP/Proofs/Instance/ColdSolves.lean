import IncrementalLP.Proofs.Instance.Verdicts
/-!
# Cold solves

What the answer of an exact cold solve says of an instance, whatever the instance has gone through
and by either rule.
-/
namespace IncrementalLP.Instance

variable {i : Instance ℚ} {o : SolveOptions ℚ}

/-- An optimal answer gives the value of a best feasible point, and that point but for the smallest
values. -/
theorem solvePrimal_optimal (hi : i.Reachable) (htol : o.tolerance = 0)
    (hstatus : (i.solvePrimal o).result.status = .optimal) :
    ∃ v, i.Feasible v ∧ (i.solvePrimal o).result.objective = some (i.value v) ∧
      (∀ w, i.Feasible w → ¬ i.sense.Better (i.value w) (i.value v)) ∧
      ∃ xs, (i.solvePrimal o).result.x = some xs ∧ xs.length = i.numColumns ∧
        ∀ j : Fin i.numColumns, |xs.getD j 0 - v j| < 1 / 1000000000000 := by
  obtain ⟨v, hv, hobjective, xs, hxs, hreports⟩ :=
    (solvePrimal_confirms hi.sound htol).optimal hstatus
  exact ⟨v, hv.feasible, hobjective, hv.best, xs, hxs, hreports.length, hreports.close⟩

theorem solvePrimal_optimal_sample :
    ∃ v, (Sample.ofParts .max Sample.parts).Optimal v ∧
      ((Sample.ofParts .max Sample.parts).solvePrimal Sample.exact).result.objective =
        some ((Sample.ofParts .max Sample.parts).value v) := by
  obtain ⟨v, hv, hobjective, hbest, -⟩ := solvePrimal_optimal
    (Sample.ofParts_reachable .max Sample.parts) (o := Sample.exact) rfl (by decide +kernel)
  exact ⟨v, ⟨hv, hbest⟩, hobjective⟩

/-- An answer that there is no point, or that there is no bound, is right; and the sum of the
artificial variables is always bounded. -/
theorem solvePrimal_not_optimal (hi : i.Reachable) (htol : o.tolerance = 0) :
    ((i.solvePrimal o).result.status = .infeasible → ∀ v, ¬ i.Feasible v) ∧
      ((i.solvePrimal o).result.status = .unbounded →
        (∃ v, i.Feasible v) ∧ ∀ K, ∃ v, i.Feasible v ∧ i.sense.Better (i.value v) K) ∧
      ((i.standardForm none).program.twoPhase o (i.standardForm none).start).ending ≠
        .phaseOneUnbounded := by
  have hconfirms := solvePrimal_confirms hi.sound htol
  refine ⟨hconfirms.infeasible, fun hstatus => ?_, fun hending => ?_⟩
  · have hunbounded := hconfirms.unbounded hstatus
    obtain ⟨v, hv, -⟩ := hunbounded 0
    exact ⟨⟨v, hv⟩, hunbounded⟩
  · have hsettled := i.twoPhase_standardForm_settled htol
    rw [hending] at hsettled
    cases hsettled

theorem solvePrimal_not_optimal_sample :
    (∀ v, ¬ (Sample.ofParts .min Sample.contradictory).Feasible v) ∧
      ∀ K, ∃ v, (Sample.ofParts .max Sample.boundless).Feasible v ∧
        K < (Sample.ofParts .max Sample.boundless).value v := by
  constructor
  · exact (solvePrimal_not_optimal (Sample.ofParts_reachable .min Sample.contradictory)
      (o := Sample.exact) rfl).1 (by decide +kernel)
  · exact ((solvePrimal_not_optimal (Sample.ofParts_reachable .max Sample.boundless)
      (o := Sample.exact) rfl).2.1 (by decide +kernel)).2

end IncrementalLP.Instance
