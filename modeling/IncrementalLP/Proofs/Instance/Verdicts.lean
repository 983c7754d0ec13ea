import IncrementalLP.Proofs.Form.Points
import IncrementalLP.Proofs.Form.Start
/-!
# Verdicts on instances

What a result says of an instance, and that results are right where the verdict on the program of
a form is.
-/
namespace IncrementalLP

theorem Sense.not_better_iff {s : Sense} {a b : ℚ} : ¬ s.Better a b ↔ s.toMax a ≤ s.toMax b := by
  cases s with
  | max => exact not_lt
  | min => exact not_lt.trans neg_le_neg_iff.symm

private theorem Sense.eq_of_not_better {s : Sense} {a b : ℚ} (hab : ¬ s.Better a b)
    (hba : ¬ s.Better b a) : a = b := by
  cases s with
  | max => exact le_antisymm (not_lt.mp hab) (not_lt.mp hba)
  | min => exact le_antisymm (not_lt.mp hba) (not_lt.mp hab)

namespace Instance

open Program

/-- A feasible point with the best value of the objective. -/
structure Optimal (i : Instance ℚ) (v : Fin i.numColumns → ℚ) : Prop where
  feasible : i.Feasible v
  best : ∀ w, i.Feasible w → ¬ i.sense.Better (i.value w) (i.value v)

/-- Reported values are those of a point, but for the smallest. -/
structure Reports (i : Instance ℚ) (xs : List ℚ) (v : Fin i.numColumns → ℚ) : Prop where
  length : xs.length = i.numColumns
  close : ∀ j : Fin i.numColumns, |xs.getD j 0 - v j| < 1 / 1000000000000

/-- What a result says of the instance is right. -/
structure Confirms (i : Instance ℚ) (r : SolveResult ℚ) : Prop where
  optimal : r.status = .optimal → ∃ v, i.Optimal v ∧ r.objective = some (i.value v) ∧
    ∃ xs, r.x = some xs ∧ i.Reports xs v
  infeasible : r.status = .infeasible → ∀ v, ¬ i.Feasible v
  unbounded : r.status = .unbounded → ∀ K, ∃ v, i.Feasible v ∧ i.sense.Better (i.value v) K

variable {i : Instance ℚ}

theorem Confirms.agree {r r' : SolveResult ℚ} (hr : i.Confirms r) (hr' : i.Confirms r')
    (hend : r.status ≠ .unfinished) (hend' : r'.status ≠ .unfinished) :
    r.status = r'.status ∧
      (r.status = .optimal → ∃ z, r.objective = some z ∧ r'.objective = some z) := by
  cases h : r.status with
  | unfinished => exact absurd h hend
  | infeasible =>
      have hnone := hr.infeasible h
      refine ⟨?_, nofun⟩
      cases h' : r'.status with
      | unfinished => exact absurd h' hend'
      | infeasible => rfl
      | optimal =>
          obtain ⟨v, hv, -⟩ := hr'.optimal h'
          exact absurd hv.feasible (hnone v)
      | unbounded =>
          obtain ⟨v, hv, -⟩ := hr'.unbounded h' 0
          exact absurd hv (hnone v)
  | unbounded =>
      refine ⟨?_, nofun⟩
      cases h' : r'.status with
      | unfinished => exact absurd h' hend'
      | unbounded => rfl
      | optimal =>
          obtain ⟨v, hv, -⟩ := hr'.optimal h'
          obtain ⟨w, hw, hbetter⟩ := hr.unbounded h (i.value v)
          exact absurd hbetter (hv.best w hw)
      | infeasible =>
          obtain ⟨v, hv, -⟩ := hr.unbounded h 0
          exact absurd hv (hr'.infeasible h' v)
  | optimal =>
      obtain ⟨v, hv, hobjective, -⟩ := hr.optimal h
      cases h' : r'.status with
      | unfinished => exact absurd h' hend'
      | infeasible => exact absurd hv.feasible (hr'.infeasible h' v)
      | unbounded =>
          obtain ⟨w, hw, hbetter⟩ := hr'.unbounded h' (i.value v)
          exact absurd hbetter (hv.best w hw)
      | optimal =>
          obtain ⟨w, hw, hobjective', -⟩ := hr'.optimal h'
          refine ⟨rfl, fun _ => ?_⟩
          have hvalue : i.value v = i.value w :=
            Sense.eq_of_not_better (hw.best v hv.feasible) (hv.best w hw.feasible)
          exact ⟨i.value v, hobjective, hvalue ▸ hobjective'⟩

variable {signs : Option (List (Label × ℚ))} {ε : Fin (i.standardForm signs).columns.length → ℚ}
  {q : Program ℚ (i.standardForm signs).rows.length (i.standardForm signs).columns.length}

theorem toMax_objectiveAt (f : StandardForm ℚ) (z : ℚ) :
    i.sense.toMax (i.objectiveAt f z) = i.sense.toMax f.constant + z := by
  unfold objectiveAt
  cases i.sense with
  | max => rfl
  | min =>
      simp only [Sense.toMax]
      ring

private theorem exists_feasible (hi : i.Sound) (hε : SignChange (i.standardForm signs).program q ε)
    {x : Fin (i.standardForm signs).columns.length → ℚ} (hx : q.Feasible x) :
    ∃ X, x = atLabels (i.standardForm signs) X ∧ i.Feasible (i.decode X) ∧
      i.value (i.decode X) = i.objectiveAt (i.standardForm signs) (q.objective x) := by
  have hp := hε.symm.feasible hx
  obtain ⟨X, hX, rfl⟩ := exists_atLabels hp.barred
  refine ⟨X, rfl, ((feasible_atLabels_iff hX).mp hp).feasible hi, ?_⟩
  rw [hε.objective, objectiveAt_atLabels]

private theorem Feasible.exists_point (hi : i.Sound)
    (hε : SignChange (i.standardForm signs).program q ε) {v : Fin i.numColumns → ℚ}
    (hv : i.Feasible v) :
    ∃ x, q.Feasible x ∧ i.value v = i.objectiveAt (i.standardForm signs) (q.objective x) := by
  have hartificial : ∀ r, i.encode v (.artificial r) = 0 := fun _ => rfl
  refine ⟨atLabels (i.standardForm signs) (i.encode v),
    hε.feasible ((feasible_atLabels_iff hartificial).mpr (hv.solves hi)), ?_⟩
  rw [hε.objective, objectiveAt_atLabels, decode_encode hv]

theorem answer_basis_eq_some {f : StandardForm ℚ} {method : SolveMethod} {o : SolveOptions ℚ}
    {out : Outcome ℚ f.rows.length f.columns.length} {h : BasisHandle ℚ}
    (hbasis : (i.answer f method o out).result.basis = some h) :
    (∃ point, out.ending = .optimal point) ∧
      h = { owner := i.token
            numRows := i.numRows
            numColumns := i.numColumns
            engine := simplexName
            payload := some (f.payload out.basis out.signs) } := by
  unfold answer at hbasis
  cases hend : out.ending with
  | optimal point =>
      rw [hend] at hbasis
      exact ⟨⟨point, rfl⟩, (Option.some.inj hbasis).symm⟩
  | infeasible | dualUnbounded | unbounded | phaseOneUnbounded | iterationLimit | timeLimit =>
      rw [hend] at hbasis
      cases hbasis

theorem answer_confirms (hi : i.Sound) (hε : SignChange (i.standardForm signs).program q ε)
    (method : SolveMethod) (o : SolveOptions ℚ) {out : Outcome ℚ _ _}
    (hsettled : q.Settled out.basis out.ending) :
    i.Confirms (i.answer (i.standardForm signs) method o out).result := by
  unfold answer
  cases hend : out.ending with
  | optimal point =>
      rw [hend] at hsettled
      cases hsettled with
      | optimal hoptimal =>
      refine ⟨fun _ => ?_, nofun, nofun⟩
      obtain ⟨X, hX, hfeasible, hvalue⟩ := exists_feasible hi hε hoptimal.viable.feasible
      refine ⟨i.decode X, ⟨hfeasible, fun w hw => ?_⟩, ?_, _, rfl, ?_⟩
      · obtain ⟨x, hx, hwvalue⟩ := hw.exists_point hi hε
        rw [Sense.not_better_iff, hwvalue, hvalue, toMax_objectiveAt, toMax_objectiveAt]
        exact add_le_add_right (hoptimal.objective_le hx) _
      · show some (i.objectiveAt _ point.objective) = _
        rw [hvalue, hoptimal.objective_eq]
      · obtain ⟨hlength, hclose⟩ := solution_close point.x (hoptimal.x_eq.trans hX)
        exact ⟨hlength, hclose⟩
  | infeasible =>
      rw [hend] at hsettled
      cases hsettled with
      | infeasible hnone =>
      refine ⟨nofun, fun _ v hv => ?_, nofun⟩
      obtain ⟨x, hx, -⟩ := hv.exists_point hi hε
      exact hnone x hx
  | dualUnbounded =>
      rw [hend] at hsettled
      cases hsettled with
      | dualUnbounded hnone =>
      refine ⟨nofun, fun _ v hv => ?_, nofun⟩
      obtain ⟨x, hx, -⟩ := hv.exists_point hi hε
      exact hnone x hx
  | unbounded =>
      rw [hend] at hsettled
      cases hsettled with
      | unbounded hunbounded =>
      refine ⟨nofun, nofun, fun _ K => ?_⟩
      obtain ⟨x, hx, hlarge⟩ :=
        hunbounded (i.sense.toMax K - i.sense.toMax (i.standardForm signs).constant)
      obtain ⟨X, -, hfeasible, hvalue⟩ := exists_feasible hi hε hx
      refine ⟨i.decode X, hfeasible, ?_⟩
      by_contra hnot
      rw [Sense.not_better_iff, hvalue, toMax_objectiveAt] at hnot
      linarith
  | phaseOneUnbounded =>
      rw [hend] at hsettled
      cases hsettled
  | iterationLimit => exact ⟨nofun, nofun, nofun⟩
  | timeLimit => exact ⟨nofun, nofun, nofun⟩

/-- The outcome of the two phases on a cold form is settled. -/
theorem twoPhase_standardForm_settled (i : Instance ℚ) {o : SolveOptions ℚ}
    (htol : o.tolerance = 0) :
    (i.standardForm none).program.Settled
      ((i.standardForm none).program.twoPhase o (i.standardForm none).start).basis
      ((i.standardForm none).program.twoPhase o (i.standardForm none).start).ending :=
  twoPhase_settled htol i.start_viable

theorem solvePrimal_confirms (hi : i.Sound) {o : SolveOptions ℚ} (htol : o.tolerance = 0) :
    i.Confirms (i.solvePrimal o).result :=
  answer_confirms hi (.refl _) .primal o (i.twoPhase_standardForm_settled htol)

end Instance

end IncrementalLP
