import IncrementalLP.Proofs.Instance.Verdicts
/-!
# Instances in standard form

The feasible points of a form are those of the instance, with the same objective, whatever signs
its artificial columns are given. A cold form starts from columns that have their only entry in one
row each.
-/
namespace IncrementalLP.Instance

open Program

variable {i : Instance ℚ} {signs : Option (List (Label × ℚ))}

private theorem objective_eq_toMax (X : Label → ℚ) :
    (i.standardForm signs).program.objective (atLabels (i.standardForm signs) X) =
      i.sense.toMax (i.value (i.decode X) - (i.standardForm signs).constant) := by
  have hvalue : i.sense.toMax (i.objectiveAt (i.standardForm signs)
      ((i.standardForm signs).program.objective (atLabels (i.standardForm signs) X))) =
        i.sense.toMax (i.value (i.decode X)) := by
    rw [objectiveAt_atLabels]
  rw [toMax_objectiveAt] at hvalue
  have hsub : i.sense.toMax (i.value (i.decode X) - (i.standardForm signs).constant) =
      i.sense.toMax (i.value (i.decode X)) - i.sense.toMax (i.standardForm signs).constant := by
    cases i.sense with
    | max => rfl
    | min => exact neg_sub' _ _
  rw [hsub, ← hvalue, add_sub_cancel_left]

/-- Every feasible point of the form gives the variables values that are feasible. -/
theorem feasible_variableAt (hi : i.Sound) {x : Vector ℚ (i.standardForm signs).columns.length}
    (hx : (i.standardForm signs).program.Feasible x.get) :
    i.Feasible (fun j => variableAt (i.standardForm signs) x j) ∧
      (i.standardForm signs).program.objective x.get = i.sense.toMax
        (i.value (fun j => variableAt (i.standardForm signs) x j) -
          (i.standardForm signs).constant) := by
  obtain ⟨X, hX, hlabels⟩ := exists_atLabels hx.barred
  have hvalues : (fun j : Fin i.numColumns => variableAt (i.standardForm signs) x j) = i.decode X :=
    funext (variableAt_eq_decode x hlabels)
  rw [hvalues, hlabels]
  rw [hlabels] at hx
  exact ⟨((feasible_atLabels_iff hX).mp hx).feasible hi, objective_eq_toMax X⟩

private theorem Feasible.exists_variableAt (hi : i.Sound) (signs : Option (List (Label × ℚ)))
    {v : Fin i.numColumns → ℚ} (hv : i.Feasible v) :
    ∃ x : Vector ℚ (i.standardForm signs).columns.length,
      (i.standardForm signs).program.Feasible x.get ∧
        ∀ j : Fin i.numColumns, variableAt (i.standardForm signs) x j = v j := by
  have hartificial : ∀ r, i.encode v (.artificial r) = 0 := fun _ => rfl
  have hx : (Vector.ofFn (atLabels (i.standardForm signs) (i.encode v))).get =
      atLabels (i.standardForm signs) (i.encode v) := funext (Vector.get_ofFn _)
  refine ⟨_, hx ▸ (feasible_atLabels_iff hartificial).mpr (hv.solves hi), fun j => ?_⟩
  rw [variableAt_eq_decode _ hx, decode_encode hv]

private theorem start_spec (i : Instance ℚ) :
    Function.Injective (i.standardForm none).start.get ∧ ∀ k, ∃ e : ℚ, (e = 1 ∨ e = -1) ∧
      (∀ l, (i.standardForm none).program.matrix l ((i.standardForm none).start.get k) =
        if l = k then e else 0) ∧
      0 ≤ ((i.standardForm none).program.basicValues (i.standardForm none).start).get k := by
  obtain ⟨e, hunit, -, hmatrix⟩ := i.exists_basisMatrix_start
  refine ⟨i.start_viable.regular.injective, fun k => ⟨e k, mul_self_eq_one_iff.mp (hunit k), ?_,
    i.start_viable.nonneg k⟩⟩
  intro l
  have hentry := congrFun (congrFun hmatrix l) k
  rw [Matrix.diagonal_apply] at hentry
  refine hentry.trans ?_
  split
  · next hlk => rw [hlk]
  · rfl

/-- A form and its instance have the same feasible points and the same objective, and a cold form
starts from signed unit columns. -/
theorem standardForm_translates (hi : i.Reachable) (signs : Option (List (Label × ℚ))) :
    (∀ x : Vector ℚ (i.standardForm signs).columns.length,
        (i.standardForm signs).program.Feasible x.get →
          i.Feasible (fun j => variableAt (i.standardForm signs) x j) ∧
            (i.standardForm signs).program.objective x.get = i.sense.toMax
              (i.value (fun j => variableAt (i.standardForm signs) x j) -
                (i.standardForm signs).constant)) ∧
      (∀ v, i.Feasible v → ∃ x : Vector ℚ (i.standardForm signs).columns.length,
        (i.standardForm signs).program.Feasible x.get ∧
          (∀ j : Fin i.numColumns, variableAt (i.standardForm signs) x j = v j) ∧
          (i.standardForm signs).program.objective x.get =
            i.sense.toMax (i.value v - (i.standardForm signs).constant)) ∧
      Function.Injective (i.standardForm none).start.get ∧ ∀ k, ∃ e : ℚ, (e = 1 ∨ e = -1) ∧
        (∀ l, (i.standardForm none).program.matrix l ((i.standardForm none).start.get k) =
          if l = k then e else 0) ∧
        0 ≤ ((i.standardForm none).program.basicValues (i.standardForm none).start).get k := by
  refine ⟨fun x hx => feasible_variableAt hi.sound hx, fun v hv => ?_, i.start_spec⟩
  obtain ⟨x, hx, hvalues⟩ := hv.exists_variableAt hi.sound signs
  refine ⟨x, hx, hvalues, ?_⟩
  rw [(feasible_variableAt hi.sound hx).2, funext hvalues]

/-- A point of the sample problem, from the values of two variables and of four slacks. -/
theorem standardForm_translates_sample :
    let i := Sample.ofParts .max Sample.parts
    let x : Vector ℚ (i.standardForm none).columns.length :=
      .ofFn fun j => [1, 2, 15, 3, 15, 6].getD j 0
    i.Feasible (fun j => variableAt (i.standardForm none) x j) ∧
      (i.standardForm none).program.objective x.get = 4 ∧
      variableAt (i.standardForm none) x 0 = 1 ∧ variableAt (i.standardForm none) x 1 = 2 := by
  intro i x
  have hx : (i.standardForm none).program.Feasible x.get :=
    ⟨by decide +kernel, by decide +kernel, by decide +kernel⟩
  exact ⟨((standardForm_translates (Sample.ofParts_reachable .max Sample.parts) none).1 x hx).1,
    by decide +kernel, by decide +kernel, by decide +kernel⟩

end IncrementalLP.Instance
