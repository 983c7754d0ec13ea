import IncrementalLP.Proofs.Form.Points
import IncrementalLP.Proofs.Simplex.Phases
/-!
# The start of a cold form

The columns that start basic in a cold form have a single entry, one or minus one, with the sign
of the right-hand side of their row.
-/
namespace IncrementalLP

open Matrix

namespace RowPlan

private theorem sign_spec (b : ℚ) :
    (if 0 ≤ b then 1 else -1 : ℚ) * (if 0 ≤ b then 1 else -1) = 1 ∧
      0 ≤ (if 0 ≤ b then 1 else -1 : ℚ) * b := by
  split
  · next h => exact ⟨one_mul 1, by rwa [one_mul]⟩
  · next h =>
    refine ⟨by norm_num, ?_⟩
    rw [neg_one_mul]
    exact neg_nonneg.mpr (not_le.mp h).le

private theorem start_spec (P : RowPlan ℚ) (hP : P.Unital) (zero : ℚ) :
    ∃ e : ℚ, e * e = 1 ∧ 0 ≤ e * P.rhs ∧
      ∀ l, (P.row zero none).start.entry l = if l = P.label then e else 0 := by
  obtain ⟨label, rhs, slack⟩ := P
  cases slack with
  | none => exact ⟨_, (sign_spec rhs).1, (sign_spec rhs).2, fun l => rfl⟩
  | some s =>
      by_cases hs : 0 ≤ rhs * s
      · have hnone : (⟨label, rhs, some s⟩ : RowPlan ℚ).artificial? none = none := if_pos hs
        refine ⟨s, hP s rfl, by rwa [mul_comm], fun l => ?_⟩
        simp only [row, hnone]
        rfl
      · have hsome : (⟨label, rhs, some s⟩ : RowPlan ℚ).artificial? none =
            some (if 0 ≤ rhs then 1 else -1) := if_neg hs
        refine ⟨_, (sign_spec rhs).1, (sign_spec rhs).2, fun l => ?_⟩
        simp only [row, hsome]
        rfl

end RowPlan

namespace Instance

variable {i : Instance ℚ}

theorem exists_basisMatrix_start (i : Instance ℚ) :
    ∃ e : Fin (i.standardForm none).rows.length → ℚ, (∀ k, e k * e k = 1) ∧
      (∀ k, 0 ≤ e k * (i.standardForm none).program.rhs.get k) ∧
      (i.standardForm none).program.basisMatrix (i.standardForm none).start = diagonal e := by
  have hrow : ∀ k, ∃ e : ℚ, e * e = 1 ∧ 0 ≤ e * (i.standardForm none).program.rhs.get k ∧
      ∀ l, ((i.standardForm none).rows.get k).start.entry l =
        if l = ((i.standardForm none).rows.get k).label then e else 0 := by
    intro k
    obtain ⟨P, hP, hk⟩ := exists_plan k
    obtain ⟨e, hunit, hsign, hentry⟩ := P.start_spec (unital_of_mem_plans hP) (i.sense.toMax 0)
    refine ⟨e, hunit, ?_, fun l => ?_⟩
    · rw [StandardForm.get_rhs, hk, rhs_row]
      exact hsign
    · rw [hk, hentry, label_row]
  choose e hunit hsign hentry using hrow
  have hlabels := i.rowLabels_nodup none
  refine ⟨e, hunit, hsign, ?_⟩
  ext k l
  have hstart : (i.standardForm none).columns.get ((i.standardForm none).start.get l) =
      ((i.standardForm none).rows.get l).start := by
    rw [StandardForm.start, Vector.get_ofFn]
    exact StandardForm.get_placeOf (i.labels_nodup none) _ _
  rw [Program.basisMatrix, submatrix_apply, id_eq, StandardForm.matrix_apply, hstart, hentry,
    diagonal_apply]
  by_cases hkl : k = l
  · subst hkl
    rw [if_pos rfl, if_pos rfl]
  · rw [if_neg hkl, if_neg]
    intro hlabel
    apply hkl
    exact List.nodup_iff_injective_get.mp (List.Nodup.of_map _ hlabels)
      (List.inj_on_of_nodup_map hlabels (List.get_mem _ k) (List.get_mem _ l) hlabel)

/-- The cold start is a basis of the first phase whose variables are not negative. -/
theorem start_viable (i : Instance ℚ) :
    (i.standardForm none).program.phaseOne.Viable (i.standardForm none).start := by
  obtain ⟨e, hunit, hsign, hmatrix⟩ := i.exists_basisMatrix_start
  have hregular : (i.standardForm none).program.Regular (i.standardForm none).start := by
    unfold Program.Regular
    rw [hmatrix, det_diagonal]
    refine Finset.prod_ne_zero_iff.mpr fun k _ => ?_
    exact left_ne_zero_of_mul_eq_one (hunit k)
  refine ⟨hregular, ?_, ?_⟩
  · intro k
    have hvalue := congrFun (Program.basisMatrix_mulVec_inBasis hregular
      (i.standardForm none).program.rhs) k
    rw [hmatrix, mulVec_diagonal] at hvalue
    have hnonneg := hsign k
    rw [← hvalue, ← mul_assoc, hunit, one_mul] at hnonneg
    exact hnonneg
  · intro k hk
    rw [Program.get_phaseOne_barred] at hk
    cases hk

/-- Artificial columns have no cost. -/
theorem costless (i : Instance ℚ) (signs : Option (List (Label × ℚ))) :
    (i.standardForm signs).program.Costless := by
  intro j hj
  rw [StandardForm.get_barred] at hj
  rw [StandardForm.get_cost]
  rcases mem_columns.mp (List.get_mem (i.standardForm signs).columns j) with hc | ⟨P, -, hc⟩
  · obtain ⟨s, hs, heq⟩ := List.mem_map.mp hc
    rw [← heq, i.isArtificial_of_mem_structurals hs] at hj
    cases hj
  · rw [P.cost_of_mem_columns _ _ hc, toMax_zero]

end Instance

end IncrementalLP
