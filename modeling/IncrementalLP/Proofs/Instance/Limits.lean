import IncrementalLP.Proofs.Instance.WarmSolves
/-!
# Limits that suffice

By the rule of the smallest subscript exact solves end by themselves, cold ones as well as warm
ones. The number of bases of a form bounds the number of pivots of each loop.
-/
namespace IncrementalLP.Instance

open Program

variable {i : Instance ℚ} {o : SolveOptions ℚ} {h : BasisHandle ℚ}

private theorem length_row_columns (P : RowPlan ℚ) (zero : ℚ)
    (signs : Option (List (Label × ℚ))) : (P.row zero signs).columns.length ≤ 2 := by
  rw [P.columns_row, List.length_append, RowPlan.slackColumns, RowPlan.artificialColumns,
    List.length_map, List.length_map]
  have hslack : P.slack.toList.length ≤ 1 := by cases P.slack <;> simp
  have hartificial : (P.artificial? signs).toList.length ≤ 1 := by
    cases P.artificial? signs <;> simp
  omega

private theorem length_standardForm_rows (i : Instance ℚ) (signs : Option (List (Label × ℚ))) :
    (i.standardForm signs).rows.length = i.plans.length := by
  rw [standardForm_rows, List.length_map]

theorem length_standardForm_columns (i : Instance ℚ) (signs : Option (List (Label × ℚ))) :
    (i.standardForm signs).columns.length ≤ i.structurals.length + 2 * i.plans.length := by
  rw [standardForm_columns, List.length_append, standardForm_structuralColumns, List.length_map]
  apply Nat.add_le_add_left
  induction i.plans with
  | nil => exact Nat.zero_le _
  | cons P l ih =>
      rw [List.flatMap_cons, List.length_append, List.length_cons]
      have hrow := length_row_columns P (i.sense.toMax 0) signs
      omega

/-- A number of iterations that suffices for both phases, and for a repair with what follows it. -/
def sufficientLimit (i : Instance ℚ) : ℕ :=
  2 * (i.structurals.length + 2 * i.plans.length) ^ i.plans.length

private theorem bases_le (i : Instance ℚ) (signs : Option (List (Label × ℚ))) :
    (i.standardForm signs).columns.length ^ (i.standardForm signs).rows.length ≤
      (i.structurals.length + 2 * i.plans.length) ^ i.plans.length := by
  rw [length_standardForm_rows]
  exact Nat.pow_le_pow_left (i.length_standardForm_columns signs) _

private theorem solvePrimal_finishes (ho : Patient o)
    (hlimit : i.sufficientLimit ≤ o.maxIterations) :
    (i.solvePrimal o).result.status ≠ .unfinished := by
  have hbases := i.bases_le none
  unfold sufficientLimit at hlimit
  unfold solvePrimal
  rw [answer_status]
  apply twoPhase_finishes ho i.start_viable
  have hcast : (2 * (i.standardForm none).columns.length ^ (i.standardForm none).rows.length : ℤ) ≤
      (2 * (i.structurals.length + 2 * i.plans.length) ^ i.plans.length : ℕ) := by
    exact_mod_cast Nat.mul_le_mul_left 2 hbases
  exact hcast.trans hlimit

private theorem Serves.solveDual_finishes (hh : i.Serves h) (hi : i.Sound) (ho : Patient o)
    (hlimit : i.sufficientLimit ≤ o.maxIterations) :
    (i.solveDual o h.payload).result.status ≠ .unfinished := by
  obtain ⟨p, hp, hfits⟩ := hh.payload
  obtain ⟨γ, out, hγ, hout, hanswer⟩ := hfits.exists_outcome hi ho.tolerance
  have hbases := i.bases_le (some p.signs)
  unfold sufficientLimit at hlimit
  rw [hp, hanswer, answer_status]
  apply repair_finishes ho hγ _ hout
  have hcast : ((i.standardForm (some p.signs)).columns.length ^
      (i.standardForm (some p.signs)).rows.length : ℤ) ≤
        (2 * (i.structurals.length + 2 * i.plans.length) ^ i.plans.length : ℕ) := by
    exact_mod_cast hbases.trans (Nat.le_mul_of_pos_left _ Nat.two_pos)
  exact hcast.trans hlimit

/-- For every instance there is a limit from which on no exact solve by the rule of the smallest
subscript, from scratch or from a basis that was produced, stops before it has an answer. -/
theorem exists_sufficient_limit (hi : i.Reachable) :
    ∃ N : ℕ, ∀ o : SolveOptions ℚ, o.tolerance = 0 → o.rule = .bland → o.timeLimit = none →
      N ≤ o.maxIterations → (i.solvePrimal o).result.status ≠ .unfinished ∧
        ∀ h, Produced i h → (i.solveDual o h.payload).result.status ≠ .unfinished := by
  refine ⟨i.sufficientLimit, fun o htol hrule htime hlimit => ?_⟩
  have ho : Patient o := ⟨htol, hrule, htime⟩
  refine ⟨solvePrimal_finishes ho hlimit, fun h hh => ?_⟩
  exact hh.serves.solveDual_finishes hi.sound ho hlimit

theorem exists_sufficient_limit_sample :
    ∃ o h, Produced (Sample.cutting.after (Sample.ofParts .max Sample.parts)) h ∧
      ((Sample.cutting.after (Sample.ofParts .max Sample.parts)).solvePrimal o).result.status ≠
        .unfinished ∧
      ((Sample.cutting.after (Sample.ofParts .max Sample.parts)).solveDual o
        h.payload).result.status ≠ .unfinished := by
  have hloaded := Sample.ofParts_reachable .max Sample.parts
  obtain ⟨N, hN⟩ := exists_sufficient_limit (.step Sample.cutting hloaded)
  obtain ⟨h, hbasis⟩ := Option.isSome_iff_exists.mp (show
    ((Sample.ofParts .max Sample.parts).solvePrimal Sample.exact).result.basis.isSome = true by
      decide +kernel)
  have hproduced : Produced (Sample.cutting.after (Sample.ofParts .max Sample.parts)) h :=
    .step Sample.cutting rfl (.cold hloaded rfl hbasis)
  obtain ⟨hcold, hwarm⟩ := hN { Sample.exact with maxIterations := N } rfl rfl rfl le_rfl
  exact ⟨_, h, hproduced, hcold, hwarm h hproduced⟩

end IncrementalLP.Instance
