import IncrementalLP.Proofs.Instance.Verdicts
/-!
# Prices that certify a point

Prices of the rows and a point of an instance certify each other if a row with a price is at the
limit that the sign of the price names, and a variable that is worth more or less than its cost is
at the bound that it would leave.
-/
namespace IncrementalLP.Instance

variable (i : Instance ℚ)

/-- What a variable adds to the maximised objective beyond its worth at given prices of the rows. -/
def reducedCost (w : Fin i.numRows → ℚ) (j : Fin i.numColumns) : ℚ :=
  i.sense.toMax (i.columns.get j).objective.toScalar - ∑ k, w k * i.coefficient k j

structure Complementary (v : Fin i.numColumns → ℚ) (w : Fin i.numRows → ℚ) : Prop where
  rowUpper : ∀ k, 0 < w k → (i.rows.get k).upper = .finite (i.rowActivity v k)
  rowLower : ∀ k, w k < 0 → (i.rows.get k).lower = .finite (i.rowActivity v k)
  rowFree : ∀ k, (i.rows.get k).lower = .negInf → (i.rows.get k).upper = .posInf → w k = 0
  columnUpper : ∀ j, 0 < i.reducedCost w j → (i.columns.get j).upper = .finite (v j)
  columnLower : ∀ j, i.reducedCost w j < 0 → (i.columns.get j).lower = .finite (v j)

variable {i} {v : Fin i.numColumns → ℚ} {w : Fin i.numRows → ℚ}

private theorem toMax_value (w : Fin i.numRows → ℚ) (v : Fin i.numColumns → ℚ) :
    i.sense.toMax (i.value v) = ∑ k, w k * i.rowActivity v k + ∑ j, i.reducedCost w j * v j := by
  have hvalue : i.sense.toMax (i.value v) =
      ∑ j, i.sense.toMax (i.columns.get j).objective.toScalar * v j := by
    unfold value
    cases i.sense with
    | max => rfl
    | min =>
        show -∑ j, _ = _
        rw [← Finset.sum_neg_distrib]
        exact Finset.sum_congr rfl fun j _ => (neg_mul _ _).symm
  have hrows : ∑ k, w k * i.rowActivity v k =
      ∑ j : Fin i.numColumns, (∑ k, w k * i.coefficient k j) * v j := by
    simp only [rowActivity, Finset.mul_sum, Finset.sum_mul]
    rw [Finset.sum_comm]
    simp only [mul_assoc]
  rw [hvalue, hrows, ← Finset.sum_add_distrib]
  apply Finset.sum_congr rfl
  intro j _
  unfold reducedCost
  ring

private theorem mul_le_mul_of_limits {lower upper : Extended ℚ} {c a b : ℚ}
    (hlower : lower.AtMost b) (hupper : upper.AtLeast b) (hpos : 0 < c → upper = .finite a)
    (hneg : c < 0 → lower = .finite a) : c * b ≤ c * a := by
  rcases lt_trichotomy c 0 with hc | rfl | hc
  · rw [hneg hc] at hlower
    exact mul_le_mul_of_nonpos_left hlower hc.le
  · rw [zero_mul, zero_mul]
  · rw [hpos hc] at hupper
    exact mul_le_mul_of_nonneg_left hupper hc.le

/-- A point with such prices is a best one. -/
theorem Complementary.optimal (h : i.Complementary v w) (hv : i.Feasible v) : i.Optimal v where
  feasible := hv
  best u hu := by
    rw [Sense.not_better_iff, toMax_value w u, toMax_value w v]
    -- no row and no variable of another point has more worth than that of this one
    apply add_le_add
    · apply Finset.sum_le_sum
      intro k _
      exact mul_le_mul_of_limits (hu.rowLower k) (hu.rowUpper k) (h.rowUpper k) (h.rowLower k)
    · apply Finset.sum_le_sum
      intro j _
      exact mul_le_mul_of_limits (hu.columnLower j) (hu.columnUpper j) (h.columnUpper j)
        (h.columnLower j)

end IncrementalLP.Instance
