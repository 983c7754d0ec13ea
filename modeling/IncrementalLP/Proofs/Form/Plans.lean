import IncrementalLP.Proofs.Form.Layout
import IncrementalLP.Proofs.Instance.Checks
import IncrementalLP.Proofs.Instance.Feasible
/-!
# Rows of the form

What a row of the form says of the activity of its variables, with a slack or without. The rows
that stem from a row of the instance together say what its limits say.
-/
namespace IncrementalLP

namespace RowPlan

variable {P : RowPlan ℚ} {X : Label → ℚ} {a : ℚ}

/-- The activity is equal to the right-hand side, or on the side of it that the slack allows. -/
def Holds (P : RowPlan ℚ) (a : ℚ) : Prop :=
  match P.slack with
  | some s => 0 ≤ s * (P.rhs - a)
  | none => a = P.rhs

/-- The slacks of rows have the coefficient one or minus one. -/
def Unital (P : RowPlan ℚ) : Prop := ∀ s, P.slack = some s → s * s = 1

theorem holds_of_slackTerm (hP : P.Unital) (hslack : P.slack.isSome = true → 0 ≤ X P.label.slack)
    (hrow : a + P.slackTerm X = P.rhs) : P.Holds a := by
  unfold slackTerm at hrow
  unfold Holds
  cases h : P.slack with
  | none =>
      simp only [h, add_zero] at hrow
      exact hrow
  | some s =>
      simp only [h] at hrow
      have hrest : s * (P.rhs - a) = s * s * X P.label.slack := by
        rw [← hrow]
        ring
      rw [h] at hslack
      simp only
      rw [hrest, hP s h, one_mul]
      exact hslack rfl

theorem slackTerm_of_holds (hP : P.Unital) (hX : P.slack.isSome = true →
    X P.label.slack = |P.rhs - a|) (h : P.Holds a) : a + P.slackTerm X = P.rhs := by
  unfold Holds at h
  unfold slackTerm
  cases hs : P.slack with
  | none =>
      simp only [hs] at h ⊢
      rw [h, add_zero]
  | some s =>
      rw [hs] at hX
      simp only [hs] at h ⊢
      rw [hX rfl]
      rcases mul_self_eq_one_iff.mp (hP s hs) with rfl | rfl
      · rw [one_mul] at h
        rw [abs_of_nonneg h]
        ring
      · rw [neg_one_mul, neg_nonneg] at h
        rw [abs_of_nonpos h]
        ring

end RowPlan

namespace Row

variable {r : Row ℚ} {k : ℕ} {shift : ℚ}

theorem holds_plans_iff (hr : r.Usable) (k : ℕ) (shift a : ℚ) :
    (∀ P ∈ r.plans k shift, P.Holds (a - shift)) ↔ r.lower.AtMost a ∧ r.upper.AtLeast a := by
  obtain ⟨sense, rhs, name⟩ := r
  cases rhs with
  | finite b =>
      cases sense with
      | atMost =>
          simp [plans, Extended.finite?, RowPlan.Holds, lower, upper, Extended.AtMost,
            Extended.AtLeast]
      | atLeast =>
          simp [plans, Extended.finite?, RowPlan.Holds, lower, upper, Extended.AtMost,
            Extended.AtLeast]
      | equal =>
          simp only [plans, Extended.finite?, RowPlan.Holds, List.forall_mem_singleton, lower,
            upper, Extended.AtMost, Extended.AtLeast, sub_left_inj]
          rw [le_antisymm_iff, and_comm]
      | range w =>
          cases w with
          | finite w =>
              have hlower : lower (⟨.range (.finite w), .finite b, name⟩ : Row ℚ) =
                  .finite (b - w) := rfl
              rw [hlower]
              simp only [plans, Extended.finite?, RowPlan.Holds, List.forall_mem_cons, upper,
                Extended.AtMost, Extended.AtLeast, Extended.toScalar]
              constructor
              · rintro ⟨hupper, hlow, -⟩
                exact ⟨by linarith, by linarith⟩
              · rintro ⟨hlow, hupper⟩
                exact ⟨by linarith, by linarith, fun P hP => absurd hP List.not_mem_nil⟩
          | negInf | posInf | nan => cases hr.2
  | posInf | negInf | nan =>
      -- The row is free, or a check has refused it.
      cases sense <;> simp_all [Usable, plans, Extended.finite?, Extended.isFinite, lower, upper,
        Extended.AtMost, Extended.AtLeast]

end Row

namespace Instance

variable {i : Instance ℚ}

theorem unital_of_mem_plans {P : RowPlan ℚ} (hP : P ∈ i.plans) : P.Unital := by
  intro s hs
  rcases slack_of_mem_plans hP hs with rfl | rfl <;> norm_num

end Instance

end IncrementalLP
