import IncrementalLP.Proofs.Simplex.Basis
/-!
# Certificates

What shows that a point of a program is optimal, that a program has no point, and that its
objective has no bound.
-/
namespace IncrementalLP.Program

open Matrix

variable {m n : ℕ}

/-- A point of the program: artificial variables are zero. -/
structure Feasible (p : Program ℚ m n) (x : Fin n → ℚ) : Prop where
  equations : p.matrix *ᵥ x = p.rhs.get
  nonneg : ∀ j, 0 ≤ x j
  barred : ∀ j, p.barred.get j = true → x j = 0

/-- No column that may enter improves the objective at given prices. -/
def Priced (p : Program ℚ m n) (y : Fin m → ℚ) : Prop :=
  ∀ j, p.barred.get j = false → p.surplus y j ≤ 0

/-- A direction in which the objective grows and which never leaves the feasible points. -/
structure Improving (p : Program ℚ m n) (r : Fin n → ℚ) : Prop where
  homogeneous : p.matrix *ᵥ r = 0
  nonneg : ∀ j, 0 ≤ r j
  barred : ∀ j, p.barred.get j = true → r j = 0
  gain : 0 < p.objective r

/-- The objective has no bound on the points of the program. -/
def Unbounded (p : Program ℚ m n) : Prop := ∀ K : ℚ, ∃ x, p.Feasible x ∧ K < p.objective x

variable {p : Program ℚ m n} {x r : Fin n → ℚ} {y : Fin m → ℚ}

private theorem Priced.surplus_dot_nonpos (hy : p.Priced y) (hnonneg : ∀ j, 0 ≤ x j)
    (hbarred : ∀ j, p.barred.get j = true → x j = 0) : p.surplus y ⬝ᵥ x ≤ 0 := by
  apply Finset.sum_nonpos
  intro j _
  cases hj : p.barred.get j with
  | true => rw [hbarred j hj, mul_zero]
  | false => exact mul_nonpos_of_nonpos_of_nonneg (hy j hj) (hnonneg j)

/-- Prices at which no column improves the objective bound it. -/
theorem Priced.objective_le (hy : p.Priced y) (hx : p.Feasible x) :
    p.objective x ≤ y ⬝ᵥ p.rhs.get := by
  have h := p.objective_eq y x
  rw [hx.equations] at h
  have hnonpos := hy.surplus_dot_nonpos hx.nonneg hx.barred
  linarith

theorem Feasible.add_smul (hx : p.Feasible x) (hr : p.Improving r) {t : ℚ} (ht : 0 ≤ t) :
    p.Feasible (x + t • r) where
  equations := by
    rw [mulVec_add, mulVec_smul, hr.homogeneous, smul_zero, add_zero, hx.equations]
  nonneg j := add_nonneg (hx.nonneg j) (mul_nonneg ht (hr.nonneg j))
  barred j hj := by
    rw [Pi.add_apply, Pi.smul_apply, hx.barred j hj, hr.barred j hj, smul_zero, add_zero]

theorem Feasible.unbounded (hx : p.Feasible x) (hr : p.Improving r) : p.Unbounded := by
  intro K
  have hgain := hr.gain
  let t := max 0 ((K - p.objective x) / p.objective r + 1)
  have ht : 0 ≤ t := le_max_left _ _
  refine ⟨x + t • r, hx.add_smul hr ht, ?_⟩
  have hobjective : p.objective (x + t • r) = p.objective x + t * p.objective r := by
    rw [objective, dotProduct_add, dotProduct_smul, smul_eq_mul]
    rfl
  have hlarge : (K - p.objective x) / p.objective r < t :=
    (lt_add_one _).trans_le (le_max_right _ _)
  rw [div_lt_iff₀ hgain] at hlarge
  linarith

end IncrementalLP.Program
