import IncrementalLP.Proofs.Simplex.Primal
import IncrementalLP.Simplex.Solve
/-!
# The two phases

With a tolerance of zero every verdict of the primal method and of the two phases is right: an
optimal point is feasible and priced, no feasible point was missed, and the first phase is never
unbounded.
-/
namespace IncrementalLP.Program

open Matrix

variable {m n : ℕ} {p : Program ℚ m n} {o : SolveOptions ℚ} {β : Basis m n} {limit : ℤ}

/-- A point that was reported as optimal is the one of a priced and viable basis. -/
structure Optimal (p : Program ℚ m n) (β : Basis m n) (point : Point ℚ m n) : Prop where
  viable : p.Viable β
  priced : p.Priced (p.prices β).get
  x_eq : point.x.get = p.point β
  prices_eq : point.prices.get = (p.prices β).get
  objective_eq : point.objective = p.objective (p.point β)

/-- What a verdict says of the program. There is no such thing as an unbounded first phase. -/
inductive Settled (p : Program ℚ m n) (β : Basis m n) : Verdict ℚ m n → Prop
  | optimal {point : Point ℚ m n} : p.Optimal β point → Settled p β (.optimal point)
  | infeasible : (∀ x, ¬ p.Feasible x) → Settled p β .infeasible
  | dualUnbounded : (∀ x, ¬ p.Feasible x) → Settled p β .dualUnbounded
  | unbounded : p.Unbounded → Settled p β .unbounded
  | iterationLimit : Settled p β .iterationLimit
  | timeLimit : Settled p β .timeLimit

/-- No column that may enter has a surplus, and those with a value have none either way. -/
theorem Optimal.slackness {point : Point ℚ m n} (h : p.Optimal β point) {j : Fin n}
    (hj : p.barred.get j = false) :
    p.surplus (p.prices β).get j ≤ 0 ∧ (p.surplus (p.prices β).get j = 0 ∨ p.point β j = 0) := by
  refine ⟨h.priced j hj, ?_⟩
  by_cases hmem : j ∈ β
  · exact Or.inl (surplus_prices_of_mem h.viable.regular hmem)
  · exact Or.inr (carries_point p β j hmem)

theorem Optimal.objective_le {point : Point ℚ m n} (h : p.Optimal β point) {x : Fin n → ℚ}
    (hx : p.Feasible x) : p.objective x ≤ p.objective (p.point β) := by
  have hle := h.priced.objective_le hx
  have hpoint := p.objective_eq (p.prices β).get (p.point β)
  rw [h.viable.feasible.equations] at hpoint
  have hzero : p.surplus (p.prices β).get ⬝ᵥ p.point β = 0 := by
    rw [dotProduct]
    apply Finset.sum_eq_zero
    intro j _
    by_cases hj : j ∈ β
    · rw [surplus_prices_of_mem h.viable.regular hj, zero_mul]
    · rw [carries_point p β j hj, mul_zero]
  linarith

private theorem pointAt_objective (hβ : p.Regular β) (y : Vector ℚ m) :
    (p.pointAt β (p.basicValues β) y).objective = p.objective (p.point β) := by
  have hdot : (p.pointAt β (p.basicValues β) y).objective =
      (p.basicCosts β).get ⬝ᵥ (p.basicValues β).get := Dense.dot_eq _ _
  rw [hdot, objective, dotProduct, dotProduct, (carries_point p β).sum_eq hβ.injective]
  apply Finset.sum_congr rfl
  intro k _
  rw [point_get hβ, basicCosts, Vector.get_map]

theorem Viable.optimal_pointAt (hβ : p.Viable β) (hy : p.Priced (p.prices β).get) :
    p.Optimal β (p.pointAt β (p.basicValues β) (p.prices β)) where
  viable := hβ
  priced := hy
  x_eq := rfl
  prices_eq := rfl
  objective_eq := pointAt_objective hβ.regular _

private theorem point_of_no_rows (p : Program ℚ 0 n) (β : Basis 0 n) : p.point β = 0 := by
  funext j
  apply carries_point p β j
  rw [Basis.mem_iff]
  rintro ⟨k, -⟩
  exact k.elim0

theorem surplus_of_no_rows (p : Program ℚ 0 n) (y : Fin 0 → ℚ) (j : Fin n) :
    p.surplus y j = p.cost.get j := by
  rw [surplus_apply, dotProduct, Fin.sum_univ_zero, sub_zero]

private theorem primal_viable (htol : o.tolerance = 0) (hβ : p.Viable β) (limit : ℤ) :
    p.Viable (p.primal o limit β).basis :=
  (p.primal_trail o limit β).preserves (fun _ _ hβ h => h.viable htol hβ) hβ

theorem primal_optimal (htol : o.tolerance = 0) (hβ : p.Viable β) {point : Point ℚ m n}
    (h : (p.primal o limit β).ending = .optimal point) :
    p.Optimal (p.primal o limit β).basis point := by
  have hviable := primal_viable htol hβ limit
  unfold primal at h hviable ⊢
  split at h
  · next hm =>
    subst hm
    simp only [withoutRows, if_true] at h hviable ⊢
    split at h
    · cases h
    · next hnone =>
      cases h
      refine ⟨hviable, ?_, ?_, ?_, ?_⟩
      · intro j hj
        rw [surplus_of_no_rows]
        rw [htol] at hnone
        simp only [List.any_eq_true, List.mem_finRange, true_and, not_exists, Bool.and_eq_true,
          Bool.not_eq_true', decide_eq_true_eq, not_and, not_lt] at hnone
        exact hnone j hj
      · rw [point_of_no_rows]
        funext j
        exact Vector.get_replicate _ _ _
      · funext k
        exact k.elim0
      · rw [point_of_no_rows, objective, dotProduct_zero]
  · next hm =>
    rw [if_neg hm] at hviable ⊢
    obtain ⟨t, -, -, -, hstop, -⟩ := primalFrom_trail p o (max limit 1).toNat 0 β
    rw [h] at hstop
    cases hstop with
    | optimal hnone =>
        rw [htol, hviable.cleanValues_eq]
        exact hviable.optimal_pointAt (priced_of_primalEntering htol hviable.regular hnone)

private theorem primal_unbounded (htol : o.tolerance = 0) (hβ : p.Viable β)
    (h : (p.primal o limit β).ending = .unbounded) : ∃ r, p.Improving r := by
  have hviable := primal_viable htol hβ limit
  unfold primal at h hviable
  split at h
  · next hm =>
    subst hm
    simp only [withoutRows] at h
    split at h
    · next hany =>
      obtain ⟨j, -, hj⟩ := List.any_eq_true.mp hany
      rw [htol, Bool.and_eq_true, Bool.not_eq_true', decide_eq_true_eq] at hj
      refine ⟨Pi.single j 1, funext fun i => i.elim0, ?_, ?_, ?_⟩
      · intro i
        rw [Pi.single_apply]
        split
        · exact zero_le_one
        · exact le_rfl
      · intro i hi
        rw [Pi.single_eq_of_ne]
        rintro rfl
        rw [hj.1] at hi
        cases hi
      · rw [objective, dotProduct_single_one]
        exact hj.2
    · cases h
  · next hm =>
    rw [if_neg hm] at hviable
    obtain ⟨t, -, -, -, hstop, -⟩ := primalFrom_trail p o (max limit 1).toNat 0 β
    rw [h] at hstop
    cases hstop with
    | unbounded hj hnone => exact ⟨_, improving_of_primalLeaving htol hviable hj hnone⟩

theorem phaseTwo_settled (htol : o.tolerance = 0) (hβ : p.Viable β) (iterations : ℕ)
    (journal : List (Event ℚ)) :
    p.Settled (p.phaseTwo o iterations journal β).basis
      (p.phaseTwo o iterations journal β).ending := by
  unfold phaseTwo
  simp only
  cases hend : (p.primal (o.after iterations) (o.maxIterations - iterations) β).ending with
  | optimal point => exact .optimal (primal_optimal (o := o.after iterations) htol hβ hend)
  | unbounded =>
      obtain ⟨r, hr⟩ := primal_unbounded (o := o.after iterations) htol hβ hend
      exact .unbounded (hβ.feasible.unbounded hr)
  | iterationLimit => exact .iterationLimit
  | timeLimit => exact .timeLimit

@[simp] theorem get_phaseOne_barred (p : Program ℚ m n) (j : Fin n) :
    p.phaseOne.barred.get j = false := Vector.get_replicate _ _ _

@[simp] theorem get_phaseOne_cost (p : Program ℚ m n) (j : Fin n) :
    p.phaseOne.cost.get j = if p.barred.get j = true then -1 else 0 := Vector.get_map _ _ _

private theorem phaseOne_objective (p : Program ℚ m n) (x : Vector ℚ n) :
    p.phaseOne.objective x.get = -p.artificialSum x := by
  rw [objective, artificialSum, Dense.sum_eq, dotProduct, ← Finset.sum_neg_distrib]
  apply Finset.sum_congr rfl
  intro j _
  rw [get_phaseOne_cost]
  split
  · rw [neg_one_mul]
  · rw [zero_mul, neg_zero]

private theorem Feasible.phaseOne {x : Fin n → ℚ} (h : p.Feasible x) : p.phaseOne.Feasible x where
  equations := h.equations
  nonneg := h.nonneg
  barred j hj := by simp at hj

private theorem Feasible.phaseOne_objective {x : Fin n → ℚ} (h : p.Feasible x) :
    p.phaseOne.objective x = 0 := by
  rw [objective, dotProduct]
  apply Finset.sum_eq_zero
  intro j _
  rw [get_phaseOne_cost]
  split
  · next hj => rw [h.barred j hj, mul_zero]
  · rw [zero_mul]

private theorem phaseOne_not_improving (p : Program ℚ m n) (r : Fin n → ℚ) :
    ¬ p.phaseOne.Improving r := by
  intro hr
  have hnonpos : p.phaseOne.objective r ≤ 0 := by
    rw [objective, dotProduct]
    apply Finset.sum_nonpos
    intro j _
    rw [get_phaseOne_cost]
    split
    · have := hr.nonneg j
      linarith
    · rw [zero_mul]
  exact absurd hr.gain (not_lt.mpr hnonpos)

/-- Where no artificial variable is left over, an optimum of the first phase is a start for the
second. -/
theorem Viable.of_phaseOne (hβ : p.phaseOne.Viable β) {x : Vector ℚ n}
    (hx : x.get = p.phaseOne.point β) (hsum : p.artificialSum x ≤ 0) : p.Viable β := by
  have hregular : p.Regular β := hβ.regular
  apply Feasible.viable hregular
  have hfeasible := hβ.feasible
  have hpoint : p.point β = p.phaseOne.point β := rfl
  rw [hpoint]
  refine ⟨hfeasible.equations, hfeasible.nonneg, ?_⟩
  rw [artificialSum, Dense.sum_eq] at hsum
  have hterm : ∀ j ∈ Finset.univ, 0 ≤ if p.barred.get j = true then x.get j else 0 := by
    intro j _
    split
    · rw [hx]
      exact hfeasible.nonneg j
    · exact le_rfl
  intro j hj
  have hzero := (Finset.sum_eq_zero_iff_of_nonneg hterm).mp
    (le_antisymm hsum (Finset.sum_nonneg hterm)) j (Finset.mem_univ j)
  rw [if_pos hj, hx] at hzero
  exact hzero

theorem Viable.of_skip (hβ : p.phaseOne.Viable β)
    (hskip : (m = 0 || !p.barred.contains true) = true) : p.Viable β where
  regular := hβ.regular
  nonneg := hβ.nonneg
  barred k hk := by
    have hm : m ≠ 0 := by
      rintro rfl
      exact k.elim0
    have hnone : true ∉ p.barred := by simpa [hm] using hskip
    exact absurd (Vector.mem_iff_getElem.mpr ⟨_, (β.get k).isLt, hk⟩) hnone

/-- What the two phases come to after a run of the first one, or where it is skipped. -/
inductive Phased {α : Type} [Scalar α] (p : Program α m n) (o : SolveOptions α) (β : Basis m n)
    (run : Run (PrimalEnd α m n) α m n) : Outcome α m n → Prop
  | skipped : (m = 0 || !p.barred.contains true) = true → Phased p o β run (p.phaseTwo o 0 [] β)
  | unbounded : (m = 0 || !p.barred.contains true) = false → run.ending = .unbounded →
      Phased p o β run ⟨⟨run.basis, run.iterations, .phaseOneUnbounded, run.journal⟩, p.signs⟩
  | iterationLimit : (m = 0 || !p.barred.contains true) = false → run.ending = .iterationLimit →
      Phased p o β run ⟨⟨run.basis, run.iterations, .iterationLimit, run.journal⟩, p.signs⟩
  | timeLimit : (m = 0 || !p.barred.contains true) = false → run.ending = .timeLimit →
      Phased p o β run ⟨⟨run.basis, run.iterations, .timeLimit, run.journal⟩, p.signs⟩
  | infeasible {point : Point α m n} : (m = 0 || !p.barred.contains true) = false →
      run.ending = .optimal point → o.tolerance < p.artificialSum point.x →
      Phased p o β run ⟨⟨run.basis, run.iterations, .infeasible, run.journal⟩, p.signs⟩
  | finished {point : Point α m n} : (m = 0 || !p.barred.contains true) = false →
      run.ending = .optimal point → ¬ o.tolerance < p.artificialSum point.x →
      Phased p o β run (p.phaseTwo o run.iterations run.journal run.basis)

theorem phased_twoPhase {α : Type} [Scalar α] (p : Program α m n) (o : SolveOptions α)
    (β : Basis m n) :
    Phased p o β (p.phaseOne.primal o o.maxIterations β) (p.twoPhase o β) := by
  unfold twoPhase
  split
  · next hskip => exact .skipped hskip
  · next hskip =>
    rw [Bool.not_eq_true] at hskip
    cases hend : (p.phaseOne.primal o o.maxIterations β).ending with
    | unbounded =>
        simp only [hend]
        exact .unbounded hskip hend
    | iterationLimit =>
        simp only [hend]
        exact .iterationLimit hskip hend
    | timeLimit =>
        simp only [hend]
        exact .timeLimit hskip hend
    | optimal point =>
        simp only [hend]
        split
        · next hsum => exact .infeasible hskip hend hsum
        · next hsum => exact .finished hskip hend hsum

theorem twoPhase_settled (htol : o.tolerance = 0) (hβ : p.phaseOne.Viable β) :
    p.Settled (p.twoPhase o β).basis (p.twoPhase o β).ending := by
  have hphased := phased_twoPhase p o β
  generalize p.twoPhase o β = out at hphased ⊢
  cases hphased with
  | skipped hskip => exact phaseTwo_settled htol (hβ.of_skip hskip) _ _
  | unbounded _ hend =>
      obtain ⟨r, hr⟩ := primal_unbounded htol hβ hend
      exact absurd hr (phaseOne_not_improving p r)
  | iterationLimit => exact .iterationLimit
  | timeLimit => exact .timeLimit
  | infeasible _ hend hsum =>
      have hopt := primal_optimal htol hβ hend
      have hobjective := hopt.objective_eq
      rw [← hopt.x_eq, phaseOne_objective] at hobjective
      rw [htol] at hsum
      refine .infeasible fun x hx => ?_
      have hle := hopt.objective_le hx.phaseOne
      rw [hx.phaseOne_objective, ← hopt.x_eq, phaseOne_objective] at hle
      linarith
  | finished _ hend hsum =>
      have hopt := primal_optimal htol hβ hend
      rw [htol] at hsum
      exact phaseTwo_settled htol (hopt.viable.of_phaseOne hopt.x_eq (not_lt.mp hsum)) _ _

theorem twoPhase_signs (p : Program ℚ m n) (o : SolveOptions ℚ) (β : Basis m n) :
    (p.twoPhase o β).signs = p.signs := by
  have hphased := phased_twoPhase p o β
  generalize p.twoPhase o β = out at hphased ⊢
  cases hphased <;> rfl

end IncrementalLP.Program
