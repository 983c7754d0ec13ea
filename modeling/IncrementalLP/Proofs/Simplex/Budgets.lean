import IncrementalLP.Proofs.Simplex.Dual
/-!
# Budgets of pivots

Each loop keeps to the pivots that it is granted. Two loops that share a limit need not: the
primal method is always granted a pivot, even where the loop before it has used the limit up.
-/
namespace IncrementalLP.Program

variable {α : Type} [Scalar α] {m n : ℕ} {o : SolveOptions α}

private theorem primalFrom_le_budget (p : Program α m n) (o : SolveOptions α) (budget count : ℕ)
    (β : Basis m n) : (p.primalFrom o budget count β).iterations ≤ count + budget := by
  induction budget generalizing count β with
  | zero =>
      unfold primalFrom
      dsimp only
      split <;> exact le_rfl
  | succ budget ih =>
      unfold primalFrom
      dsimp only
      split
      · exact Nat.le_add_right _ _
      · next j _ =>
        split
        · exact Nat.le_add_right _ _
        · split
          · exact Nat.le_add_right _ _
          · next step k _ =>
            have hnext := ih (count + 1) (β.set k j k.isLt)
            rw [Nat.add_right_comm] at hnext
            exact hnext

/-- The primal method makes one pivot at most where it is granted none. -/
theorem primal_le_limit (p : Program α m n) (o : SolveOptions α) (limit : ℤ) (β : Basis m n) :
    ((p.primal o limit β).iterations : ℤ) ≤ max limit 1 := by
  unfold primal
  split
  · exact le_max_of_le_right Int.one_nonneg
  · have hbudget := p.primalFrom_le_budget o (max limit 1).toNat 0 β
    omega

private theorem dualFrom_le_budget (p : Program α m n) (o : SolveOptions α) (budget count : ℕ)
    (β : Basis m n) : (p.dualFrom o budget count β).iterations ≤ count + budget := by
  induction budget generalizing p count β with
  | zero =>
      unfold dualFrom
      dsimp only
      split
      · exact le_rfl
      · split <;> exact le_rfl
  | succ budget ih =>
      unfold dualFrom
      dsimp only
      split
      · exact Nat.le_add_right _ _
      · split
        · exact Nat.le_add_right _ _
        · next k _ =>
          split
          · exact Nat.le_add_right _ _
          · split
            · exact Nat.le_add_right _ _
            · next ratio j _ =>
              have hnext := ih (p.flipBasic o.tolerance β (p.basicValues β)) (count + 1)
                (β.set k j k.isLt)
              rw [Nat.add_right_comm] at hnext
              exact hnext

/-- The dual method keeps to its limit. -/
theorem dual_le_limit (p : Program α m n) (o : SolveOptions α) {limit : ℤ} (hlimit : 0 ≤ limit)
    (β : Basis m n) : ((p.dual o limit β).iterations : ℤ) ≤ limit := by
  have hbudget := p.dualFrom_le_budget o limit.toNat 0 β
  unfold dual
  omega

/-- The limit is used up, and from a basis the primal method makes the pivot that it is granted
nevertheless. -/
structure Overdraws (p : Program α m n) (o : SolveOptions α) (spent : ℕ) (β : Basis m n) :
    Prop where
  exhausted : (spent : ℤ) = o.maxIterations
  pivots : (p.primal (o.after spent) 0 β).iterations = 1

/-- The first phase drives the artificial variables out with the last pivot of the limit, and the
second one goes on. -/
structure PhasesOverdraw (p : Program α m n) (o : SolveOptions α) (β : Basis m n) : Prop where
  needed : (m = 0 || !p.barred.contains true) = false
  feasible : ∃ point, (p.phaseOne.primal o o.maxIterations β).ending = .optimal point ∧
    ¬ o.tolerance < p.artificialSum point.x
  overdraws : p.Overdraws o (p.phaseOne.primal o o.maxIterations β).iterations
    (p.phaseOne.primal o o.maxIterations β).basis

/-- The dual method ends with the last pivot of the limit, and the primal method goes on. -/
structure RepairOverdraws (p : Program α m n) (o : SolveOptions α) (β : Basis m n) : Prop where
  optimal : (p.dual o o.maxIterations β).ending = .optimal
  overdraws : (p.dual o o.maxIterations β).program.Overdraws o
    (p.dual o o.maxIterations β).iterations (p.dual o o.maxIterations β).basis

/-- A number of iterations keeps to a limit except in one case, in which it is one more. -/
structure Budgeted (limit : ℤ) (overdrawn : Prop) (iterations : ℤ) : Prop where
  le_succ : iterations ≤ limit + 1
  exceeds_iff : limit < iterations ↔ overdrawn

private theorem Budgeted.of_le {limit iterations : ℤ} {overdrawn : Prop} (hle : iterations ≤ limit)
    (hnot : ¬ overdrawn) : Budgeted limit overdrawn iterations where
  le_succ := hle.trans (Int.le_add_one le_rfl)
  exceeds_iff := iff_of_false hle.not_gt hnot

theorem Budgeted.congr {limit iterations : ℤ} {overdrawn overdrawn' : Prop}
    (h : Budgeted limit overdrawn iterations) (hiff : overdrawn ↔ overdrawn') :
    Budgeted limit overdrawn' iterations where
  le_succ := h.le_succ
  exceeds_iff := h.exceeds_iff.trans hiff

private theorem phaseTwo_budgeted (p : Program α m n) {spent : ℕ} (hspent : spent ≤ o.maxIterations)
    (journal : List (Event α)) (β : Basis m n) :
    Budgeted o.maxIterations (p.Overdraws o spent β) (p.phaseTwo o spent journal β).iterations := by
  have hiterations : (p.phaseTwo o spent journal β).iterations =
    spent + (p.primal (o.after spent) (o.maxIterations - spent) β).iterations := rfl
  have hle := p.primal_le_limit (o.after spent) (o.maxIterations - spent) β
  rw [hiterations]
  rcases hspent.lt_or_eq with hlt | heq
  · refine .of_le (by omega) fun h => ?_
    exact hlt.ne h.exhausted
  · rw [← heq, sub_self] at hle ⊢
    refine ⟨by push_cast; omega, fun h => ⟨heq, by push_cast at h; omega⟩, fun h => ?_⟩
    rw [h.pivots]
    push_cast
    omega

theorem twoPhase_budgeted (p : Program α m n) (hlimit : 1 ≤ o.maxIterations) (β : Basis m n) :
    Budgeted o.maxIterations (p.PhasesOverdraw o β) (p.twoPhase o β).iterations := by
  have hfirst := p.phaseOne.primal_le_limit o o.maxIterations β
  rw [max_eq_left hlimit] at hfirst
  have hphased := phased_twoPhase p o β
  generalize p.twoPhase o β = out at hphased ⊢
  cases hphased with
  | skipped hskip =>
      refine (p.phaseTwo_budgeted (by omega) [] β).congr (iff_of_false (fun h => ?_) fun h => ?_)
      · have hspent := h.exhausted
        omega
      · rw [h.needed] at hskip
        cases hskip
  | unbounded _ hend | iterationLimit _ hend | timeLimit _ hend =>
      refine .of_le hfirst fun h => ?_
      obtain ⟨point, hpoint, -⟩ := h.feasible
      rw [hpoint] at hend
      cases hend
  | infeasible _ hend hsum =>
      refine .of_le hfirst fun h => ?_
      obtain ⟨point, hpoint, hfeasible⟩ := h.feasible
      rw [hpoint] at hend
      cases hend
      exact hfeasible hsum
  | finished hskip hend hsum =>
      exact (p.phaseTwo_budgeted hfirst _ _).congr
        ⟨fun h => ⟨hskip, ⟨_, hend, hsum⟩, h⟩, PhasesOverdraw.overdraws⟩

theorem repair_budgeted {p : Program α m n} (hlimit : 0 ≤ o.maxIterations) {β : Basis m n}
    {out : Outcome α m n} (h : p.repair? o β = some out) :
    Budgeted o.maxIterations (p.RepairOverdraws o β) out.iterations := by
  have hdual := p.dual_le_limit o hlimit β
  cases repaired_of_repair h with
  | infeasible hend | iterationLimit hend | timeLimit hend =>
      refine .of_le hdual fun h => ?_
      rw [h.optimal] at hend
      cases hend
  | optimal hend =>
      exact (phaseTwo_budgeted _ hdual _ _).congr
        ⟨fun h => ⟨hend, h⟩, RepairOverdraws.overdraws⟩

/-- A repair that overdraws its limit has not been refused. -/
theorem RepairOverdraws.repair_ne_none {p : Program α m n} {β : Basis m n}
    (h : p.RepairOverdraws o β) : p.repair? o β ≠ none := by
  unfold repair?
  simp only [h.optimal]
  exact Option.some_ne_none _

end IncrementalLP.Program
