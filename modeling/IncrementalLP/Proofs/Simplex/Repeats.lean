import IncrementalLP.Proofs.Simplex.Dual
/-!
# Repairs of optimal bases

At an optimal basis there is nothing to repair. No column is negated, none leaves and none enters,
and both methods find that out before they look at their limits.
-/
namespace IncrementalLP.Program

open Matrix

variable {m n : ℕ} {p : Program ℚ m n} {o : SolveOptions ℚ} {β : Basis m n} {point : Point ℚ m n}

private theorem Viable.turned_eq (hβ : p.Viable β) (htol : o.tolerance = 0) : p.turned o β = p := by
  have hstep : ∀ k, (p.barred.get (β.get k) && decide (o.tolerance < (p.basicValues β).get k)) =
      false := by
    intro k
    cases hk : p.barred.get (β.get k) with
    | false => rfl
    | true => rw [hβ.barred k hk, htol, Bool.true_and, decide_eq_false (lt_irrefl 0)]
  unfold turned flipBasic
  induction List.finRange m with
  | nil => rfl
  | cons k l ih =>
      rw [List.foldl_cons, hstep k]
      exact ih

private theorem Optimal.dual_eq (h : p.Optimal β point) (htol : o.tolerance = 0) (limit : ℤ) :
    p.dual o limit β = ⟨⟨β, 0, .optimal, []⟩, p⟩ := by
  have hturned := h.viable.turned_eq htol
  have hprice : p.unpriced o β = [] := (unpriced_eq_nil_iff htol h.viable.regular).mpr h.priced
  have hleave : p.dualLeavingAt? o β = none := by
    cases hk : p.dualLeavingAt? o β with
    | none => rfl
    | some k => exact absurd (dualLeavingAt_spec htol hk) (not_lt.mpr (h.viable.nonneg k))
  rw [← hturned] at hprice hleave
  unfold dual
  rw [dualFrom_of_dualLeaving (fun h => h.2 hprice) hleave, hturned]

/-- A basis has one optimal point. -/
theorem Optimal.point_eq {point' : Point ℚ m n} (h : p.Optimal β point) (h' : p.Optimal β point') :
    point' = point := by
  have hx : point'.x = point.x :=
    Vector.ext fun k hk => congrFun (h'.x_eq.trans h.x_eq.symm) ⟨k, hk⟩
  have hprices : point'.prices = point.prices :=
    Vector.ext fun k hk => congrFun (h'.prices_eq.trans h.prices_eq.symm) ⟨k, hk⟩
  have hobjective : point'.objective = point.objective :=
    h'.objective_eq.trans h.objective_eq.symm
  cases point
  cases point'
  simp_all only

theorem Optimal.primal_eq (h : p.Optimal β point) (htol : o.tolerance = 0) (limit : ℤ) :
    p.primal o limit β = ⟨β, 0, .optimal point, []⟩ := by
  have hstands : ∃ point', p.primal o limit β = ⟨β, 0, .optimal point', []⟩ := by
    unfold primal
    split
    · next hm =>
      subst hm
      have hnone : ((List.finRange n).any fun j =>
          !p.barred.get j && decide (o.tolerance < p.cost.get j)) = false := by
        rw [List.any_eq_false]
        intro j _ hj
        rw [htol, Bool.and_eq_true, Bool.not_eq_true', decide_eq_true_eq] at hj
        have hprice := h.priced j hj.1
        rw [surplus_of_no_rows] at hprice
        exact absurd hj.2 (not_lt.mpr hprice)
      unfold withoutRows
      simp only [hnone, Bool.false_eq_true, if_false]
      exact ⟨_, rfl⟩
    · have henter : p.primalEntering? o β = none := by
        cases hj : p.primalEntering? o β with
        | none => rfl
        | some j =>
            obtain ⟨-, hbarred, hgain⟩ := primalEntering_spec htol h.viable.regular hj
            exact absurd hgain (not_lt.mpr (h.priced j hbarred))
      exact ⟨_, primalFrom_of_primalEntering henter _ _⟩
  obtain ⟨point', heq⟩ := hstands
  have hpoint := primal_optimal htol h.viable (congrArg Run.ending heq)
  rw [heq] at hpoint
  rw [heq, h.point_eq hpoint]

private theorem Optimal.phaseTwo_eq (h : p.Optimal β point) (htol : o.tolerance = 0)
    (iterations : ℕ) (journal : List (Event ℚ)) :
    p.phaseTwo o iterations journal β =
      ⟨⟨β, iterations, .optimal point, journal⟩, p.signs⟩ := by
  have hprimal := h.primal_eq (o := o.after iterations) htol (o.maxIterations - iterations)
  simp only [phaseTwo, hprimal, Verdict.ofPrimal, add_zero, List.append_nil]

/-- The repair of an optimal basis ends where it starts, whatever its limits are. -/
theorem Optimal.repair_eq (h : p.Optimal β point) (htol : o.tolerance = 0) :
    p.repair? o β = some ⟨⟨β, 0, .optimal point, []⟩, p.signs⟩ := by
  unfold repair?
  simp only [h.dual_eq htol, h.phaseTwo_eq htol]

theorem Optimal.repair_eq_of_dual
    (h : (p.dual o o.maxIterations β).program.Optimal (p.dual o o.maxIterations β).basis point)
    (htol : o.tolerance = 0) (hending : (p.dual o o.maxIterations β).ending = .optimal) :
    p.repair? o β = some
      ⟨⟨(p.dual o o.maxIterations β).basis, (p.dual o o.maxIterations β).iterations,
        .optimal point, (p.dual o o.maxIterations β).journal⟩,
        (p.dual o o.maxIterations β).program.signs⟩ := by
  unfold repair?
  simp only [hending, h.phaseTwo_eq htol]

/-- The second program and basis are the first ones, where only the sizes are given in another
way. -/
structure Copies {m' n' : ℕ} (p : Program ℚ m n) (β : Basis m n) (q : Program ℚ m' n')
    (γ : Basis m' n') : Prop where
  rows : m' = m
  columns : n' = n
  basis : γ.toList = β.toList.map (Fin.cast columns.symm)
  entry : ∀ k j, q.matrix (k.cast rows.symm) (j.cast columns.symm) = p.matrix k j
  rhs : ∀ k, q.rhs.get (k.cast rows.symm) = p.rhs.get k
  cost : ∀ j, q.cost.get (j.cast columns.symm) = p.cost.get j
  barred : ∀ j, q.barred.get (j.cast columns.symm) = p.barred.get j
  signs : ∀ j, q.signs.get (j.cast columns.symm) = p.signs.get j

private theorem ext_get {q : Program ℚ m n} (hentry : ∀ k j, q.matrix k j = p.matrix k j)
    (hrhs : ∀ k, q.rhs.get k = p.rhs.get k) (hcost : ∀ j, q.cost.get j = p.cost.get j)
    (hbarred : ∀ j, q.barred.get j = p.barred.get j)
    (hsigns : ∀ j, q.signs.get j = p.signs.get j) : q = p := by
  have hcolumns : q.columns = p.columns :=
    Vector.ext fun j hj => Vector.ext fun k hk => hentry ⟨k, hk⟩ ⟨j, hj⟩
  have hrhs : q.rhs = p.rhs := Vector.ext fun k hk => hrhs ⟨k, hk⟩
  have hcost : q.cost = p.cost := Vector.ext fun j hj => hcost ⟨j, hj⟩
  have hbarred : q.barred = p.barred := Vector.ext fun j hj => hbarred ⟨j, hj⟩
  have hsigns : q.signs = p.signs := Vector.ext fun j hj => hsigns ⟨j, hj⟩
  cases p
  cases q
  simp_all only

variable {m' n' : ℕ} {q : Program ℚ m' n'} {γ : Basis m' n'}

/-- What holds of a program and a basis holds of their copies. -/
theorem Copies.transfer {P : ∀ {m n : ℕ}, Program ℚ m n → Basis m n → Prop} (h : Copies p β q γ)
    (hp : P p β) : P q γ := by
  obtain ⟨rfl, rfl, hbasis, hentry, hrhs, hcost, hbarred, hsigns⟩ := h
  obtain rfl : γ = β := by
    apply Vector.toList_inj.mp
    rw [hbasis]
    exact List.map_id _
  rwa [ext_get hentry hrhs hcost hbarred hsigns]

end IncrementalLP.Program
