import IncrementalLP.Proofs.Simplex.Certificate
import IncrementalLP.Proofs.Simplex.Selection
import IncrementalLP.Proofs.Simplex.Trail
/-!
# The primal method

Every pivot keeps the basis regular, and with a tolerance of zero it keeps the point feasible and
improves the objective by the step times the reduced cost. Where the method stops by itself it has
found an optimal basis or a direction without end.
-/
namespace IncrementalLP.Program

open Matrix

variable {m n : ℕ}

/-- A regular basis with a feasible point. -/
structure Viable (p : Program ℚ m n) (β : Basis m n) : Prop where
  regular : p.Regular β
  nonneg : ∀ k, 0 ≤ (p.basicValues β).get k
  barred : ∀ k, p.barred.get (β.get k) = true → (p.basicValues β).get k = 0

/-- The column that enters at a basis. -/
def primalEntering? (p : Program ℚ m n) (o : SolveOptions ℚ) (β : Basis m n) : Option (Fin n) :=
  let reduced := p.reducedCosts o.tolerance β (p.prices β)
  entering? o reduced (p.enterable β fun j => decide (o.tolerance < reduced.get j))

/-- The step and the position that leaves when a column enters. -/
def primalLeaving? (p : Program ℚ m n) (o : SolveOptions ℚ) (β : Basis m n) (j : Fin n) :
    Option (ℚ × Fin m) :=
  leaving? o β (p.steps o.tolerance β (p.cleanValues o.tolerance β)
    (Dense.snap o.tolerance (p.inBasis β (p.columns.get j))))

def PrimalStep (p : Program ℚ m n) (o : SolveOptions ℚ) (β γ : Basis m n) : Prop :=
  ∃ j e, p.primalEntering? o β = some j ∧ p.primalLeaving? o β j = some e ∧
    γ = β.set e.2 j e.2.isLt

/-- The basis at which the method ends, with the way in which it ends. -/
inductive PrimalStop (p : Program ℚ m n) (o : SolveOptions ℚ) (β : Basis m n) :
    PrimalEnd ℚ m n → Prop
  | optimal : p.primalEntering? o β = none →
      PrimalStop p o β (.optimal (p.pointAt β (p.cleanValues o.tolerance β) (p.prices β)))
  | unbounded {j : Fin n} : p.primalEntering? o β = some j → p.primalLeaving? o β j = none →
      PrimalStop p o β .unbounded
  | iterationLimit : PrimalStop p o β .iterationLimit
  | timeLimit {pivots : ℕ} : o.expired pivots = true → PrimalStop p o β .timeLimit

theorem primalFrom_of_primalEntering {p : Program ℚ m n} {o : SolveOptions ℚ} {β : Basis m n}
    (hj : p.primalEntering? o β = none) (budget count : ℕ) :
    p.primalFrom o budget count β =
      ⟨β, count, .optimal (p.pointAt β (p.cleanValues o.tolerance β) (p.prices β)), []⟩ := by
  unfold primalEntering? at hj
  unfold primalFrom
  simp only [hj]

private theorem primalFrom_cases (p : Program ℚ m n) (o : SolveOptions ℚ) (budget count : ℕ)
    (β : Basis m n) :
    (∃ ending, p.primalFrom o budget count β = ⟨β, count, ending, []⟩ ∧
      p.PrimalStop o β ending ∧ (ending = .iterationLimit → budget = 0)) ∨
    ∃ left γ event, budget = left + 1 ∧ p.PrimalStep o β γ ∧
      p.primalFrom o budget count β =
        { p.primalFrom o left (count + 1) γ with
          journal := event :: (p.primalFrom o left (count + 1) γ).journal } := by
  cases hj : p.primalEntering? o β with
  | none => exact Or.inl ⟨_, primalFrom_of_primalEntering hj budget count, .optimal hj, nofun⟩
  | some j =>
      have h := hj
      unfold primalEntering? at h
      cases budget with
      | zero =>
          refine Or.inl ⟨_, ?_, .iterationLimit, fun _ => rfl⟩
          unfold primalFrom
          simp only [h]
      | succ left =>
          by_cases hexpired : o.expired count = true
          · refine Or.inl ⟨_, ?_, .timeLimit hexpired, nofun⟩
            unfold primalFrom
            simp only [h, hexpired, if_true]
          · cases he : p.primalLeaving? o β j with
            | none =>
                have h' := he
                unfold primalLeaving? at h'
                refine Or.inl ⟨_, ?_, .unbounded hj he, nofun⟩
                unfold primalFrom
                simp only [h, h', hexpired, if_false, Bool.false_eq_true]
            | some e =>
                have h' := he
                unfold primalLeaving? at h'
                refine Or.inr ⟨left, _, .primalPivot count j (β.get e.2) e.1, rfl,
                  ⟨j, e, hj, he, rfl⟩, ?_⟩
                rw [primalFrom]
                simp only [h, h', hexpired, if_false, Bool.false_eq_true]

theorem primalFrom_trail (p : Program ℚ m n) (o : SolveOptions ℚ) (budget count : ℕ)
    (β : Basis m n) :
    ∃ t, Trail (p.PrimalStep o) t β (p.primalFrom o budget count β).basis ∧
      (p.primalFrom o budget count β).iterations = count + t ∧ t ≤ budget ∧
      p.PrimalStop o (p.primalFrom o budget count β).basis
        (p.primalFrom o budget count β).ending ∧
      ((p.primalFrom o budget count β).ending = .iterationLimit → t = budget) := by
  induction budget generalizing count β with
  | zero =>
      rcases p.primalFrom_cases o 0 count β with ⟨ending, heq, hstop, hlimit⟩ | ⟨_, _, _, h, _⟩
      · rw [heq]
        exact ⟨0, .refl _, rfl, le_rfl, hstop, fun _ => rfl⟩
      · cases h
  | succ budget ih =>
      rcases p.primalFrom_cases o (budget + 1) count β with
        ⟨ending, heq, hstop, hlimit⟩ | ⟨left, γ, event, h, hstep, heq⟩
      · rw [heq]
        exact ⟨0, .refl _, rfl, Nat.zero_le _, hstop, fun h => (hlimit h).symm⟩
      · cases h
        rw [heq]
        obtain ⟨t, htrail, hiter, hle, hstop, hlimit⟩ := ih (count + 1) γ
        refine ⟨t + 1, .head hstep htrail, ?_, by omega, hstop, ?_⟩
        · simp only [hiter]
          omega
        · intro hending
          rw [hlimit hending]

theorem primal_trail (p : Program ℚ m n) (o : SolveOptions ℚ) (limit : ℤ) (β : Basis m n) :
    Trail (p.PrimalStep o) (p.primal o limit β).iterations β (p.primal o limit β).basis := by
  unfold primal
  split
  · exact .refl β
  · obtain ⟨t, htrail, hiterations, -⟩ := primalFrom_trail p o (max limit 1).toNat 0 β
    rwa [hiterations, zero_add]

variable {p : Program ℚ m n} {o : SolveOptions ℚ} {β γ : Basis m n}

theorem PrimalStep.regular (htol : 0 ≤ o.tolerance) (hβ : p.Regular β)
    (h : p.PrimalStep o β γ) : p.Regular γ := by
  obtain ⟨j, e, -, he, rfl⟩ := h
  apply hβ.set
  apply Scalar.ne_zero_of_snap_ne_zero
  have hsnap : (Dense.snap o.tolerance (p.inBasis β (p.columns.get j))).get e.2 =
      Scalar.snap o.tolerance ((p.inBasis β (p.columns.get j)).get e.2) := Vector.get_map _ _ _
  rcases mem_steps.mp (leaving?_mem he) with ⟨hpos, -⟩ | ⟨-, hneg, -, -⟩
  · rw [hsnap] at hpos
    exact (htol.trans_lt hpos).ne'
  · rw [hsnap] at hneg
    exact (hneg.trans_le (neg_nonpos.mpr htol)).ne

theorem Viable.cleanValues_eq (hβ : p.Viable β) : p.cleanValues 0 β = p.basicValues β := by
  unfold cleanValues
  simp only [Dense.snap_zero]
  split
  · next h =>
    rw [Vector.any_eq_true] at h
    obtain ⟨k, hk, hneg⟩ := h
    have hnonneg := hβ.nonneg ⟨k, hk⟩
    rw [Vector.get_eq_getElem] at hnonneg
    simp only [neg_zero, decide_eq_true_eq] at hneg
    exact absurd hnonneg (not_le.mpr hneg)
  · rfl

theorem Viable.feasible (hβ : p.Viable β) : p.Feasible (p.point β) where
  equations := matrix_mulVec_point hβ.regular
  nonneg j := by
    by_cases hj : j ∈ β
    · obtain ⟨k, rfl⟩ := Basis.mem_iff.mp hj
      rw [point_get hβ.regular]
      exact hβ.nonneg k
    · rw [carries_point p β j hj]
  barred j hbarred := by
    by_cases hj : j ∈ β
    · obtain ⟨k, rfl⟩ := Basis.mem_iff.mp hj
      rw [point_get hβ.regular]
      exact hβ.barred k hbarred
    · rw [carries_point p β j hj]

theorem Feasible.viable (hβ : p.Regular β) (h : p.Feasible (p.point β)) : p.Viable β where
  regular := hβ
  nonneg k := by
    rw [← point_get hβ]
    exact h.nonneg _
  barred k hk := by
    rw [← point_get hβ]
    exact h.barred _ hk

/-- An exchange that keeps the point feasible: column `j` enters with value `θ`, and the column at
position `k` leaves. -/
structure PrimalPivot (p : Program ℚ m n) (β : Basis m n) (j : Fin n) (k : Fin m) (θ : ℚ) :
    Prop where
  fresh : j ∉ β
  unbarred : p.barred.get j = false
  gain : 0 < p.surplus (p.prices β).get j
  pivot_ne : (p.inBasis β (p.columns.get j)).get k ≠ 0
  pivot_pos : p.barred.get (β.get k) = false → 0 < (p.inBasis β (p.columns.get j)).get k
  step : (p.basicValues β).get k = θ * (p.inBasis β (p.columns.get j)).get k
  nonneg : 0 ≤ θ
  fits : ∀ l, θ * (p.inBasis β (p.columns.get j)).get l ≤ (p.basicValues β).get l
  stays : ∀ l, p.barred.get (β.get l) = true →
    θ * (p.inBasis β (p.columns.get j)).get l = 0

/-- The exchange under the rule of the first column. -/
structure FirstPivot (p : Program ℚ m n) (β : Basis m n) (j : Fin n) (k : Fin m) (θ : ℚ) :
    Prop extends PrimalPivot p β j k θ where
  first : ∀ i, i < j → p.barred.get i = false → p.surplus (p.prices β).get i ≤ 0
  least : ∀ l, 0 < (p.inBasis β (p.columns.get j)).get l →
    (p.basicValues β).get l = θ * (p.inBasis β (p.columns.get j)).get l → β.get k ≤ β.get l

theorem FirstPivot.leaving_le {j : Fin n} {k l : Fin m} {θ : ℚ} (h : p.FirstPivot β j k θ)
    (hzero : (p.basicValues β).get l = 0) (hpos : 0 < (p.inBasis β (p.columns.get j)).get l) :
    β.get k ≤ β.get l := by
  have hstep : θ * (p.inBasis β (p.columns.get j)).get l = 0 := by
    apply le_antisymm
    · rw [← hzero]
      exact h.fits l
    · exact mul_nonneg h.nonneg hpos.le
  exact h.least l hpos (hzero.trans hstep.symm)

theorem primalEntering_spec (htol : o.tolerance = 0) (hβ : p.Regular β) {j : Fin n}
    (hj : p.primalEntering? o β = some j) :
    j ∉ β ∧ p.barred.get j = false ∧ 0 < p.surplus (p.prices β).get j := by
  unfold primalEntering? at hj
  have h := mem_enterable.mp (entering?_mem hj)
  rw [htol, decide_eq_true_eq, get_reducedCosts hβ] at h
  exact h

private theorem primalLeaving_mem (htol : o.tolerance = 0) (hβ : p.Viable β) {j : Fin n}
    {θ : ℚ} {l : Fin m} :
    (θ, l) ∈ p.steps o.tolerance β (p.cleanValues o.tolerance β)
        (Dense.snap o.tolerance (p.inBasis β (p.columns.get j))) ↔
      (0 < (p.inBasis β (p.columns.get j)).get l ∧
        θ = (p.basicValues β).get l / (p.inBasis β (p.columns.get j)).get l) ∨
      ((p.inBasis β (p.columns.get j)).get l < 0 ∧ p.barred.get (β.get l) = true ∧
        θ = 0) := by
  rw [mem_steps, htol, Dense.snap_zero, hβ.cleanValues_eq, neg_zero]
  constructor
  · rintro (h | ⟨-, h⟩)
    · exact Or.inl h
    · exact Or.inr h
  · rintro (h | h)
    · exact Or.inl h
    · exact Or.inr ⟨not_lt.mpr h.1.le, h⟩

private theorem primalPivot_of_leaving (htol : o.tolerance = 0) (hβ : p.Viable β) {j : Fin n}
    {k : Fin m} {θ : ℚ} (hj : p.primalEntering? o β = some j)
    (he : p.primalLeaving? o β j = some (θ, k)) : p.PrimalPivot β j k θ := by
  obtain ⟨hfresh, hunbarred, hgain⟩ := primalEntering_spec htol hβ.regular hj
  have hmem := (primalLeaving_mem htol hβ).mp (leaving?_mem he)
  have hle := leaving?_le he
  have hratio : ∀ l, 0 < (p.inBasis β (p.columns.get j)).get l →
      θ * (p.inBasis β (p.columns.get j)).get l ≤ (p.basicValues β).get l := by
    intro l hl
    have := hle _ ((primalLeaving_mem htol hβ).mpr (Or.inl ⟨hl, rfl⟩))
    rwa [le_div_iff₀ hl] at this
  have hnonneg : 0 ≤ θ := by
    rcases hmem with ⟨hpos, hθ⟩ | ⟨-, -, hθ⟩
    · rw [hθ]
      exact div_nonneg (hβ.nonneg k) hpos.le
    · exact hθ.ge
  refine ⟨hfresh, hunbarred, hgain, ?_, ?_, ?_, hnonneg, ?_, ?_⟩
  · rcases hmem with ⟨hpos, -⟩ | ⟨hneg, -⟩
    · exact hpos.ne'
    · exact hneg.ne
  · intro hk
    rcases hmem with ⟨hpos, -⟩ | ⟨-, hbarred, -⟩
    · exact hpos
    · rw [hk] at hbarred
      cases hbarred
  · rcases hmem with ⟨hpos, hθ⟩ | ⟨-, hbarred, hθ⟩
    · rw [hθ, div_mul_cancel₀ _ hpos.ne']
    · rw [hβ.barred k hbarred, hθ, zero_mul]
  · intro l
    rcases lt_or_ge 0 ((p.inBasis β (p.columns.get j)).get l) with hl | hl
    · exact hratio l hl
    · exact (mul_nonpos_of_nonneg_of_nonpos hnonneg hl).trans (hβ.nonneg l)
  · -- A barred variable is zero: its step is zero on either side, whichever way it would move.
    intro l hl
    rcases lt_trichotomy ((p.inBasis β (p.columns.get j)).get l) 0 with hd | hd | hd
    · have hzero : θ ≤ 0 := hle _ ((primalLeaving_mem htol hβ).mpr (Or.inr ⟨hd, hl, rfl⟩))
      rw [le_antisymm hzero hnonneg, zero_mul]
    · rw [hd, mul_zero]
    · have := hratio l hd
      rw [hβ.barred l hl] at this
      exact le_antisymm this (mul_nonneg hnonneg hd.le)

private theorem PrimalPivot.first (htol : o.tolerance = 0) (hβ : p.Viable β)
    (hrule : o.rule = .bland) {j : Fin n} {k : Fin m} {θ : ℚ} (h : p.PrimalPivot β j k θ)
    (hj : p.primalEntering? o β = some j) (he : p.primalLeaving? o β j = some (θ, k)) :
    p.FirstPivot β j k θ := by
  refine { toPrimalPivot := h, first := ?_, least := ?_ }
  · intro i hij hi
    by_contra hpos
    have hmem : i ∈ p.enterable β fun j => decide (o.tolerance <
        (p.reducedCosts o.tolerance β (p.prices β)).get j) := by
      rw [mem_enterable, htol, decide_eq_true_eq, get_reducedCosts hβ.regular]
      refine ⟨?_, hi, not_le.mp hpos⟩
      intro hmem
      exact hpos (surplus_prices_of_mem hβ.regular hmem).le
    exact absurd (entering?_le hrule hj i hmem) (not_le.mpr hij)
  · intro l hl heq
    refine leaving?_column_le hrule he (θ, l) ((primalLeaving_mem htol hβ).mpr (Or.inl ⟨hl, ?_⟩))
      rfl
    rw [eq_div_iff hl.ne']
    exact heq.symm

theorem PrimalStep.exists_pivot (htol : o.tolerance = 0) (hβ : p.Viable β)
    (h : p.PrimalStep o β γ) :
    ∃ j k θ, p.PrimalPivot β j k θ ∧ γ = β.set k j k.isLt ∧
      (o.rule = .bland → p.FirstPivot β j k θ) := by
  obtain ⟨j, ⟨θ, k⟩, hj, he, rfl⟩ := h
  have hpivot := primalPivot_of_leaving htol hβ hj he
  exact ⟨j, k, θ, hpivot, rfl, fun hrule => hpivot.first htol hβ hrule hj he⟩

variable {j : Fin n} {k : Fin m} {θ : ℚ}

theorem PrimalPivot.point_set (h : p.PrimalPivot β j k θ) (hβ : p.Viable β) :
    p.point (β.set k j k.isLt) = p.point β + θ • p.ray β j := by
  symm
  apply (hβ.regular.set h.pivot_ne).eq_point
  · intro i hi
    rw [Basis.mem_iff] at hi
    have hij : i ≠ j := by
      intro hij
      exact hi ⟨k, by rw [Basis.get_set, if_pos rfl, hij]⟩
    rw [Pi.add_apply, Pi.smul_apply, smul_eq_mul]
    by_cases hmem : i ∈ β
    · obtain ⟨l, rfl⟩ := Basis.mem_iff.mp hmem
      have hlk : l = k := by
        by_contra hne
        exact hi ⟨l, by rw [Basis.get_set, if_neg hne]⟩
      rw [point_get hβ.regular, ray_get hβ.regular h.fresh, hlk, h.step]
      ring
    · rw [carries_point p β i hmem, ray_of_not_mem hmem hij]
      ring
  · rw [mulVec_add, mulVec_smul, matrix_mulVec_ray hβ.regular, smul_zero, add_zero,
      matrix_mulVec_point hβ.regular]

private theorem PrimalPivot.viable (h : p.PrimalPivot β j k θ) (hβ : p.Viable β) :
    p.Viable (β.set k j k.isLt) := by
  apply Feasible.viable (hβ.regular.set h.pivot_ne)
  rw [h.point_set hβ]
  have hfeasible := hβ.feasible
  refine ⟨?_, ?_, ?_⟩
  · rw [mulVec_add, mulVec_smul, matrix_mulVec_ray hβ.regular, smul_zero, add_zero,
      hfeasible.equations]
  · intro i
    rw [Pi.add_apply, Pi.smul_apply, smul_eq_mul]
    by_cases hi : i ∈ β
    · obtain ⟨l, rfl⟩ := Basis.mem_iff.mp hi
      rw [point_get hβ.regular, ray_get hβ.regular h.fresh]
      have := h.fits l
      linarith
    · rw [carries_point p β i hi, zero_add]
      apply mul_nonneg h.nonneg
      by_cases hij : i = j
      · rw [hij, ray_entering h.fresh]
        exact zero_le_one
      · rw [ray_of_not_mem hi hij]
  · intro i hbarred
    rw [Pi.add_apply, Pi.smul_apply, smul_eq_mul, hfeasible.barred i hbarred, zero_add]
    by_cases hi : i ∈ β
    · obtain ⟨l, rfl⟩ := Basis.mem_iff.mp hi
      rw [ray_get hβ.regular h.fresh, mul_neg, h.stays l hbarred, neg_zero]
    · have hij : i ≠ j := by
        intro hij
        rw [hij, h.unbarred] at hbarred
        cases hbarred
      rw [ray_of_not_mem hi hij, mul_zero]

theorem PrimalPivot.objective_set (h : p.PrimalPivot β j k θ) (hβ : p.Viable β) :
    p.objective (p.point (β.set k j k.isLt)) =
      p.objective (p.point β) + θ * p.surplus (p.prices β).get j := by
  have hray := p.objective_eq (p.prices β).get (p.ray β j)
  rw [matrix_mulVec_ray hβ.regular, dotProduct_zero, zero_add,
    surplus_dot_ray hβ.regular h.fresh] at hray
  rw [h.point_set hβ, ← hray, objective, dotProduct_add, dotProduct_smul, smul_eq_mul]
  rfl

theorem PrimalStep.viable (htol : o.tolerance = 0) (hβ : p.Viable β) (h : p.PrimalStep o β γ) :
    p.Viable γ := by
  obtain ⟨j, k, θ, hpivot, rfl, -⟩ := h.exists_pivot htol hβ
  exact hpivot.viable hβ

theorem priced_of_primalEntering (htol : o.tolerance = 0) (hβ : p.Regular β)
    (h : p.primalEntering? o β = none) : p.Priced (p.prices β).get := by
  intro j hj
  by_contra hpos
  have hmem : j ∈ p.enterable β fun j => decide (o.tolerance <
      (p.reducedCosts o.tolerance β (p.prices β)).get j) := by
    rw [mem_enterable, htol, decide_eq_true_eq, get_reducedCosts hβ]
    refine ⟨?_, hj, not_le.mp hpos⟩
    intro hmem
    exact hpos (surplus_prices_of_mem hβ hmem).le
  rw [entering?_eq_none h] at hmem
  cases hmem

theorem improving_of_primalLeaving (htol : o.tolerance = 0) (hβ : p.Viable β)
    (hj : p.primalEntering? o β = some j) (h : p.primalLeaving? o β j = none) :
    p.Improving (p.ray β j) := by
  obtain ⟨hfresh, hunbarred, hgain⟩ := primalEntering_spec htol hβ.regular hj
  have hnone : ∀ e, e ∉ p.steps o.tolerance β (p.cleanValues o.tolerance β)
      (Dense.snap o.tolerance (p.inBasis β (p.columns.get j))) := by
    intro e he
    rw [leaving?_eq_none h] at he
    cases he
  have hnonpos : ∀ l, (p.inBasis β (p.columns.get j)).get l ≤ 0 := by
    intro l
    by_contra hpos
    exact hnone _ ((primalLeaving_mem htol hβ).mpr (Or.inl ⟨not_le.mp hpos, rfl⟩))
  refine ⟨matrix_mulVec_ray hβ.regular j, ?_, ?_, ?_⟩
  · intro i
    by_cases hi : i ∈ β
    · obtain ⟨l, rfl⟩ := Basis.mem_iff.mp hi
      rw [ray_get hβ.regular hfresh]
      exact neg_nonneg.mpr (hnonpos l)
    · by_cases hij : i = j
      · rw [hij, ray_entering hfresh]
        exact zero_le_one
      · rw [ray_of_not_mem hi hij]
  · intro i hbarred
    by_cases hi : i ∈ β
    · obtain ⟨l, rfl⟩ := Basis.mem_iff.mp hi
      rw [ray_get hβ.regular hfresh, neg_eq_zero]
      by_contra hne
      exact hnone (0, l) ((primalLeaving_mem htol hβ).mpr
        (Or.inr ⟨lt_of_le_of_ne (hnonpos l) hne, hbarred, rfl⟩))
    · have hij : i ≠ j := by
        intro hij
        rw [hij, hunbarred] at hbarred
        cases hbarred
      rw [ray_of_not_mem hi hij]
  · have hray := p.objective_eq (p.prices β).get (p.ray β j)
    rw [matrix_mulVec_ray hβ.regular, dotProduct_zero, zero_add,
      surplus_dot_ray hβ.regular hfresh] at hray
    rw [hray]
    exact hgain

end IncrementalLP.Program
