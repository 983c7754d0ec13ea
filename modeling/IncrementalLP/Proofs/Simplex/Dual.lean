import IncrementalLP.Proofs.Simplex.Phases
import IncrementalLP.Proofs.Simplex.Signs
/-!
# The dual method

From a regular basis that is priced, every pivot keeps the basis regular and priced, and the value
of the right-hand side at the prices does not grow. Where the method stops by itself the basis is
viable, or a row of the tableau shows that there is no feasible point.
-/
namespace IncrementalLP.Program

open Matrix

variable {m n : ℕ}

/-- The program with the barred columns negated that are basic at positive values. -/
def turned (p : Program ℚ m n) (o : SolveOptions ℚ) (β : Basis m n) : Program ℚ m n :=
  p.flipBasic o.tolerance β (p.basicValues β)

/-- The columns by which the basis fails to be priced. -/
def unpriced (p : Program ℚ m n) (o : SolveOptions ℚ) (β : Basis m n) : List (Fin n) :=
  p.enterable β fun j =>
    decide (o.tolerance < (p.reducedCosts o.tolerance β (p.prices β)).get j)

/-- The position that leaves at a basis. -/
def dualLeavingAt? (p : Program ℚ m n) (o : SolveOptions ℚ) (β : Basis m n) : Option (Fin m) :=
  dualLeaving? o β (p.basicValues β)
    ((List.finRange m).filter fun k => decide ((p.basicValues β).get k < -o.tolerance))

/-- The row of the tableau as the method reads it. -/
def pivotRow (p : Program ℚ m n) (o : SolveOptions ℚ) (β : Basis m n) (k : Fin m) :
    Vector ℚ n :=
  .ofFn fun j => Scalar.snap o.tolerance
    (Dense.dot (Dense.solve (p.basic β) (Dense.unit k)) (p.columns.get j))

/-- The ratio and the column that enters when a position leaves. -/
def dualEnteringAt? (p : Program ℚ m n) (o : SolveOptions ℚ) (β : Basis m n) (k : Fin m) :
    Option (ℚ × Fin n) :=
  dualEntering? o (p.reducedCosts o.tolerance β (p.prices β)) (p.pivotRow o β k)
    (p.enterable β fun j => decide ((p.pivotRow o β k).get j < -o.tolerance))

/-- A state of the dual method: the program as it has become, and a basis. -/
abbrev DualState (m n : ℕ) := Program ℚ m n × Basis m n

def DualStep (o : SolveOptions ℚ) (s t : DualState m n) : Prop :=
  t.1 = s.1.turned o s.2 ∧ ∃ k e, t.1.dualLeavingAt? o s.2 = some k ∧
    t.1.dualEnteringAt? o s.2 k = some e ∧ t.2 = s.2.set k e.2 k.isLt

/-- The turned program and the basis at which the method ends, with the way in which it ends. -/
inductive DualStop (q : Program ℚ m n) (o : SolveOptions ℚ) (β : Basis m n) : DualEnd → Prop
  | optimal : q.dualLeavingAt? o β = none → DualStop q o β .optimal
  | infeasible {k : Fin m} : q.dualLeavingAt? o β = some k → q.dualEnteringAt? o β k = none →
      DualStop q o β .infeasible
  | notDualFeasible : q.unpriced o β ≠ [] → DualStop q o β .notDualFeasible
  | iterationLimit : DualStop q o β .iterationLimit
  | timeLimit {pivots : ℕ} : o.expired pivots = true → DualStop q o β .timeLimit

theorem dualFrom_of_dualLeaving {p : Program ℚ m n} {o : SolveOptions ℚ} {count : ℕ}
    {β : Basis m n} (hprice : ¬ (count = 0 ∧ (p.turned o β).unpriced o β ≠ []))
    (hk : (p.turned o β).dualLeavingAt? o β = none) (budget : ℕ) :
    p.dualFrom o budget count β = ⟨⟨β, count, .optimal, []⟩, p.turned o β⟩ := by
  rw [← List.isEmpty_eq_false_iff, ← Bool.not_eq_true', ← decide_eq_true_eq (p := count = 0),
    ← Bool.and_eq_true, Bool.not_eq_true] at hprice
  unfold unpriced turned at hprice
  unfold dualLeavingAt? turned at hk
  unfold dualFrom
  simp only [hprice, hk, Bool.false_eq_true, if_false]
  rfl

private theorem dualFrom_cases (p : Program ℚ m n) (o : SolveOptions ℚ) (budget count : ℕ)
    (β : Basis m n) :
    (∃ ending, p.dualFrom o budget count β = ⟨⟨β, count, ending, []⟩, p.turned o β⟩ ∧
      DualStop (p.turned o β) o β ending ∧ (ending = .iterationLimit → budget = 0) ∧
      (ending = .notDualFeasible ↔ count = 0 ∧ (p.turned o β).unpriced o β ≠ [])) ∨
    ∃ left t event, budget = left + 1 ∧ ¬ (count = 0 ∧ (p.turned o β).unpriced o β ≠ []) ∧
      DualStep o (p, β) t ∧
      p.dualFrom o budget count β =
        { t.1.dualFrom o left (count + 1) t.2 with
          journal := event :: (t.1.dualFrom o left (count + 1) t.2).journal } := by
  by_cases hprice : count = 0 ∧ (p.turned o β).unpriced o β ≠ []
  · have h := hprice
    rw [← List.isEmpty_eq_false_iff] at h
    unfold unpriced turned at h
    refine Or.inl ⟨.notDualFeasible, ?_, .notDualFeasible hprice.2, nofun, fun _ => hprice,
      fun _ => rfl⟩
    unfold dualFrom
    simp only [h.1, h.2, decide_true, Bool.not_false, Bool.and_self, if_true]
    rfl
  · have h : (decide (count = 0) && !((p.turned o β).unpriced o β).isEmpty) = false := by
      rw [← Bool.not_eq_true, Bool.and_eq_true, decide_eq_true_eq, Bool.not_eq_true',
        List.isEmpty_eq_false_iff]
      exact hprice
    unfold unpriced turned at h
    cases hk : (p.turned o β).dualLeavingAt? o β with
    | none =>
        exact Or.inl ⟨.optimal, dualFrom_of_dualLeaving hprice hk budget, .optimal hk, nofun, nofun,
          fun h => absurd h hprice⟩
    | some k =>
        have hk' := hk
        unfold dualLeavingAt? turned at hk'
        cases budget with
        | zero =>
            refine Or.inl ⟨.iterationLimit, ?_, .iterationLimit, fun _ => rfl, nofun,
              fun h => absurd h hprice⟩
            unfold dualFrom
            simp only [h, hk', Bool.false_eq_true, if_false]
            rfl
        | succ left =>
            by_cases hexpired : o.expired count = true
            · refine Or.inl ⟨.timeLimit, ?_, .timeLimit hexpired, nofun, nofun,
                fun h => absurd h hprice⟩
              rw [dualFrom]
              simp only [h, hk', hexpired, Bool.false_eq_true, if_false, if_true]
              rfl
            · cases he : (p.turned o β).dualEnteringAt? o β k with
              | none =>
                  have he' := he
                  unfold dualEnteringAt? pivotRow turned at he'
                  refine Or.inl ⟨.infeasible, ?_, .infeasible hk he, nofun, nofun,
                    fun h => absurd h hprice⟩
                  rw [dualFrom]
                  simp only [h, hk', he', hexpired, Bool.false_eq_true, if_false]
                  rfl
              | some e =>
                  have he' := he
                  unfold dualEnteringAt? pivotRow turned at he'
                  refine Or.inr ⟨left, (p.turned o β, β.set k e.2 k.isLt), .dualPivot count
                    (β.get k) (((p.turned o β).basicValues β).get k) e.2 e.1, rfl, hprice,
                    ⟨rfl, k, e, hk, he, rfl⟩, ?_⟩
                  rw [dualFrom]
                  simp only [h, hk', he', hexpired, Bool.false_eq_true, if_false]
                  rfl

private theorem dualFrom_trail (p : Program ℚ m n) (o : SolveOptions ℚ) (budget count : ℕ)
    (β : Basis m n) :
    ∃ t q, Trail (DualStep o) t (p, β) (q, (p.dualFrom o budget count β).basis) ∧
      (p.dualFrom o budget count β).program = q.turned o (p.dualFrom o budget count β).basis ∧
      (p.dualFrom o budget count β).iterations = count + t ∧ t ≤ budget ∧
      DualStop (p.dualFrom o budget count β).program o (p.dualFrom o budget count β).basis
        (p.dualFrom o budget count β).ending ∧
      ((p.dualFrom o budget count β).ending = .iterationLimit → t = budget) ∧
      ((p.dualFrom o budget count β).ending = .notDualFeasible ↔
        count = 0 ∧ (p.turned o β).unpriced o β ≠ []) := by
  induction budget generalizing count p β with
  | zero =>
      rcases p.dualFrom_cases o 0 count β with
        ⟨ending, heq, hstop, hlimit, hrefused⟩ | ⟨_, _, _, h, _⟩
      · rw [heq]
        exact ⟨0, p, .refl _, rfl, rfl, le_rfl, hstop, fun _ => rfl, hrefused⟩
      · cases h
  | succ budget ih =>
      rcases p.dualFrom_cases o (budget + 1) count β with
        ⟨ending, heq, hstop, hlimit, hrefused⟩ | ⟨left, s, event, h, hprice, hstep, heq⟩
      · rw [heq]
        exact ⟨0, p, .refl _, rfl, rfl, Nat.zero_le _, hstop, fun h => (hlimit h).symm, hrefused⟩
      · cases h
        rw [heq]
        obtain ⟨t, q, htrail, hprogram, hiter, hle, hstop, hlimit, hrefused⟩ :=
          ih s.1 (count + 1) s.2
        refine ⟨t + 1, q, .head hstep htrail, hprogram, ?_, by omega, hstop, ?_, ?_,
          fun h => absurd h hprice⟩
        · simp only [hiter]
          omega
        · intro hending
          rw [hlimit hending]
        · intro hending
          exact absurd (hrefused.mp hending).1 (Nat.succ_ne_zero count)

theorem exists_dual_trail (p : Program ℚ m n) (o : SolveOptions ℚ) (limit : ℤ) (β : Basis m n) :
    ∃ q, Trail (DualStep o) (p.dual o limit β).iterations (p, β)
        (q, (p.dual o limit β).basis) ∧
      (p.dual o limit β).program = q.turned o (p.dual o limit β).basis ∧
      DualStop (p.dual o limit β).program o (p.dual o limit β).basis
        (p.dual o limit β).ending := by
  unfold dual
  obtain ⟨t, q, htrail, hprogram, hiterations, -, hstop, -⟩ :=
    dualFrom_trail p o limit.toNat 0 β
  rw [zero_add] at hiterations
  subst hiterations
  exact ⟨q, htrail, hprogram, hstop⟩

variable {p q : Program ℚ m n} {o : SolveOptions ℚ} {β : Basis m n} {s t : DualState m n}

theorem exists_signChange_turned (hβ : p.Regular β) :
    ∃ ε, SignChange p (p.turned o β) ε :=
  (signChange_flipBasic hβ.injective _).imp fun _ h => h.1

private theorem basicValues_turned_nonpos (htol : o.tolerance = 0) (hβ : p.Regular β) (k : Fin m)
    (hk : p.barred.get (β.get k) = true) : ((p.turned o β).basicValues β).get k ≤ 0 := by
  obtain ⟨ε, hε, hsign⟩ :=
    signChange_flipBasic (t := o.tolerance) hβ.injective (p.basicValues β) (p := p)
  rw [turned, hε.basicValues hβ, hsign k hk, htol]
  split
  · next hpos => linarith
  · next hpos => linarith

/-- What the method keeps: a regular and priced basis. -/
structure Dominant (p : Program ℚ m n) (β : Basis m n) : Prop where
  regular : p.Regular β
  costless : p.Costless
  priced : p.Priced (p.prices β).get

theorem Dominant.signChange {ε : Fin n → ℚ} (h : p.Dominant β) (hε : SignChange p q ε) :
    q.Dominant β where
  regular := hε.regular h.regular
  costless := hε.costless h.costless
  priced := by
    rw [hε.prices h.costless h.regular]
    exact hε.priced h.priced

theorem Dominant.turned (h : p.Dominant β) (o : SolveOptions ℚ) : (p.turned o β).Dominant β := by
  obtain ⟨ε, hε⟩ := exists_signChange_turned (o := o) h.regular
  exact h.signChange hε

/-- An exchange that keeps the prices dominant: column `j` enters at the ratio `ρ`, and the column
at position `k` leaves. -/
structure DualPivot (q : Program ℚ m n) (β : Basis m n) (j : Fin n) (k : Fin m) (ρ : ℚ) :
    Prop where
  fresh : j ∉ β
  unbarred : q.barred.get j = false
  negative : (q.basicValues β).get k < 0
  pivot_neg : q.tableauRow β k j < 0
  ratio : q.surplus (q.prices β).get j = ρ * q.tableauRow β k j
  fits : ∀ i, i ∉ β → q.barred.get i = false → q.tableauRow β k i < 0 →
    q.surplus (q.prices β).get i ≤ ρ * q.tableauRow β k i

/-- The exchange under the rule of the first column. -/
structure FirstDualPivot (q : Program ℚ m n) (β : Basis m n) (j : Fin n) (k : Fin m) (ρ : ℚ) :
    Prop extends DualPivot q β j k ρ where
  first : ∀ l, (q.basicValues β).get l < 0 → β.get k ≤ β.get l
  least : ∀ i, i ∉ β → q.barred.get i = false → q.tableauRow β k i < 0 →
    q.surplus (q.prices β).get i = ρ * q.tableauRow β k i → j ≤ i

private theorem get_pivotRow (htol : o.tolerance = 0) (q : Program ℚ m n) (β : Basis m n)
    (k : Fin m) (j : Fin n) : (q.pivotRow o β k).get j = q.tableauRow β k j := by
  rw [pivotRow, Vector.get_ofFn, htol, Scalar.snap_zero, Dense.dot_eq]
  rfl

theorem dualLeavingAt_spec (htol : o.tolerance = 0) {k : Fin m}
    (h : q.dualLeavingAt? o β = some k) : (q.basicValues β).get k < 0 := by
  have hmem := dualLeaving?_mem h
  rw [htol, neg_zero, List.mem_filter, decide_eq_true_eq] at hmem
  exact hmem.2

private theorem mem_dualEnterable (htol : o.tolerance = 0) {k : Fin m} {j : Fin n} :
    (j ∈ q.enterable β fun j => decide ((q.pivotRow o β k).get j < -o.tolerance)) ↔
      j ∉ β ∧ q.barred.get j = false ∧ q.tableauRow β k j < 0 := by
  rw [mem_enterable, decide_eq_true_eq, get_pivotRow htol, htol, neg_zero]

/-- What the method does at a regular basis is a pivot. -/
theorem exists_dualPivot (htol : o.tolerance = 0) (hβ : q.Regular β) {k : Fin m} {e : ℚ × Fin n}
    (hk : q.dualLeavingAt? o β = some k) (he : q.dualEnteringAt? o β k = some e) :
    q.DualPivot β e.2 k e.1 ∧ (o.rule = .bland → q.FirstDualPivot β e.2 k e.1) := by
  obtain ⟨hmem, hratio⟩ := dualEntering?_mem he
  obtain ⟨hfresh, hunbarred, hneg⟩ := (mem_dualEnterable htol).mp hmem
  have hentry : ∀ j, (q.reducedCosts o.tolerance β (q.prices β)).get j /
      (q.pivotRow o β k).get j = q.surplus (q.prices β).get j / q.tableauRow β k j := by
    intro j
    rw [get_pivotRow htol, htol, get_reducedCosts hβ]
  have hpivot : q.DualPivot β e.2 k e.1 :=
    { fresh := hfresh
      unbarred := hunbarred
      negative := dualLeavingAt_spec htol hk
      pivot_neg := hneg
      ratio := by
        rw [hratio, hentry, div_mul_cancel₀ _ hneg.ne]
      fits := by
        intro i hi hbarred hrow
        have hle := dualEntering?_le he i ((mem_dualEnterable htol).mpr ⟨hi, hbarred, hrow⟩)
        rwa [hentry, le_div_iff_of_neg hrow] at hle }
  refine ⟨hpivot, fun hrule => { toDualPivot := hpivot, first := ?_, least := ?_ }⟩
  · intro l hl
    apply dualLeaving?_column_le hrule hk
    rw [htol, neg_zero, List.mem_filter, decide_eq_true_eq]
    exact ⟨List.mem_finRange l, hl⟩
  · intro i hi hbarred hrow heq
    apply dualEntering?_column_le hrule he i ((mem_dualEnterable htol).mpr ⟨hi, hbarred, hrow⟩)
    rw [hentry, heq, mul_div_cancel_right₀ _ hrow.ne]

variable {j : Fin n} {k : Fin m} {ρ : ℚ}

theorem DualPivot.nonneg (h : q.DualPivot β j k ρ) (hβ : q.Dominant β) : 0 ≤ ρ := by
  have hprice := hβ.priced j h.unbarred
  rw [h.ratio] at hprice
  by_contra hneg
  exact absurd hprice (not_le.mpr (mul_pos_of_neg_of_neg (not_le.mp hneg) h.pivot_neg))

theorem FirstDualPivot.entering_le (h : q.FirstDualPivot β j k ρ) (hβ : q.Dominant β) {i : Fin n}
    (hi : i ∉ β) (hbarred : q.barred.get i = false) (hzero : q.surplus (q.prices β).get i = 0)
    (hneg : q.tableauRow β k i < 0) : j ≤ i := by
  have hratio : ρ * q.tableauRow β k i = 0 := by
    apply le_antisymm
    · exact mul_nonpos_of_nonneg_of_nonpos (h.nonneg hβ) hneg.le
    · rw [← hzero]
      exact h.fits i hi hbarred hneg
  exact h.least i hi hbarred hneg (hzero.trans hratio.symm)

private theorem DualPivot.regular (h : q.DualPivot β j k ρ) (hβ : q.Regular β) :
    q.Regular (β.set k j k.isLt) := by
  apply hβ.set
  rw [← tableauRow_eq_inBasis hβ]
  exact h.pivot_neg.ne

private theorem surplus_add_smul (q : Program ℚ m n) (y w : Fin m → ℚ) (ρ : ℚ) (i : Fin n) :
    q.surplus (y + ρ • w) i = q.surplus y i - ρ * (w ⬝ᵥ (q.columns.get i).get) := by
  rw [surplus_apply, surplus_apply, add_dotProduct, smul_dotProduct, smul_eq_mul]
  ring

/-- The prices move along the multipliers of the row. -/
theorem DualPivot.prices_set (h : q.DualPivot β j k ρ) (hβ : q.Regular β) :
    (q.prices (β.set k j k.isLt)).get = (q.prices β).get + ρ • q.multipliers β k := by
  symm
  apply (h.regular hβ).eq_prices
  intro l
  rw [surplus_add_smul, ← tableauRow_apply, Basis.get_set]
  split
  · rw [h.ratio, sub_self]
  · next hl => rw [surplus_prices_get hβ, tableauRow_get hβ, if_neg hl, mul_zero, sub_zero]

private theorem DualPivot.surplus_set (h : q.DualPivot β j k ρ) (hβ : q.Regular β) (i : Fin n) :
    q.surplus (q.prices (β.set k j k.isLt)).get i =
      q.surplus (q.prices β).get i - ρ * q.tableauRow β k i := by
  rw [h.prices_set hβ, surplus_add_smul, ← tableauRow_apply]

private theorem DualPivot.dominant (h : q.DualPivot β j k ρ) (hβ : q.Dominant β) :
    q.Dominant (β.set k j k.isLt) where
  regular := h.regular hβ.regular
  costless := hβ.costless
  priced := by
    intro i hi
    rw [h.surplus_set hβ.regular]
    have hρ := h.nonneg hβ
    have hprice := hβ.priced i hi
    rcases lt_or_ge (q.tableauRow β k i) 0 with hrow | hrow
    · have hfresh : i ∉ β := by
        intro hmem
        obtain ⟨l, rfl⟩ := Basis.mem_iff.mp hmem
        rw [tableauRow_get hβ.regular] at hrow
        split at hrow
        · linarith
        · exact lt_irrefl 0 hrow
      exact sub_nonpos.mpr (h.fits i hfresh hi hrow)
    · have := mul_nonneg hρ hrow
      linarith

theorem DualPivot.rhs_set (h : q.DualPivot β j k ρ) (hβ : q.Regular β) :
    (q.prices (β.set k j k.isLt)).get ⬝ᵥ q.rhs.get =
      (q.prices β).get ⬝ᵥ q.rhs.get + ρ * (q.basicValues β).get k := by
  rw [h.prices_set hβ, add_dotProduct, smul_dotProduct, smul_eq_mul, multipliers_dot_rhs hβ]

theorem DualStep.dominant (htol : o.tolerance = 0) (h : DualStep o s t)
    (hs : s.1.Dominant s.2) : t.1.Dominant t.2 := by
  obtain ⟨hturned, k, e, hk, he, hset⟩ := h
  have hβ : t.1.Dominant s.2 := by
    rw [hturned]
    exact hs.turned o
  rw [hset]
  exact (exists_dualPivot htol hβ.regular hk he).1.dominant hβ

theorem DualStep.signChange (h : DualStep o s t) (hs : s.1.Regular s.2) {ε : Fin n → ℚ}
    (hε : SignChange p s.1 ε) : ∃ δ, SignChange p t.1 δ := by
  obtain ⟨δ, hδ⟩ := exists_signChange_turned (o := o) hs
  rw [h.1]
  exact ⟨_, hε.trans hδ⟩

theorem viable_of_dualLeaving (htol : o.tolerance = 0) (hβ : p.Regular β)
    (h : (p.turned o β).dualLeavingAt? o β = none) : (p.turned o β).Viable β := by
  obtain ⟨ε, hε⟩ := exists_signChange_turned (o := o) hβ
  have hnonneg : ∀ k, 0 ≤ ((p.turned o β).basicValues β).get k := by
    intro k
    by_contra hneg
    have hmem : k ∈ (List.finRange m).filter fun k =>
        decide (((p.turned o β).basicValues β).get k < -o.tolerance) := by
      rw [htol, neg_zero, List.mem_filter, decide_eq_true_eq]
      exact ⟨List.mem_finRange k, not_le.mp hneg⟩
    rw [dualLeaving?_eq_none h] at hmem
    cases hmem
  refine ⟨hε.regular hβ, hnonneg, ?_⟩
  intro k hk
  rw [hε.barred] at hk
  exact le_antisymm (basicValues_turned_nonpos htol hβ k hk) (hnonneg k)

/-- A row with a negative value and no negative entry leaves no feasible point. -/
theorem not_feasible_of_dualEntering (htol : o.tolerance = 0) (hβ : q.Regular β)
    (hk : q.dualLeavingAt? o β = some k) (h : q.dualEnteringAt? o β k = none) (x : Fin n → ℚ) :
    ¬ q.Feasible x := by
  intro hx
  have hvalue := dualLeavingAt_spec htol hk
  have hrow := tableauRow_dot q β k x
  rw [hx.equations, multipliers_dot_rhs hβ] at hrow
  have hnonneg : 0 ≤ q.tableauRow β k ⬝ᵥ x := by
    apply Finset.sum_nonneg
    intro i _
    cases hi : q.barred.get i with
    | true => rw [hx.barred i hi, mul_zero]
    | false =>
        apply mul_nonneg _ (hx.nonneg i)
        by_cases hmem : i ∈ β
        · obtain ⟨l, rfl⟩ := Basis.mem_iff.mp hmem
          rw [tableauRow_get hβ]
          split
          · exact zero_le_one
          · exact le_rfl
        · by_contra hneg
          have henter := (mem_dualEnterable (q := q) (β := β) (k := k) htol).mpr
            ⟨hmem, hi, not_le.mp hneg⟩
          rw [dualEntering?_eq_none h] at henter
          cases henter
  linarith

theorem unpriced_eq_nil_iff (htol : o.tolerance = 0) (hβ : p.Regular β) :
    p.unpriced o β = [] ↔ p.Priced (p.prices β).get := by
  rw [List.eq_nil_iff_forall_not_mem]
  have hmem : ∀ j, j ∈ p.unpriced o β ↔
      j ∉ β ∧ p.barred.get j = false ∧ 0 < p.surplus (p.prices β).get j := by
    intro j
    rw [unpriced, mem_enterable, htol, decide_eq_true_eq, get_reducedCosts hβ]
  constructor
  · intro h j hj
    by_cases hmem' : j ∈ β
    · exact (surplus_prices_of_mem hβ hmem').le
    · exact not_lt.mp fun hpos => h j ((hmem j).mpr ⟨hmem', hj, hpos⟩)
  · intro h j hj
    obtain ⟨-, hbarred, hpos⟩ := (hmem j).mp hj
    exact absurd hpos (not_lt.mpr (h j hbarred))

private theorem unpriced_turned_iff (htol : o.tolerance = 0) (hβ : p.Regular β)
    (hcost : p.Costless) :
    (p.turned o β).unpriced o β = [] ↔ p.Priced (p.prices β).get := by
  obtain ⟨ε, hε⟩ := exists_signChange_turned (o := o) hβ
  rw [unpriced_eq_nil_iff htol (hε.regular hβ), hε.prices hcost hβ]
  exact ⟨hε.symm.priced, hε.priced⟩

/-- What a repair comes to after a run of the dual method, if it is not refused. -/
inductive Repaired {α : Type} [Scalar α] (o : SolveOptions α) (run : DualRun α m n) :
    Outcome α m n → Prop
  | infeasible : run.ending = .infeasible → Repaired o run
      ⟨⟨run.basis, run.iterations, .dualUnbounded, run.journal⟩, run.program.signs⟩
  | iterationLimit : run.ending = .iterationLimit → Repaired o run
      ⟨⟨run.basis, run.iterations, .iterationLimit, run.journal⟩, run.program.signs⟩
  | timeLimit : run.ending = .timeLimit → Repaired o run
      ⟨⟨run.basis, run.iterations, .timeLimit, run.journal⟩, run.program.signs⟩
  | optimal : run.ending = .optimal → Repaired o run
      (run.program.phaseTwo o run.iterations run.journal run.basis)

theorem repaired_of_repair {α : Type} [Scalar α] {p : Program α m n} {o : SolveOptions α}
    {out : Outcome α m n} (h : p.repair? o β = some out) :
    Repaired o (p.dual o o.maxIterations β) out := by
  unfold repair? at h
  cases hend : (p.dual o o.maxIterations β).ending with
  | notDualFeasible =>
      simp only [hend] at h
      cases h
  | infeasible =>
      simp only [hend, Option.some.injEq] at h
      exact h ▸ .infeasible hend
  | iterationLimit =>
      simp only [hend, Option.some.injEq] at h
      exact h ▸ .iterationLimit hend
  | timeLimit =>
      simp only [hend, Option.some.injEq] at h
      exact h ▸ .timeLimit hend
  | optimal =>
      simp only [hend, Option.some.injEq] at h
      exact h ▸ .optimal hend

/-- A run from a dominant basis: how it moves, and why it ends. -/
theorem dual_trail (htol : o.tolerance = 0) (hβ : p.Dominant β) (limit : ℤ) :
    ∃ t q ε, Trail (DualStep o) t (p, β) (q, (p.dual o limit β).basis) ∧ t ≤ limit.toNat ∧
      q.Dominant (p.dual o limit β).basis ∧
      (p.dual o limit β).program = q.turned o (p.dual o limit β).basis ∧
      SignChange p (p.dual o limit β).program ε ∧
      DualStop (p.dual o limit β).program o (p.dual o limit β).basis (p.dual o limit β).ending ∧
      ((p.dual o limit β).ending = .iterationLimit → t = limit.toNat) ∧
      (p.dual o limit β).ending ≠ .notDualFeasible := by
  unfold dual
  obtain ⟨t, q, htrail, hprogram, -, hle, hstop, hlimit, hrefused⟩ :=
    dualFrom_trail p o limit.toNat 0 β
  have hkeeps := htrail.preserves
    (P := fun s => s.1.Dominant s.2 ∧ ∃ δ, SignChange p s.1 δ)
    (fun _ _ hs h => ⟨h.dominant htol hs.1, hs.2.elim fun _ hδ => h.signChange hs.1.regular hδ⟩)
    ⟨hβ, 1, .refl p⟩
  obtain ⟨hdominant, δ, hδ⟩ := hkeeps
  obtain ⟨ε, hε⟩ := exists_signChange_turned (o := o) hdominant.regular
  refine ⟨t, q, ε * δ, htrail, hle, hdominant, hprogram, ?_, hstop, hlimit, ?_⟩
  · rw [hprogram]
    exact hδ.trans hε
  · intro hending
    exact (hrefused.mp hending).2 ((unpriced_turned_iff htol hβ.regular hβ.costless).mpr hβ.priced)

theorem repair_isSome (htol : o.tolerance = 0) (hβ : p.Dominant β) :
    (p.repair? o β).isSome = true := by
  obtain ⟨t, q, ε, -, -, -, -, -, -, -, hrefused⟩ := dual_trail htol hβ o.maxIterations
  unfold repair?
  cases hend : (p.dual o o.maxIterations β).ending with
  | notDualFeasible => exact absurd hend hrefused
  | optimal | infeasible | iterationLimit | timeLimit =>
      simp only [hend]
      rfl

theorem dominant_of_dual (htol : o.tolerance = 0) (hβ : p.Regular β) (hcost : p.Costless)
    {limit : ℤ} (h : (p.dual o limit β).ending ≠ .notDualFeasible) : p.Dominant β := by
  refine ⟨hβ, hcost, ?_⟩
  rw [← unpriced_turned_iff htol hβ hcost]
  by_contra hne
  obtain ⟨t, q, -, -, -, -, -, -, hrefused⟩ := dualFrom_trail p o limit.toNat 0 β
  exact h (hrefused.mpr ⟨rfl, hne⟩)

theorem dominant_of_repair (htol : o.tolerance = 0) (hβ : p.Regular β) (hcost : p.Costless)
    {out : Outcome ℚ m n} (h : p.repair? o β = some out) : p.Dominant β := by
  have hpasses : (p.dual o o.maxIterations β).ending ≠ .notDualFeasible := by
    intro hending
    cases repaired_of_repair h with
    | infeasible hend | iterationLimit hend | timeLimit hend | optimal hend =>
        rw [hending] at hend
        cases hend
  exact dominant_of_dual htol hβ hcost hpasses

theorem exists_optimal_of_dual (htol : o.tolerance = 0) (hβ : p.Dominant β) {limit : ℤ}
    (h : (p.dual o limit β).ending = .optimal) :
    ∃ point, (p.dual o limit β).program.Optimal (p.dual o limit β).basis point := by
  obtain ⟨q, htrail, hprogram, hstop⟩ := p.exists_dual_trail o limit β
  have hdominant : q.Dominant (p.dual o limit β).basis :=
    htrail.preserves (P := fun s => s.1.Dominant s.2) (fun _ _ hs h => h.dominant htol hs) hβ
  rw [h] at hstop
  cases hstop with
  | optimal hnone =>
      rw [hprogram] at hnone ⊢
      have hviable := viable_of_dualLeaving htol hdominant.regular hnone
      exact ⟨_, hviable.optimal_pointAt (hdominant.turned o).priced⟩

/-- The verdict of the repair is right for the program with the signs that it has at the end. -/
theorem repair_settled (htol : o.tolerance = 0) (hβ : p.Dominant β) {out : Outcome ℚ m n}
    (h : p.repair? o β = some out) :
    ∃ q ε, SignChange p q ε ∧ q.Settled out.basis out.ending ∧ out.signs = q.signs := by
  obtain ⟨t, q, ε, -, -, hdominant, hprogram, hε, hstop, -⟩ := dual_trail htol hβ o.maxIterations
  refine ⟨(p.dual o o.maxIterations β).program, ε, hε, ?_⟩
  cases repaired_of_repair h with
  | infeasible hend =>
      rw [hend] at hstop
      cases hstop with
      | infeasible hk he =>
          have hregular := (hdominant.turned o).regular
          rw [← hprogram] at hregular
          exact ⟨.dualUnbounded (not_feasible_of_dualEntering htol hregular hk he), rfl⟩
  | iterationLimit _ => exact ⟨.iterationLimit, rfl⟩
  | timeLimit _ => exact ⟨.timeLimit, rfl⟩
  | optimal hend =>
      rw [hend] at hstop
      cases hstop with
      | optimal hnone =>
          rw [hprogram] at hnone
          have hviable := viable_of_dualLeaving htol hdominant.regular hnone
          rw [← hprogram] at hviable
          exact ⟨phaseTwo_settled htol hviable _ _, rfl⟩

end IncrementalLP.Program
