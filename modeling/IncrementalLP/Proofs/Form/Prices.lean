import IncrementalLP.Proofs.Instance.Duality
/-!
# Prices of the rows of a form

The prices at which a basis of a form is optimal stand for prices of the rows of the instance: the
two sides of a range row add theirs up, and the price of a bound row is what the variable is worth
beyond its cost at its upper bound. They certify the point of the basis.
-/
namespace IncrementalLP

/-- The price of a row has the sign that its slack allows, and only a row at its right-hand side
has a price. -/
structure RowPlan.Fair (P : RowPlan ℚ) (price a : ℚ) : Prop where
  sign : ∀ s, P.slack = some s → 0 ≤ s * price
  tight : price ≠ 0 → a = P.rhs

/-- The price of a row of the instance: those of the rows that stem from it, added up. -/
def Row.price (r : Row ℚ) (k : ℕ) (shift : ℚ) (Y : RowLabel → ℚ) : ℚ :=
  ((r.plans k shift).map fun P => Y P.label).sum

private theorem Row.price_limits {r : Row ℚ} (hr : r.Usable) {k : ℕ} {shift a : ℚ}
    {Y : RowLabel → ℚ} (hfair : ∀ P ∈ r.plans k shift, P.Fair (Y P.label) (a - shift)) :
    (0 < r.price k shift Y → r.upper = .finite a) ∧
      (r.price k shift Y < 0 → r.lower = .finite a) := by
  obtain ⟨sense, rhs, name⟩ := r
  unfold price
  cases rhs with
  | posInf | negInf | nan => simp [plans, Extended.finite?]
  | finite b =>
      have hupper : a - shift = b - shift → Extended.finite b = .finite a := by
        intro h
        rw [sub_left_inj.mp h]
      cases sense with
      | atMost =>
          obtain ⟨hsign, htight⟩ := hfair _ List.mem_cons_self
          have hpos := hsign 1 rfl
          simp only [plans, Extended.finite?, List.map_cons, List.map_nil, List.sum_singleton]
          refine ⟨fun h => hupper (htight h.ne'), fun h => ?_⟩
          rw [one_mul] at hpos
          exact absurd hpos (not_le.mpr h)
      | atLeast =>
          obtain ⟨hsign, htight⟩ := hfair _ List.mem_cons_self
          have hneg := hsign (-1) rfl
          simp only [plans, Extended.finite?, List.map_cons, List.map_nil, List.sum_singleton]
          refine ⟨fun h => ?_, fun h => hupper (htight h.ne)⟩
          rw [neg_one_mul, neg_nonneg] at hneg
          exact absurd hneg (not_le.mpr h)
      | equal =>
          obtain ⟨-, htight⟩ := hfair _ List.mem_cons_self
          simp only [plans, Extended.finite?, List.map_cons, List.map_nil, List.sum_singleton]
          exact ⟨fun h => hupper (htight h.ne'), fun h => hupper (htight h.ne)⟩
      | range width =>
          cases width with
          | negInf | posInf | nan => cases hr.2
          | finite width =>
              obtain ⟨hsign, htight⟩ := hfair _ List.mem_cons_self
              obtain ⟨hsignLow, htightLow⟩ :=
                hfair _ (List.mem_cons_of_mem _ List.mem_cons_self)
              have hpos := hsign 1 rfl
              have hneg := hsignLow (-1) rfl
              simp only at hpos hneg htight htightLow
              simp only [plans, Extended.finite?, List.map_cons, List.map_nil, List.sum_cons,
                List.sum_nil, add_zero]
              constructor
              · intro h
                exact hupper (htight (by linarith))
              · intro h
                have hlow := htightLow (by linarith)
                simp only [Extended.toScalar] at hlow
                show Extended.finite (b - width) = .finite a
                congr 1
                linarith

private theorem Column.surplus_limits {c : Column ℚ} (hc : c.Usable) {j : ℕ} {X : Label → ℚ}
    {Y : RowLabel → ℚ} {d : ℚ} (hfair : ∀ P ∈ c.plans j,
      P.Fair (Y P.label) ((c.structurals j).map fun s => s.factor * X s.label).sum)
    (hsurplus : ∀ s ∈ c.structurals j,
      s.factor * d ≤ ((c.plans j).map fun P => Y P.label).sum ∧
        (s.factor * d = ((c.plans j).map fun P => Y P.label).sum ∨ X s.label = 0)) :
    (0 < d → c.upper =
        .finite (c.offset + ((c.structurals j).map fun s => s.factor * X s.label).sum)) ∧
      (d < 0 → c.lower =
        .finite (c.offset + ((c.structurals j).map fun s => s.factor * X s.label).sum)) := by
  obtain ⟨objective, lower, upper, name⟩ := c
  cases lower with
  | nan => exact absurd rfl hc.lower.1
  | posInf => exact absurd rfl hc.lower.2
  | finite l =>
      -- the variable is its column above the lower bound
      obtain ⟨hle, hzero⟩ := hsurplus ⟨.var j, j, 1⟩ List.mem_cons_self
      simp only [structurals, plans, width?, offset, Extended.finite?, List.map_cons, List.map_nil,
        List.sum_cons, List.sum_nil, add_zero, one_mul] at hfair hle hzero ⊢
      have hlower : d < ((plans j (⟨objective, .finite l, upper, name⟩ : Column ℚ)).map
          fun P => Y P.label).sum → Extended.finite l = .finite (l + X (.var j)) := by
        intro h
        rw [hzero.resolve_left h.ne, add_zero]
      cases upper with
      | nan => exact absurd rfl hc.upper.1
      | negInf => exact absurd rfl hc.upper.2
      | posInf => exact ⟨fun h => absurd hle (not_le.mpr h), fun h => hlower h⟩
      | finite u =>
          obtain ⟨hsign, htight⟩ := hfair _ List.mem_cons_self
          have hbound := hsign 1 rfl
          rw [one_mul] at hbound
          have hsum : ((plans j (⟨objective, .finite l, .finite u, name⟩ : Column ℚ)).map
              fun P => Y P.label).sum = Y (.bound j) := add_zero _
          rw [hsum] at hlower
          refine ⟨fun h => ?_, fun h => hlower (h.trans_le hbound)⟩
          have hpos : 0 < Y (.bound j) := h.trans_le (hle.trans (add_zero _).le)
          rw [htight hpos.ne', add_sub_cancel]
  | negInf =>
      cases upper with
      | nan => exact absurd rfl hc.upper.1
      | negInf => exact absurd rfl hc.upper.2
      | finite u =>
          -- the variable is its column below the upper bound
          obtain ⟨hle, hzero⟩ := hsurplus ⟨.var j, j, -1⟩ List.mem_cons_self
          simp only [structurals, plans, width?, offset, Extended.finite?, List.map_cons,
            List.map_nil, List.sum_cons, List.sum_nil, add_zero, neg_one_mul, neg_nonpos,
            neg_eq_zero] at hle hzero ⊢
          refine ⟨fun h => ?_, fun h => absurd hle (not_le.mpr h)⟩
          rw [hzero.resolve_left h.ne', neg_zero, add_zero]
      | posInf =>
          -- a column each way: neither has a surplus, so that the variable has none either way
          obtain ⟨hle, -⟩ := hsurplus ⟨.varPos j, j, 1⟩ List.mem_cons_self
          obtain ⟨hge, -⟩ := hsurplus ⟨.varNeg j, j, -1⟩ (List.mem_cons_of_mem _ List.mem_cons_self)
          simp only [plans, width?, Extended.finite?, List.map_nil, List.sum_nil, one_mul,
            neg_one_mul, neg_nonpos] at hle hge
          exact ⟨fun h => absurd hle (not_le.mpr h), fun h => absurd hge (not_le.mpr h)⟩

namespace Instance

open Program

variable {i : Instance ℚ} {X : Label → ℚ} {Y : RowLabel → ℚ}

private theorem sum_plans (i : Instance ℚ) (g : RowPlan ℚ → ℚ) : (i.plans.map g).sum =
    ∑ k : Fin i.numRows, (((i.rows.get k).plans k
        (activity (i.denseRows.getD k []) i.offsets)).map g).sum +
      ∑ j : Fin i.numColumns, (((i.columns.get j).plans j).map g).sum := by
  unfold plans
  rw [List.map_append, List.sum_append, sum_flatMap, sum_flatMap, sum_zipIdx, sum_zipIdx]
  rfl

private theorem sum_rowLabels (i : Instance ℚ) (signs : Option (List (Label × ℚ)))
    (g : RowLabel → ℚ) :
    ((i.standardForm signs).rows.map fun r => g r.label).sum =
      (i.plans.map fun P => g P.label).sum := by
  rw [standardForm_rows, List.map_map]
  congr 1
  apply List.map_congr_left
  intro P _
  rw [Function.comp_apply, label_row]

/-- The prices of the rows of the instance, from prices of the rows of the form. -/
def rowPrices (i : Instance ℚ) (Y : RowLabel → ℚ) (k : Fin i.numRows) : ℚ :=
  (i.rows.get k).price k (activity (i.denseRows.getD k []) i.offsets) Y

private theorem sum_structural_entries (hi : i.Sound) (Y : RowLabel → ℚ) {j : Fin i.numColumns}
    {s : Structural ℚ} (hs : s ∈ (i.columns.get j).structurals j) :
    (i.plans.map fun P => Y P.label * s.entry i.denseRows P.label).sum =
      s.factor * ∑ k, i.rowPrices Y k * i.coefficient k j +
        (((i.columns.get j).plans j).map fun P => Y P.label).sum := by
  have hcolumn := (mem_columnStructurals hs).1
  rw [sum_plans]
  congr 1
  · rw [Finset.mul_sum]
    apply Finset.sum_congr rfl
    intro k _
    have hentry : ∀ P ∈ (i.rows.get k).plans k (activity (i.denseRows.getD k []) i.offsets),
        Y P.label * s.entry i.denseRows P.label =
          Y P.label * (i.coefficient k j * s.factor) := by
      intro P hP
      rcases label_of_mem_rowPlans hP with hlabel | hlabel <;>
        rw [hlabel, Structural.entry, hcolumn, denseEntry_denseRows hi k.isLt j.isLt, zero_add]
    rw [List.map_congr_left hentry, List.sum_map_mul_right, rowPrices, Row.price]
    ring
  · rw [Fintype.sum_eq_single j]
    · congr 1
      apply List.map_congr_left
      intro P hP
      obtain ⟨width, -, rfl⟩ := mem_columnPlans hP
      rw [Structural.entry, if_pos hcolumn.symm, mul_one]
    · intro l hne
      apply sum_map_eq_zero
      intro P hP
      obtain ⟨width, -, rfl⟩ := mem_columnPlans hP
      have hval : (l : ℕ) ≠ s.column := fun h => hne (Fin.ext (h.trans hcolumn))
      rw [Structural.entry, if_neg hval, mul_zero]

/-- What a structural column adds to the objective beyond its worth. -/
def structuralSurplus (i : Instance ℚ) (Y : RowLabel → ℚ) (s : Structural ℚ) : ℚ :=
  i.sense.toMax (0 + i.objectives.getD s.column 0 * s.factor) -
    (i.plans.map fun P => Y P.label * s.entry i.denseRows P.label).sum

/-- No column, artificial ones aside, adds more to the objective than it is worth, and a column with
a value adds just as much. -/
structure Supports (i : Instance ℚ) (Y : RowLabel → ℚ) (X : Label → ℚ) : Prop where
  structurals : ∀ s ∈ i.structurals,
    i.structuralSurplus Y s ≤ 0 ∧ (i.structuralSurplus Y s = 0 ∨ X s.label = 0)
  slacks : ∀ P ∈ i.plans, ∀ s, P.slack = some s →
    0 ≤ s * Y P.label ∧ (s * Y P.label = 0 ∨ X P.label.slack = 0)

private theorem structuralSurplus_eq (hi : i.Sound) (Y : RowLabel → ℚ) {j : Fin i.numColumns}
    {s : Structural ℚ} (hs : s ∈ (i.columns.get j).structurals j) :
    i.structuralSurplus Y s = s.factor * i.reducedCost (i.rowPrices Y) j -
      (((i.columns.get j).plans j).map fun P => Y P.label).sum := by
  rw [structuralSurplus, sum_structural_entries hi Y hs, (mem_columnStructurals hs).1,
    getD_objectives, zero_add, ← toMax_mul]
  unfold reducedCost
  ring

private theorem Supports.fair (hY : i.Supports Y X) (hX : i.Solves X) {P : RowPlan ℚ}
    (hP : P ∈ i.plans) : P.Fair (Y P.label) (i.share X P.label) where
  sign s hs := (hY.slacks P hP s hs).1
  tight hne := by
    have hrow := hX.rows P hP
    unfold RowPlan.slackTerm at hrow
    cases hs : P.slack with
    | none =>
        simp only [hs, add_zero] at hrow
        exact hrow
    | some s =>
        have hunit := left_ne_zero_of_mul_eq_one (unital_of_mem_plans hP s hs)
        have hzero := (hY.slacks P hP s hs).2.resolve_left (mul_ne_zero hunit hne)
        simp only [hs, hzero, mul_zero, add_zero] at hrow
        exact hrow

/-- Such prices certify the point that the columns stand for. -/
theorem Supports.complementary (hi : i.Sound) (hY : i.Supports Y X) (hX : i.Solves X) :
    i.Complementary (i.decode X) (i.rowPrices Y) := by
  have hrow : ∀ k : Fin i.numRows,
      (0 < i.rowPrices Y k → (i.rows.get k).upper = .finite (i.rowActivity (i.decode X) k)) ∧
        (i.rowPrices Y k < 0 →
          (i.rows.get k).lower = .finite (i.rowActivity (i.decode X) k)) := by
    intro k
    apply Row.price_limits (hi.rows _ (List.get_mem i.rows k))
    intro P hP
    rw [← share_of_mem_plans hi X hP]
    exact hY.fair hX (mem_plans.mpr (Or.inl ⟨k, hP⟩))
  have hcolumn : ∀ j : Fin i.numColumns,
      (0 < i.reducedCost (i.rowPrices Y) j →
          (i.columns.get j).upper = .finite (i.decode X j)) ∧
        (i.reducedCost (i.rowPrices Y) j < 0 →
          (i.columns.get j).lower = .finite (i.decode X j)) := by
    intro j
    apply Column.surplus_limits (hi.columns _ (List.get_mem i.columns j)) (j := j) (Y := Y)
    · intro P hP
      have hmem : P ∈ i.plans := mem_plans.mpr (Or.inr ⟨j, hP⟩)
      have hfair := hY.fair hX hmem
      obtain ⟨width, hwidth, rfl⟩ := mem_columnPlans hP
      rw [share_bound i X hwidth] at hfair
      exact hfair
    · intro s hs
      have hmem : s ∈ i.structurals := List.mem_flatMap.mpr ⟨_, mem_zipIdx_iff.mpr ⟨j, rfl⟩, hs⟩
      have hsurplus := hY.structurals s hmem
      rw [structuralSurplus_eq hi Y hs, sub_nonpos, sub_eq_zero] at hsurplus
      exact hsurplus
  refine ⟨fun k => (hrow k).1, fun k => (hrow k).2, fun k hlower hupper => ?_,
    fun j => (hcolumn j).1, fun j => (hcolumn j).2⟩
  rcases lt_trichotomy (i.rowPrices Y k) 0 with hneg | hzero | hpos
  · rw [(hrow k).2 hneg] at hlower
    cases hlower
  · exact hzero
  · rw [(hrow k).1 hpos] at hupper
    cases hupper

variable {signs : Option (List (Label × ℚ))} {ε : Fin (i.standardForm signs).columns.length → ℚ}
  {q : Program ℚ (i.standardForm signs).rows.length (i.standardForm signs).columns.length}

/-- The prices of the rows of a form by their labels. -/
noncomputable def atRows (f : StandardForm ℚ) (y : Fin f.rows.length → ℚ) : RowLabel → ℚ :=
  Function.extend (fun k => (f.rows.get k).label) y 0

private theorem atRows_label (y : Fin (i.standardForm signs).rows.length → ℚ)
    (k : Fin (i.standardForm signs).rows.length) :
    atRows (i.standardForm signs) y ((i.standardForm signs).rows.get k).label = y k := by
  apply Function.Injective.extend_apply
  intro k l hkl
  have hlabels := i.rowLabels_nodup signs
  exact List.nodup_iff_injective_get.mp (List.Nodup.of_map _ hlabels)
    (List.inj_on_of_nodup_map hlabels (List.get_mem _ k) (List.get_mem _ l) hkl)

private theorem surplus_atRows (y : Fin (i.standardForm signs).rows.length → ℚ)
    (j : Fin (i.standardForm signs).columns.length) :
    (i.standardForm signs).program.surplus y j = ((i.standardForm signs).columns.get j).cost -
      (i.plans.map fun P => atRows (i.standardForm signs) y P.label *
        ((i.standardForm signs).columns.get j).entry P.label).sum := by
  rw [← i.sum_rowLabels signs fun l => atRows (i.standardForm signs) y l *
    ((i.standardForm signs).columns.get j).entry l, ← sum_get, surplus_apply,
    StandardForm.get_cost, dotProduct]
  congr 1
  apply Finset.sum_congr rfl
  intro k _
  rw [atRows_label]
  congr 1
  exact StandardForm.matrix_apply _ k j

private theorem supports_of_optimal (hε : SignChange (i.standardForm signs).program q ε)
    {β : Basis _ _} {point : Point ℚ _ _} (h : q.Optimal β point)
    (hX : q.point β = atLabels (i.standardForm signs) X) :
    i.Supports (atRows (i.standardForm signs) (q.prices β).get) X := by
  have hcolumn : ∀ c ∈ (i.standardForm signs).columns, c.label.isArtificial = false →
      c.cost - (i.plans.map fun P => atRows (i.standardForm signs) (q.prices β).get P.label *
          c.entry P.label).sum ≤ 0 ∧
        (c.cost - (i.plans.map fun P => atRows (i.standardForm signs) (q.prices β).get P.label *
          c.entry P.label).sum = 0 ∨ X c.label = 0) := by
    intro c hc hlabel
    obtain ⟨j, rfl⟩ := List.mem_iff_get.mp hc
    have hbarred : (i.standardForm signs).program.barred.get j = false := by
      rw [StandardForm.get_barred]
      exact hlabel
    have hslack := h.slackness (j := j) (by rw [hε.barred]; exact hbarred)
    rw [hε.surplus _ hbarred, surplus_atRows, hX] at hslack
    exact hslack
  constructor
  · intro s hs
    exact hcolumn _ (mem_columns.mpr (Or.inl (List.mem_map_of_mem hs)))
      (i.isArtificial_of_mem_structurals hs)
  · intro P hP s hs
    have hmem : FormColumn.single P.label.slack (i.sense.toMax 0) P.label s ∈
        (i.standardForm signs).columns := by
      refine mem_columns.mpr (Or.inr ⟨P, hP, ?_⟩)
      rw [RowPlan.columns_row, RowPlan.slackColumns, hs]
      exact List.mem_cons_self
    have hslack := hcolumn _ hmem P.label.isArtificial_slack
    have hentry : (i.plans.map fun Q => atRows (i.standardForm signs) (q.prices β).get Q.label *
        (FormColumn.single P.label.slack (i.sense.toMax 0) P.label s).entry Q.label) =
        i.plans.map fun Q => if P.label = Q.label then
          s * atRows (i.standardForm signs) (q.prices β).get Q.label else 0 := by
      apply List.map_congr_left
      intro Q _
      simp only [FormColumn.single, mul_ite, mul_zero, mul_comm s, @eq_comm _ P.label]
    have hcost : (FormColumn.single P.label.slack (i.sense.toMax 0) P.label s).cost = 0 :=
      toMax_zero _
    rw [hentry, sum_ite_key (fun Q : RowPlan ℚ => Q.label) i.plans_nodup hP fun Q =>
      s * atRows (i.standardForm signs) (q.prices β).get Q.label, hcost, zero_sub, neg_nonpos,
      neg_eq_zero] at hslack
    exact hslack

/-- Reported prices are those of the rows, but for the smallest. -/
structure Quotes (i : Instance ℚ) (ys : List ℚ) (w : Fin i.numRows → ℚ) : Prop where
  length : ys.length = i.numRows
  close : ∀ k : Fin i.numRows, |ys.getD k 0 - w k| < 1 / 1000000000000

private theorem sum_slots (y : Vector ℚ (i.standardForm signs).rows.length) (k : Fin i.numRows) :
    (((i.standardForm signs).slots k).map fun p => y[p]?.getD 0).sum =
      i.rowPrices (atRows (i.standardForm signs) y.get) k := by
  have hplace : ∀ e ∈ (i.standardForm signs).rows.zipIdx,
      y[e.2]?.getD 0 = atRows (i.standardForm signs) y.get e.1.label := by
    intro e he
    obtain ⟨l, rfl⟩ := mem_zipIdx_iff.mp he
    rw [Vector.getElem?_eq_getElem l.isLt, Option.getD_some, atRows_label]
    rfl
  have hmap : (((i.standardForm signs).slots k).map fun p => y[p]?.getD 0) =
      ((i.standardForm signs).rows.zipIdx.filter fun r =>
        r.1.label == .row k || r.1.label == .rowLow k).map
          fun e => atRows (i.standardForm signs) y.get e.1.label := by
    rw [StandardForm.slots, List.map_map]
    apply List.map_congr_left
    intro e he
    exact hplace e (List.mem_filter.mp he).1
  rw [hmap, sum_filter_zipIdx (i.standardForm signs).rows
    (fun r => r.label == .row k || r.label == .rowLow k)
    (fun r => atRows (i.standardForm signs) y.get r.label),
    i.sum_rowLabels signs fun l => if (l == .row k || l == .rowLow k) = true then
      atRows (i.standardForm signs) y.get l else 0, sum_plans]
  have hbounds : ∀ j : Fin i.numColumns, (((i.columns.get j).plans j).map fun P =>
      if (P.label == .row k || P.label == .rowLow k) = true then
        atRows (i.standardForm signs) y.get P.label else 0).sum = 0 := by
    intro j
    apply sum_map_eq_zero
    intro P hP
    obtain ⟨width, -, rfl⟩ := mem_columnPlans hP
    rfl
  rw [Finset.sum_congr rfl fun j _ => hbounds j, Finset.sum_const_zero, add_zero,
    Fintype.sum_eq_single k]
  · rw [rowPrices, Row.price]
    congr 1
    apply List.map_congr_left
    intro P hP
    rcases label_of_mem_rowPlans hP with hlabel | hlabel <;> simp [hlabel]
  · intro l hne
    apply sum_map_eq_zero
    intro P hP
    have hval : (l : ℕ) ≠ k := fun h => hne (Fin.ext h)
    rcases label_of_mem_rowPlans hP with hlabel | hlabel <;> simp [hlabel, hval]

private theorem duals_quotes (y : Vector ℚ (i.standardForm signs).rows.length) :
    i.Quotes ((i.standardForm signs).duals y)
      (i.rowPrices (atRows (i.standardForm signs) y.get)) := by
  have hlength : ((i.standardForm signs).duals y).length = i.numRows := by
    rw [StandardForm.duals, List.length_map, List.length_range]
    rfl
  refine ⟨hlength, fun k => ?_⟩
  have hk : (k : ℕ) < ((i.standardForm signs).duals y).length := by
    rw [hlength]
    exact k.isLt
  have hget : ((i.standardForm signs).duals y).getD k 0 = Scalar.snap (1 / 1000000000000)
      (i.rowPrices (atRows (i.standardForm signs) y.get) k) := by
    rw [List.getD_eq_getElem _ _ hk]
    simp only [StandardForm.duals, List.getElem_map, List.getElem_range]
    rw [foldl_add_eq, sum_slots y k, zero_add]
    rfl
  rw [hget]
  exact Scalar.abs_snap_sub_lt (by norm_num) _

/-- The point and the prices of an optimal basis, as they are reported, certify each other. -/
theorem exists_complementary (hi : i.Sound) (hε : SignChange (i.standardForm signs).program q ε)
    {β : Basis _ _} {point : Point ℚ _ _} (h : q.Optimal β point) :
    ∃ v w, i.Reports ((i.standardForm signs).solution point.x) v ∧
      i.Quotes ((i.standardForm signs).duals point.prices) w ∧ i.Complementary v w ∧
      i.Optimal v := by
  have hp := hε.symm.feasible h.viable.feasible
  obtain ⟨X, hartificial, hX⟩ := exists_atLabels hp.barred
  have hsolves : i.Solves X := (feasible_atLabels_iff hartificial).mp (hX ▸ hp)
  have hcomplementary :=
    (supports_of_optimal hε h hX).complementary hi hsolves
  obtain ⟨hlength, hclose⟩ := solution_close point.x (h.x_eq.trans hX)
  rw [← h.prices_eq] at hcomplementary
  exact ⟨i.decode X, _, ⟨hlength, hclose⟩, duals_quotes point.prices, hcomplementary,
    hcomplementary.optimal (hsolves.feasible hi)⟩

end Instance

end IncrementalLP
