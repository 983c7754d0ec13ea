import IncrementalLP.Proofs.Instance.Visits
/-!
# Reports

What an optimal result lists: a value for each column and, where prices are asked for, a price for
each row. Rows without limits have no row in the form, and are priced at zero. If the form has no
row at all, no prices are listed, not even those.
-/
namespace IncrementalLP

variable {α : Type} [Scalar α]

/-- The row allows every activity. -/
def Row.Free (r : Row α) : Prop := r.lower = .negInf ∧ r.upper = .posInf

/-- Both bounds of the column are numbers. -/
def Column.Boxed (c : Column α) : Prop :=
  c.lower.isFinite = true ∧ c.upper.isFinite = true

private theorem Row.plans_eq_nil_iff {r : Row α} (h : r.Usable) {k : ℕ} {shift : α} :
    r.plans k shift = [] ↔ r.Free := by
  obtain ⟨sense, rhs, name⟩ := r
  unfold Row.Usable at h
  unfold Row.plans Row.Free
  cases sense <;> cases rhs <;>
    simp_all [Extended.finite?, Row.lower, Row.upper, Extended.isFinite]

private theorem Column.plans_eq_nil_iff {c : Column α} {j : ℕ} : c.plans j = [] ↔ ¬ c.Boxed := by
  obtain ⟨objective, lower, upper, name⟩ := c
  unfold Column.plans Column.width? Column.Boxed
  cases lower <;> cases upper <;> simp [Extended.finite?, Extended.isFinite]

/-- A row without limits, and a range row; the first of the two columns is bounded on both sides. -/
def Sample.mixed : ProblemParts ℚ where
  rows := [⟨.atMost, .posInf, none⟩, ⟨.range (.finite 2), .finite 5, none⟩]
  columns := [⟨.finite 1, .finite 0, .finite 3, none⟩, { Column.free with objective := .finite 1 }]
  matrix := ⟨2, [[(0, 1), (1, 1)], [(1, 1)]], []⟩

/-- A row without limits for a variable without cost. -/
def Sample.unlimited : ProblemParts ℚ where
  rows := [⟨.atMost, .posInf, none⟩]
  columns := [.free]
  matrix := ⟨1, [[(0, 1)]], []⟩

namespace Instance

variable {i : Instance α} {o : SolveOptions α} {signs : Option (List (Label × α))}

/-- No row limits anything, and no column is bounded on both sides. -/
def Unconstrained (i : Instance α) : Prop :=
  (∀ r ∈ i.rows, r.Free) ∧ ∀ c ∈ i.columns, ¬ c.Boxed

theorem rows_standardForm_eq_nil_iff (hi : i.Sound) (signs : Option (List (Label × α))) :
    (i.standardForm signs).rows = [] ↔ i.Unconstrained := by
  have hrows (k : Fin i.numRows) : (∀ P, P ∉ (i.rows.get k).plans k
      (activity (i.denseRows.getD k []) i.offsets)) ↔ (i.rows.get k).Free := by
    rw [← List.eq_nil_iff_forall_not_mem, Row.plans_eq_nil_iff (hi.rows _ (List.get_mem i.rows k))]
  have hcolumns (j : Fin i.numColumns) : (∀ P, P ∉ (i.columns.get j).plans j) ↔
      ¬ (i.columns.get j).Boxed := by
    rw [← List.eq_nil_iff_forall_not_mem, Column.plans_eq_nil_iff]
  rw [standardForm_rows, List.map_eq_nil_iff, List.eq_nil_iff_forall_not_mem]
  simp only [mem_plans, not_or, not_exists, forall_and]
  rw [Unconstrained, List.forall_mem_iff_get, List.forall_mem_iff_get]
  exact and_congr (forall_comm.trans (forall_congr' hrows))
    (forall_comm.trans (forall_congr' hcolumns))

private theorem slots_of_free (hi : i.Sound) {k : Fin i.numRows} (hfree : (i.rows.get k).Free) :
    (i.standardForm signs).slots k = [] := by
  have husable := hi.rows _ (List.get_mem i.rows k)
  have hnone : ∀ P ∈ i.plans, P.label ≠ .row k ∧ P.label ≠ .rowLow k := by
    intro P hP
    rcases mem_plans.mp hP with ⟨l, hP⟩ | ⟨j, hP⟩
    · have hne : (l : ℕ) ≠ k := by
        intro hval
        obtain rfl := Fin.ext hval
        rw [(Row.plans_eq_nil_iff husable).mpr hfree] at hP
        exact absurd hP List.not_mem_nil
      rcases label_of_mem_rowPlans hP with hlabel | hlabel <;> simp [hlabel, hne]
    · obtain ⟨width, -, rfl⟩ := mem_columnPlans hP
      exact ⟨nofun, nofun⟩
  rw [StandardForm.slots, List.map_eq_nil_iff, List.filter_eq_nil_iff]
  intro e he
  have hlabel : e.1.label ∈ i.plans.map (·.label) := by
    rw [← rowLabels_standardForm i signs]
    exact List.mem_map_of_mem (List.fst_mem_of_mem_zipIdx he)
  obtain ⟨P, hP, heq⟩ := List.mem_map.mp hlabel
  simpa [← heq] using hnone P hP

/-- A price for each row; rows without limits are priced at zero. -/
structure PricesRows (i : Instance α) (ys : List α) : Prop where
  length : ys.length = i.numRows
  free : ∀ k : Fin i.numRows, (i.rows.get k).Free → ys[(k : ℕ)]? = some 0

/-- The result has a value for each column, and a price for each row unless the form is without
rows. -/
structure Lists (i : Instance α) (r : SolveResult α) : Prop where
  values : ∃ xs, r.x = some xs ∧ xs.length = i.numColumns
  unpriced : r.duals = none ↔ i.Unconstrained
  prices : ∀ ys, r.duals = some ys → i.PricesRows ys

private theorem pricesRows_duals (hi : i.Sound) {m : ℕ} (prices : Vector α m) :
    i.PricesRows ((i.standardForm signs).duals prices) where
  length := by
    rw [StandardForm.duals, List.length_map, List.length_range]
    rfl
  free k hfree := by
    have hsnap : Scalar.snap StandardForm.reportThreshold (0 : α) = 0 := by
      unfold Scalar.snap
      exact ite_self _
    have hk : (k : ℕ) < (i.standardForm signs).numRows := k.isLt
    rw [StandardForm.duals, List.getElem?_map, List.getElem?_range hk,
      Option.map_some, slots_of_free hi hfree, List.foldl_nil, hsnap]

private theorem answer_lists (hi : i.Sound) (hduals : o.wantDuals = true) {method : SolveMethod}
    {out : Outcome α (i.standardForm signs).rows.length (i.standardForm signs).columns.length}
    (hoptimal : (i.answer (i.standardForm signs) method o out).result.status = .optimal) :
    i.Lists (i.answer (i.standardForm signs) method o out).result := by
  unfold answer at hoptimal ⊢
  cases hend : out.ending with
  | optimal point =>
      have hrows := rows_standardForm_eq_nil_iff hi signs
      simp only [hduals, Bool.true_and]
      refine ⟨⟨_, rfl, ?_⟩, ?_, fun ys hys => ?_⟩
      · rw [StandardForm.solution, List.length_map, List.length_zipIdx]
        exact List.length_map _
      · rw [← hrows, ← List.length_eq_zero_iff, ite_eq_right_iff]
        simp
      · split at hys
        · obtain rfl := Option.some.inj hys
          exact pricesRows_duals hi point.prices
        · cases hys
  | infeasible | dualUnbounded | unbounded | phaseOneUnbounded | iterationLimit | timeLimit =>
      rw [hend] at hoptimal
      cases hoptimal

private theorem solvePrimal_lists (hi : i.Sound) (hduals : o.wantDuals = true)
    (hoptimal : (i.solvePrimal o).result.status = .optimal) : i.Lists (i.solvePrimal o).result :=
  answer_lists hi hduals hoptimal

private theorem solveDual_lists (hi : i.Sound) (hduals : o.wantDuals = true) (p : BasisPayload α)
    (hoptimal : (i.solveDual o (some p)).result.status = .optimal) :
    i.Lists (i.solveDual o (some p)).result := by
  obtain ⟨-, refusal, hanswer⟩ | ⟨β, out, -, -, hanswer⟩ := i.solveDual_cases o p
  · -- after a refusal all but the message is that of the cold solve
    rw [hanswer] at hoptimal ⊢
    obtain ⟨hvalues, hunpriced, hprices⟩ := solvePrimal_lists hi hduals hoptimal
    exact ⟨hvalues, hunpriced, hprices⟩
  · rw [hanswer] at hoptimal ⊢
    exact answer_lists hi hduals hoptimal

/-- An optimal result lists a value for each column. It lists a price for each row, zero for a row
without limits, except that it lists no prices at all where all rows are without limits and no
column is bounded on both sides. -/
theorem optimal_lists (hi : i.Sound) (hduals : o.wantDuals = true) :
    ((i.solvePrimal o).result.status = .optimal → i.Lists (i.solvePrimal o).result) ∧
      ∀ stored : Option (BasisPayload α), (i.solveDual o stored).result.status = .optimal →
        i.Lists (i.solveDual o stored).result := by
  refine ⟨solvePrimal_lists hi hduals, fun stored => ?_⟩
  -- without a payload a solve starts from an empty one
  exact solveDual_lists hi hduals (stored.getD ⟨[], [], []⟩)

theorem optimal_lists_sample :
    let r := ((Sample.ofParts .max Sample.mixed).solvePrimal Sample.exact).result
    ∃ xs ys, r.x = some xs ∧ xs.length = 2 ∧ r.duals = some ys ∧ ys.length = 2 ∧
      ys[0]? = some 0 := by
  intro r
  obtain ⟨⟨xs, hxs, hlength⟩, -, hprices⟩ := (optimal_lists (o := Sample.exact)
    (Sample.ofParts_reachable .max Sample.mixed).sound rfl).1 (by decide +kernel)
  have hduals : r.duals = some [0, 1] := by decide +kernel
  obtain ⟨hpriced, hfree⟩ := hprices _ hduals
  exact ⟨xs, _, hxs, hlength, hduals, hpriced, hfree ⟨0, by decide +kernel⟩ ⟨rfl, rfl⟩⟩

/-- An optimal result for an instance with a row, and no list of prices. -/
theorem optimal_without_prices :
    let i := Sample.ofParts .max Sample.unlimited
    let r := (i.solvePrimal Sample.exact).result
    i.loaded = true ∧ i.numRows = 1 ∧ Sample.exact.wantDuals = true ∧ r.status = .optimal ∧
      r.duals = none := by
  decide +kernel

end Instance

end IncrementalLP
