import IncrementalLP.Proofs.Form.Correspondence
import IncrementalLP.Proofs.Simplex.Signs
import IncrementalLP.Simplex.Solve
/-!
# The program of a form

The feasible points of the program of a form are those of the instance, and the objective and the
values that are reported are those of the instance.
-/
namespace IncrementalLP.Instance

variable {i : Instance ℚ} {signs : Option (List (Label × ℚ))} {X : Label → ℚ}

/-- The values of the columns of a form, given for their labels. -/
def atLabels (f : StandardForm ℚ) (X : Label → ℚ) (j : Fin f.columns.length) : ℚ :=
  X (f.columns.get j).label

private theorem mulVec_atLabels (hX : ∀ r, X (.artificial r) = 0)
    {k : Fin (i.standardForm signs).rows.length} {P : RowPlan ℚ} (hP : P ∈ i.plans)
    (hk : (i.standardForm signs).rows.get k = P.row (i.sense.toMax 0) signs) :
    Matrix.mulVec (i.standardForm signs).program.matrix (atLabels (i.standardForm signs) X) k =
      i.share X P.label + P.slackTerm X := by
  rw [← sum_entries i signs hX hP, ← sum_get, Matrix.mulVec, dotProduct]
  apply Finset.sum_congr rfl
  intro j _
  rw [StandardForm.matrix_apply, hk, label_row]
  rfl

theorem feasible_atLabels_iff (hX : ∀ r, X (.artificial r) = 0) :
    (i.standardForm signs).program.Feasible (atLabels (i.standardForm signs) X) ↔ i.Solves X := by
  constructor
  · intro h
    have hnonneg : ∀ c ∈ (i.standardForm signs).columns, 0 ≤ X c.label := by
      intro c hc
      obtain ⟨j, rfl⟩ := List.mem_iff_get.mp hc
      exact h.nonneg j
    refine ⟨?_, ?_, ?_⟩
    · intro s hs
      exact hnonneg _ (mem_columns.mpr (Or.inl (List.mem_map_of_mem hs)))
    · intro P hP hslack
      obtain ⟨s, hs⟩ := Option.isSome_iff_exists.mp hslack
      apply hnonneg (.single P.label.slack (i.sense.toMax 0) P.label s)
      refine mem_columns.mpr (Or.inr ⟨P, hP, ?_⟩)
      rw [RowPlan.columns_row, RowPlan.slackColumns, hs]
      exact List.mem_cons_self
    · intro P hP
      obtain ⟨k, hk⟩ := @exists_row _ _ _ signs _ hP
      have hequation := congrFun h.equations k
      rw [mulVec_atLabels hX hP hk] at hequation
      rw [hequation, StandardForm.get_rhs, hk, rhs_row]
  · intro h
    refine ⟨?_, ?_, ?_⟩
    · funext k
      obtain ⟨P, hP, hk⟩ := exists_plan k
      rw [mulVec_atLabels hX hP hk, h.rows P hP, StandardForm.get_rhs, hk, rhs_row]
    · intro j
      show 0 ≤ X _
      rcases mem_columns.mp (List.get_mem (i.standardForm signs).columns j) with hc | ⟨P, hP, hc⟩
      · obtain ⟨s, hs, heq⟩ := List.mem_map.mp hc
        rw [← heq]
        exact h.structurals s hs
      · rw [RowPlan.columns_row, List.mem_append] at hc
        rcases hc with hc | hc
        · obtain ⟨s, hs, heq⟩ := List.mem_map.mp hc
          rw [← heq]
          exact h.slacks P hP (Option.isSome_iff_exists.mpr ⟨s, Option.mem_toList.mp hs⟩)
        · obtain ⟨s, -, heq⟩ := List.mem_map.mp hc
          rw [← heq]
          exact (hX P.label).ge
    · intro j hj
      rw [StandardForm.get_barred] at hj
      obtain ⟨r, hr⟩ := Label.owner?_of_isArtificial hj
      rw [atLabels, hr, hX]

theorem exists_atLabels {x : Fin (i.standardForm signs).columns.length → ℚ}
    (hbarred : ∀ j, (i.standardForm signs).program.barred.get j = true → x j = 0) :
    ∃ X, (∀ r, X (.artificial r) = 0) ∧ x = atLabels (i.standardForm signs) X := by
  have hplace := StandardForm.place?_label (i.labels_nodup signs)
  refine ⟨fun l => if l.isArtificial = true then 0 else
    (((i.standardForm signs).place? l).map x).getD 0, fun r => rfl, ?_⟩
  funext j
  rw [atLabels]
  split
  · next hj => exact hbarred j (by rw [StandardForm.get_barred]; exact hj)
  · rw [hplace]
    rfl

theorem toMax_zero (s : Sense) : s.toMax (0 : ℚ) = 0 := by
  cases s
  · exact neg_zero
  · rfl

theorem toMax_mul (s : Sense) (a b : ℚ) : s.toMax a * b = s.toMax (a * b) := by
  cases s
  · exact neg_mul a b
  · rfl

private theorem toMax_sum {α : Type} (s : Sense) (l : List α) (g : α → ℚ) :
    (l.map fun a => s.toMax (g a)).sum = s.toMax (l.map g).sum := by
  cases s
  · induction l with
    | nil => exact neg_zero.symm
    | cons a l ih =>
        rw [List.map_cons, List.map_cons, List.sum_cons, List.sum_cons, ih]
        exact (neg_add _ _).symm
  · rfl

theorem getD_objectives (i : Instance ℚ) (j : Fin i.numColumns) :
    i.objectives.getD j 0 = (i.columns.get j).objective.toScalar := by
  have hj : (j : ℕ) < i.columns.length := j.isLt
  unfold objectives
  rw [List.getD_eq_getElem _ _ (by rwa [List.length_map]), List.getElem_map]
  rfl

private theorem objective_atLabels (X : Label → ℚ) :
    (i.standardForm signs).program.objective (atLabels (i.standardForm signs) X) =
      i.sense.toMax (∑ j : Fin i.numColumns,
        (i.columns.get j).objective.toScalar * i.displacement X j) := by
  have hsum : (i.standardForm signs).program.objective (atLabels (i.standardForm signs) X) =
      ((i.standardForm signs).columns.map fun c => c.cost * X c.label).sum := by
    rw [← sum_get, Program.objective, dotProduct]
    apply Finset.sum_congr rfl
    intro j _
    rw [StandardForm.get_cost]
    rfl
  have hrows : ((i.plans.flatMap fun P => (P.row (i.sense.toMax 0) signs).columns).map
      fun c => c.cost * X c.label).sum = 0 := by
    apply sum_map_eq_zero
    intro c hc
    obtain ⟨P, -, hP⟩ := List.mem_flatMap.mp hc
    rw [P.cost_of_mem_columns _ _ hP, toMax_mul, zero_mul, toMax_zero]
  rw [hsum, standardForm_columns, List.map_append, List.sum_append, hrows, add_zero,
    standardForm_structuralColumns, List.map_map]
  have hterm : ((fun c : FormColumn ℚ => c.cost * X c.label) ∘ fun s : Structural ℚ =>
      (⟨s.label, i.sense.toMax (0 + i.objectives.getD s.column 0 * s.factor),
        s.entry i.denseRows⟩ : FormColumn ℚ)) = fun s => i.sense.toMax
          (i.objectives.getD s.column 0 * (s.factor * X s.label)) := by
    funext s
    simp only [Function.comp_apply, toMax_mul, zero_add, mul_assoc]
  rw [hterm, toMax_sum, sum_structurals]
  congr 1
  apply Finset.sum_congr rfl
  intro j _
  rw [displacement, ← List.sum_map_mul_left]
  congr 1
  apply List.map_congr_left
  intro s hs
  rw [(mem_columnStructurals hs).1, getD_objectives]

theorem objectiveAt_atLabels (X : Label → ℚ) :
    i.objectiveAt (i.standardForm signs)
        ((i.standardForm signs).program.objective (atLabels (i.standardForm signs) X)) =
      i.value (i.decode X) := by
  have hconstant : (i.standardForm signs).constant = ∑ j : Fin i.numColumns,
      (i.columns.get j).objective.toScalar * (i.columns.get j).offset := by
    have heq : (i.standardForm signs).constant = activity i.objectives i.offsets := rfl
    rw [heq, offsets, activity_map]
    apply Finset.sum_congr rfl
    intro j _
    exact congrArg (· * _) (i.getD_objectives j)
  have hvalue : i.value (i.decode X) = (i.standardForm signs).constant +
      ∑ j : Fin i.numColumns, (i.columns.get j).objective.toScalar * i.displacement X j := by
    rw [hconstant, value, ← Finset.sum_add_distrib]
    apply Finset.sum_congr rfl
    intro j _
    rw [decode]
    ring
  rw [objective_atLabels, hvalue, objectiveAt]
  cases hs : i.sense with
  | max => rfl
  | min =>
      simp only [Sense.toMax]
      ring

theorem sum_filter_zipIdx {α : Type} (l : List α) (p : α → Bool) (g : α → ℚ) (k : ℕ) :
    (((l.zipIdx k).filter fun e => p e.1).map fun e => g e.1).sum =
      (l.map fun a => if p a = true then g a else 0).sum := by
  induction l generalizing k with
  | nil => rfl
  | cons a l ih =>
      rw [List.zipIdx_cons, List.filter_cons, List.map_cons, List.sum_cons]
      split
      · rw [List.map_cons, List.sum_cons, ih]
      · rw [ih, zero_add]

/-- The value of a variable at values of the columns, before small values are cut. -/
def variableAt (f : StandardForm ℚ) {n : ℕ} (x : Vector ℚ n) (j : ℕ) : ℚ :=
  f.offsets.getD j 0 + ((f.components j).map fun c => c.2 * x[c.1]?.getD 0).sum

private theorem sum_components (X : Label → ℚ)
    (x : Vector ℚ (i.standardForm signs).columns.length)
    (hx : x.get = atLabels (i.standardForm signs) X) (j : Fin i.numColumns) :
    (((i.standardForm signs).components j).map fun c => c.2 * x[c.1]?.getD 0).sum =
      i.displacement X j := by
  have hplace : ∀ e ∈ i.structurals.zipIdx, x[e.2]?.getD 0 = X e.1.label := by
    intro e he
    obtain ⟨k, rfl⟩ := mem_zipIdx_iff.mp he
    have hlength : (i.standardForm signs).structuralColumns.length = i.structurals.length := by
      rw [standardForm_structuralColumns, List.length_map]
    have hk : (k : ℕ) < (i.standardForm signs).columns.length := by
      have := k.isLt
      rw [standardForm_columns, List.length_append]
      omega
    have hlabel :
        ((i.standardForm signs).columns[(k : ℕ)]).label = (i.structurals.get k).label := by
      simp only [standardForm_columns, standardForm_structuralColumns]
      rw [List.getElem_append_left (by simp), List.getElem_map]
      rfl
    have hget := congrFun hx ⟨k, hk⟩
    rw [atLabels, Vector.get_eq_getElem] at hget
    rw [Vector.getElem?_eq_getElem hk, Option.getD_some, hget]
    exact congrArg X hlabel
  have hmap : (((i.standardForm signs).components j).map fun c => c.2 * x[c.1]?.getD 0) =
      (i.structurals.zipIdx.filter fun e => e.1.column == (j : ℕ)).map
        fun e => e.1.factor * X e.1.label := by
    rw [StandardForm.components, List.map_map, standardForm_structurals]
    apply List.map_congr_left
    intro e he
    rw [Function.comp_apply, hplace e (List.mem_filter.mp he).1]
  rw [hmap, sum_filter_zipIdx i.structurals (fun s => s.column == (j : ℕ))
    (fun s => s.factor * X s.label), sum_structurals, Fintype.sum_eq_single j]
  · rw [displacement]
    congr 1
    apply List.map_congr_left
    intro s hs
    rw [if_pos (beq_iff_eq.mpr (mem_columnStructurals hs).1)]
  · intro j' hne
    apply sum_map_eq_zero
    intro s hs
    rw [(mem_columnStructurals hs).1, if_neg fun h => hne (Fin.ext (beq_iff_eq.mp h))]

/-- The variables have the values of the point that the columns stand for. -/
theorem variableAt_eq_decode (x : Vector ℚ (i.standardForm signs).columns.length)
    (hx : x.get = atLabels (i.standardForm signs) X) (j : Fin i.numColumns) :
    variableAt (i.standardForm signs) x j = i.decode X j := by
  have hj : (j : ℕ) < (i.columns.map (·.offset)).length := by
    rw [List.length_map]
    exact j.isLt
  have hoffset : (i.standardForm signs).offsets.getD j 0 = (i.columns.get j).offset := by
    show (i.columns.map (·.offset)).getD j 0 = _
    rw [List.getD_eq_getElem _ _ hj, List.getElem_map]
    rfl
  rw [variableAt, hoffset, sum_components X x hx j, decode]

private theorem solution_eq (x : Vector ℚ (i.standardForm signs).columns.length) :
    ((i.standardForm signs).solution x).length = i.numColumns ∧ ∀ j : Fin i.numColumns,
      ((i.standardForm signs).solution x).getD j 0 =
        Scalar.snap (1 / 1000000000000) (variableAt (i.standardForm signs) x j) := by
  have hoffsets : (i.standardForm signs).offsets = i.columns.map (·.offset) := rfl
  have hlength : ((i.standardForm signs).solution x).length = i.numColumns := by
    rw [StandardForm.solution, List.length_map, List.length_zipIdx, hoffsets, List.length_map]
    rfl
  refine ⟨hlength, fun j => ?_⟩
  have hj : (j : ℕ) < ((i.standardForm signs).solution x).length := by
    rw [hlength]
    exact j.isLt
  have hoffset : (j : ℕ) < (i.standardForm signs).offsets.length := by
    rw [hoffsets, List.length_map]
    exact j.isLt
  rw [List.getD_eq_getElem _ _ hj, variableAt, List.getD_eq_getElem _ _ hoffset]
  simp only [StandardForm.solution, List.getElem_map, List.getElem_zipIdx, zero_add]
  rw [foldl_add_eq]
  rfl

/-- The values that are reported are those of the point, but for the smallest. -/
theorem solution_close (x : Vector ℚ (i.standardForm signs).columns.length)
    (hx : x.get = atLabels (i.standardForm signs) X) :
    ((i.standardForm signs).solution x).length = i.numColumns ∧ ∀ j : Fin i.numColumns,
      |((i.standardForm signs).solution x).getD j 0 - i.decode X j| < 1 / 1000000000000 := by
  obtain ⟨hlength, hvalue⟩ := solution_eq x
  refine ⟨hlength, fun j => ?_⟩
  rw [hvalue, variableAt_eq_decode x hx]
  exact Scalar.abs_snap_sub_lt (by norm_num) _

end IncrementalLP.Instance
