import IncrementalLP.Proofs.Instance.Checks
import IncrementalLP.Proofs.Instance.Contents
import IncrementalLP.Proofs.Instance.Verdicts
/-!
# Packing problems

Problems to maximise in which all rows are upper limits that zero keeps, every column takes all
values from zero on, and all entries are positive. Zero is a feasible point of them; and as soon as
every column has an entry, the row of that entry limits the column, so that the objective cannot
grow beyond a bound.
-/
namespace IncrementalLP

/-- An upper limit that zero keeps. -/
structure Row.Caps (r : Row ℚ) : Prop where
  sense : r.sense = .atMost
  rhs : ∃ b, 0 ≤ b ∧ r.rhs = .finite b

private theorem Row.Caps.usable {r : Row ℚ} (h : r.Caps) : r.Usable := by
  obtain ⟨b, -, hb⟩ := h.rhs
  simp [Row.Usable, h.sense, hb]

/-- A column with a cost that takes all values from zero on. -/
structure Column.Ray (x : Column ℚ) : Prop where
  lower : x.lower = .finite 0
  upper : x.upper = .posInf
  objective : x.objective.isFinite = true

private theorem Column.Ray.usable {x : Column ℚ} (h : x.Ray) : x.Usable := by
  obtain ⟨hlower, hupper, hobjective⟩ := h
  refine ⟨by simp [hlower], by simp [hupper], ?_, hobjective⟩
  rw [hlower, hupper]
  rfl

/-- Positive values in different places below a bound. -/
structure Positive (n : ℕ) (run : List (ℕ × ℚ)) : Prop where
  nodup : (run.map (·.1)).Nodup
  below : ∀ e ∈ run, e.1 < n
  positive : ∀ e ∈ run, 0 < e.2

private theorem Positive.of_mem_ofColumns {n k : ℕ} {runs : Runs ℚ}
    (h : ∀ run ∈ runs, Positive n run)
    {e : Entry ℚ} (he : e ∈ SparseMatrix.ofColumns k runs) : e.row < n ∧ 0 < e.value := by
  obtain ⟨-, run, hrun, hmem⟩ := SparseMatrix.mem_ofColumns.mp he
  have hpositive := h run (List.mem_of_getElem? hrun)
  exact ⟨hpositive.below _ hmem, hpositive.positive _ hmem⟩

private theorem Positive.of_mem_ofRows {n k : ℕ} {runs : Runs ℚ} (h : ∀ run ∈ runs, Positive n run)
    {e : Entry ℚ} (he : e ∈ SparseMatrix.ofRows k runs) : e.column < n ∧ 0 < e.value := by
  obtain ⟨-, run, hrun, hmem⟩ := SparseMatrix.mem_ofRows.mp he
  have hpositive := h run (List.mem_of_getElem? hrun)
  exact ⟨hpositive.below _ hmem, hpositive.positive _ hmem⟩

/-- A packing problem that passes the checks of loading. -/
structure Contents.Packing (c : Contents ℚ) : Prop extends c.Accepted where
  sense : c.sense = .max
  caps : ∀ r ∈ c.rows, r.Caps
  rays : ∀ x ∈ c.columns, x.Ray
  positive : ∀ e ∈ c.entries, 0 < e.value
  covers : ∀ j < c.columns.length, ∃ e ∈ c.entries, e.column = j

theorem Contents.packing_ofColumns {rows : List (Row ℚ)} {columns : List (Column ℚ)} {runs : Runs ℚ}
    (hcaps : ∀ r ∈ rows, r.Caps) (hrays : ∀ x ∈ columns, x.Ray)
    (hrowNames : ∃ table, Names.index (α := ℚ) .row [] 0 (rows.map (·.name)) = .ok table)
    (hcolumnNames : ∃ table, Names.index (α := ℚ) .column [] 0 (columns.map (·.name)) = .ok table)
    (hlength : runs.length = columns.length) (hruns : ∀ run ∈ runs, Positive rows.length run)
    (hne : ∀ run ∈ runs, run ≠ []) :
    (⟨.max, rows, columns, SparseMatrix.ofColumns 0 runs⟩ : Contents ℚ).Packing where
  rows := Row.checkEach_eq_ok.mpr fun r hr => (hcaps r hr).usable
  columns := Column.checkEach_eq_ok.mpr fun x hx => (hrays x hx).usable
  rowNames := hrowNames
  columnNames := hcolumnNames
  inside e he := by
    refine ⟨(Positive.of_mem_ofColumns hruns he).1, ?_⟩
    obtain ⟨-, run, hrun, -⟩ := SparseMatrix.mem_ofColumns.mp he
    have hlt := (List.getElem?_eq_some_iff.mp hrun).1
    rwa [Nat.sub_zero, hlength] at hlt
  nodup := (SparseMatrix.nodup_ofColumns 0 runs).mpr fun run hrun => (hruns run hrun).nodup
  sense := rfl
  caps := hcaps
  rays := hrays
  positive e he := (Positive.of_mem_ofColumns hruns he).2
  covers j hj := by
    have hrun := List.getElem?_eq_getElem (hlength.symm ▸ hj : j < runs.length)
    obtain ⟨e, he⟩ := List.exists_mem_of_ne_nil _ (hne _ (List.mem_of_getElem? hrun))
    exact ⟨⟨e.1, j, e.2⟩, SparseMatrix.mem_ofColumns.mpr ⟨j.zero_le, _, hrun, he⟩, rfl⟩

theorem Contents.Packing.withRows {c : Contents ℚ} (hc : c.Packing) {rows : List (Row ℚ)}
    {runs : Runs ℚ} (hcaps : ∀ r ∈ rows, r.Caps ∧ r.name = none)
    (hruns : ∀ run ∈ runs, Positive c.columns.length run) (hlength : runs.length = rows.length) :
    (c.withRows rows runs).Packing where
  rows := checkEach_append.mpr
    ⟨hc.rows, Row.checkEach_eq_ok.mpr fun r hr => (hcaps r hr).1.usable⟩
  columns := hc.columns
  rowNames := by
    obtain ⟨table, htable⟩ := hc.rowNames
    refine ⟨table, ?_⟩
    rw [Contents.withRows, List.map_append]
    refine Names.index_append.mpr ⟨table, htable, Names.enter_nameless _ _ fun name hname => ?_⟩
    obtain ⟨r, hr, rfl⟩ := List.mem_map.mp hname
    exact (hcaps r hr).2
  columnNames := hc.columnNames
  inside e he := by
    rcases List.mem_append.mp he with he | he
    · obtain ⟨hrow, hcolumn⟩ := hc.inside e he
      refine ⟨hrow.trans_le ?_, hcolumn⟩
      rw [Contents.withRows, List.length_append]
      exact Nat.le_add_right _ _
    · refine ⟨?_, (Positive.of_mem_ofRows hruns he).1⟩
      rw [Contents.withRows, List.length_append, ← hlength]
      exact (SparseMatrix.row_of_mem_ofRows he).2
  nodup := by
    rw [Contents.withRows, List.map_append, List.nodup_append]
    refine ⟨hc.nodup,
      (SparseMatrix.nodup_ofRows _ _).mpr fun run hrun => (hruns run hrun).nodup, ?_⟩
    -- what was there lies in earlier rows
    rintro _ hplace _ hplace' heq
    obtain ⟨e, he, rfl⟩ := List.mem_map.mp hplace
    obtain ⟨e', he', rfl⟩ := List.mem_map.mp hplace'
    have hearlier := (hc.inside e he).1
    have hlater := (SparseMatrix.row_of_mem_ofRows he').1
    have hrow : e.row = e'.row := congrArg Prod.fst heq
    omega
  sense := hc.sense
  caps r hr := by
    rcases List.mem_append.mp hr with hr | hr
    · exact hc.caps r hr
    · exact (hcaps r hr).1
  rays := hc.rays
  positive e he := by
    rcases List.mem_append.mp he with he | he
    · exact hc.positive e he
    · exact (Positive.of_mem_ofRows hruns he).2
  covers j hj := by
    obtain ⟨e, he, hcolumn⟩ := hc.covers j hj
    exact ⟨e, List.mem_append_left _ he, hcolumn⟩

namespace SparseMatrix

private theorem valueAt_eq_sum (es : List (Entry ℚ)) (i j : ℕ) :
    valueAt es i j = ((es.filter fun e => e.row == i && e.column == j).map (·.value)).sum := by
  rw [List.sum_eq_foldl, List.foldl_map]
  rfl

variable {es : List (Entry ℚ)}

private theorem valueAt_nonneg (h : ∀ e ∈ es, 0 < e.value) (i j : ℕ) : 0 ≤ valueAt es i j := by
  rw [valueAt_eq_sum]
  refine List.sum_nonneg fun v hv => ?_
  obtain ⟨e, he, rfl⟩ := List.mem_map.mp hv
  exact (h e (List.mem_of_mem_filter he)).le

private theorem valueAt_pos (h : ∀ e ∈ es, 0 < e.value) {e : Entry ℚ} (he : e ∈ es) :
    0 < valueAt es e.row e.column := by
  rw [valueAt_eq_sum]
  refine List.sum_pos _ (fun v hv => ?_) fun hnil => ?_
  · obtain ⟨e', he', rfl⟩ := List.mem_map.mp hv
    exact h e' (List.mem_of_mem_filter he')
  · have hmem : e ∈ es.filter fun e' => e'.row == e.row && e'.column == e.column :=
      List.mem_filter.mpr ⟨he, by simp⟩
    rw [List.map_eq_nil_iff] at hnil
    rw [hnil] at hmem
    cases hmem

end SparseMatrix

namespace Instance

variable {i : Instance ℚ} {c : Contents ℚ}

private theorem Contains.caps (hi : i.Contains c) (hc : c.Packing) (k : Fin i.numRows) :
    (i.rows.get k).Caps := hc.caps _ (hi.rows ▸ List.get_mem i.rows k)

private theorem Contains.ray (hi : i.Contains c) (hc : c.Packing) (j : Fin i.numColumns) :
    (i.columns.get j).Ray := hc.rays _ (hi.columns ▸ List.get_mem i.columns j)

theorem Contains.feasible_zero (hi : i.Contains c) (hc : c.Packing) : i.Feasible 0 where
  rowLower k := by
    rw [Row.lower, (hi.caps hc k).sense]
    trivial
  rowUpper k := by
    obtain ⟨b, hb, hrhs⟩ := (hi.caps hc k).rhs
    rw [Row.upper, (hi.caps hc k).sense]
    simp only [hrhs, rowActivity, Pi.zero_apply, mul_zero, Finset.sum_const_zero]
    exact hb
  columnLower j := by
    rw [(hi.ray hc j).lower]
    exact le_refl 0
  columnUpper j := by
    rw [(hi.ray hc j).upper]
    trivial

private theorem Contains.nonneg (hi : i.Contains c) (hc : c.Packing) {v : Fin i.numColumns → ℚ}
    (hv : i.Feasible v) (j : Fin i.numColumns) : 0 ≤ v j := by
  have hlower := hv.columnLower j
  rwa [(hi.ray hc j).lower] at hlower

private theorem Contains.exists_le (hi : i.Contains c) (hc : c.Packing) (j : Fin i.numColumns) :
    ∃ u, ∀ v, i.Feasible v → v j ≤ u := by
  have hpositive : ∀ e ∈ i.matrix.entries, 0 < e.value := fun e he =>
    hc.positive e (hi.entries.mem_iff.mp he)
  obtain ⟨e, he, hcolumn⟩ := hc.covers j (hi.columns ▸ j.isLt)
  have hrow : e.row < i.numRows :=
    (hc.inside e he).1.trans_eq (congrArg List.length hi.rows).symm
  have hcoefficient : 0 < i.coefficient e.row j := by
    have := SparseMatrix.valueAt_pos hpositive (hi.entries.mem_iff.mpr he)
    rwa [hcolumn] at this
  obtain ⟨b, -, hrhs⟩ := (hi.caps hc ⟨e.row, hrow⟩).rhs
  refine ⟨b / i.coefficient e.row j, fun v hv => ?_⟩
  have hupper := hv.rowUpper ⟨e.row, hrow⟩
  rw [Row.upper, (hi.caps hc _).sense] at hupper
  simp only [hrhs] at hupper
  rw [le_div_iff₀ hcoefficient, mul_comm]
  calc i.coefficient e.row j * v j
      ≤ i.rowActivity v e.row := Finset.single_le_sum
        (f := fun j : Fin i.numColumns => i.coefficient e.row j * v j)
        (fun l _ => mul_nonneg (SparseMatrix.valueAt_nonneg hpositive _ _) (hi.nonneg hc hv l))
        (Finset.mem_univ j)
    _ ≤ b := hupper

/-- The objective is bounded on the feasible points. -/
theorem Contains.value_bounded (hi : i.Contains c) (hc : c.Packing) :
    ∃ K, ∀ v, i.Feasible v → i.value v ≤ K := by
  choose u hu using hi.exists_le hc
  refine ⟨∑ j, |(i.columns.get j).objective.toScalar| * u j, fun v hv => ?_⟩
  refine Finset.sum_le_sum fun j _ => ?_
  calc (i.columns.get j).objective.toScalar * v j
      ≤ |(i.columns.get j).objective.toScalar| * v j :=
        mul_le_mul_of_nonneg_right (le_abs_self _) (hi.nonneg hc hv j)
    _ ≤ |(i.columns.get j).objective.toScalar| * u j :=
        mul_le_mul_of_nonneg_left (hu j v hv) (abs_nonneg _)

theorem Confirms.of_packing {r : SolveResult ℚ} (hr : i.Confirms r) (hi : i.Contains c)
    (hc : c.Packing) : r.status ≠ .infeasible ∧ r.status ≠ .unbounded := by
  refine ⟨fun hstatus => hr.infeasible hstatus 0 (hi.feasible_zero hc), fun hstatus => ?_⟩
  obtain ⟨K, hK⟩ := hi.value_bounded hc
  obtain ⟨v, hv, hbetter⟩ := hr.unbounded hstatus K
  rw [hi.sense, hc.sense] at hbetter
  exact absurd hbetter (not_lt.mpr (hK v hv))

end Instance

end IncrementalLP
