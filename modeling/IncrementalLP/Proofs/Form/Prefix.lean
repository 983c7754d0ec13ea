import IncrementalLP.Proofs.Form.Layout
import IncrementalLP.Proofs.Instance.History
/-!
# Forms of instances that begin alike

An instance with more rows has all rows of the earlier form and all of its structural columns in
its own form, with the same entries in the rows that both have. Which artificial columns there are
is for the signs to say.
-/
namespace IncrementalLP

variable {α : Type} [Scalar α]

omit [Scalar α] in
theorem signOf?_eq_some {l : List (Label × α)} {a : Label} {s : α} (hmem : (a, s) ∈ l)
    (hunique : ∀ t, (a, t) ∈ l → t = s) : signOf? l a = some s := by
  unfold signOf?
  cases h : l.find? (·.1 == a) with
  | none =>
      rw [List.find?_eq_none] at h
      exact absurd (beq_self_eq_true a) (h _ hmem)
  | some e =>
      have hlabel : e.1 = a := by simpa using List.find?_some h
      have hfound : (a, e.2) ∈ l := by
        rw [← hlabel]
        exact List.mem_of_find?_eq_some h
      rw [Option.map_some, hunique _ hfound]

omit [Scalar α] in
theorem signOf?_eq_none {l : List (Label × α)} {a : Label} (h : ∀ e ∈ l, e.1 ≠ a) :
    signOf? l a = none := by
  unfold signOf?
  rw [List.find?_eq_none.mpr fun e he => by simpa using h e he]
  rfl

omit [Scalar α] in
theorem mem_of_signOf? {l : List (Label × α)} {a : Label} {s : α} (h : signOf? l a = some s) :
    (a, s) ∈ l := by
  obtain ⟨e, he, rfl⟩ := Option.map_eq_some_iff.mp h
  have hlabel : e.1 = a := by simpa using List.find?_some he
  rw [← hlabel]
  exact List.mem_of_find?_eq_some he

namespace RowPlan

variable {P : RowPlan α} {signs : Option (List (Label × α))} {stored : List (Label × α)}

theorem mem_sign {e : Label × α} :
    e ∈ P.sign signs ↔ ∃ s, P.artificial? signs = some s ∧ e = (.artificial P.label, s) := by
  unfold sign
  cases P.artificial? signs <;> simp

theorem artificial?_of_signOf? {s : α} (h : signOf? stored (.artificial P.label) = some s) :
    P.artificial? (some stored) = some s := by
  cases hslack : P.slack <;> simp only [artificial?, hslack, h]

theorem artificial?_of_signOf?_eq_none (hnone : P.artificial? signs = none)
    (h : signOf? stored (.artificial P.label) = none) : P.artificial? (some stored) = none := by
  cases hslack : P.slack with
  | none =>
      obtain ⟨s, hs⟩ := P.exists_artificial signs hslack
      rw [hnone] at hs
      cases hs
  | some s => simp only [artificial?, hslack, h]

end RowPlan

namespace Instance

section

variable {i : Instance α} {signs : Option (List (Label × α))}

/-- The sign under which an artificial column enters a form. -/
theorem signOf?_standardForm {P : RowPlan α} (hP : P ∈ i.plans) {s : α}
    (hs : P.artificial? signs = some s) :
    signOf? (i.standardForm signs).signs (.artificial P.label) = some s := by
  rw [standardForm_signs]
  apply signOf?_eq_some
  · exact List.mem_flatMap.mpr ⟨P, hP, RowPlan.mem_sign.mpr ⟨s, hs, rfl⟩⟩
  · intro t ht
    obtain ⟨Q, hQ, hmem⟩ := List.mem_flatMap.mp ht
    obtain ⟨u, hu, heq⟩ := RowPlan.mem_sign.mp hmem
    obtain ⟨hlabel, rfl⟩ := Prod.mk.inj heq
    have hPQ : P = Q := List.inj_on_of_nodup_map i.plans_nodup hP hQ (Label.artificial.inj hlabel)
    rw [← hPQ, hs] at hu
    exact (Option.some.inj hu).symm

theorem mem_columns_of_plan {P : RowPlan α} (hP : P ∈ i.plans) {c : FormColumn α}
    (hc : c ∈ P.slackColumns (i.sense.toMax 0) ++ P.artificialColumns (i.sense.toMax 0) signs) :
    c ∈ (i.standardForm signs).columns := by
  rw [← P.columns_row] at hc
  exact mem_columns.mpr (Or.inr ⟨P, hP, hc⟩)

theorem artificial_notMem_labels {P : RowPlan α} (hP : P ∈ i.plans)
    (hnone : P.artificial? signs = none) :
    .artificial P.label ∉ (i.standardForm signs).labels := by
  intro hl
  obtain ⟨c, hc, hlabel⟩ := List.mem_map.mp hl
  rcases mem_columns.mp hc with hc | ⟨Q, hQ, hc⟩
  · obtain ⟨s, hs, rfl⟩ := List.mem_map.mp hc
    have hvariable := i.isArtificial_of_mem_structurals hs
    rw [show s.label = .artificial P.label from hlabel] at hvariable
    cases hvariable
  · have howner := Q.owner?_of_mem_columns _ _ hc
    rw [hlabel] at howner
    have hQP : Q = P :=
      List.inj_on_of_nodup_map i.plans_nodup hQ hP (Option.some.inj howner).symm
    rw [hQP, P.columns_row, RowPlan.artificialColumns, hnone] at hc
    obtain ⟨s, -, rfl⟩ := List.mem_map.mp (List.append_nil (P.slackColumns _) ▸ hc)
    have hslack := P.label.isArtificial_slack
    rw [show P.label.slack = .artificial P.label from hlabel] at hslack
    cases hslack

theorem mem_rowLabels_of_owner? {l : Label} (hl : l ∈ (i.standardForm signs).labels)
    {r : RowLabel} (hr : l.owner? = some r) : r ∈ (i.standardForm signs).rowLabels := by
  obtain ⟨c, hc, rfl⟩ := List.mem_map.mp hl
  rcases mem_columns.mp hc with hc | ⟨P, hP, hc⟩
  · obtain ⟨s, hs, rfl⟩ := List.mem_map.mp hc
    rw [i.owner?_of_mem_structurals hs] at hr
    cases hr
  · rw [P.owner?_of_mem_columns _ _ hc] at hr
    rw [rowLabels_standardForm, ← Option.some.inj hr]
    exact List.mem_map_of_mem hP

end

theorem denseRows_eq {i : Instance α} (hi : i.Sound) : i.denseRows =
    (List.range i.numRows).map fun k =>
      (List.range i.numColumns).map (SparseMatrix.valueAt i.matrix.entries k) := by
  unfold denseRows
  split
  · next hrows =>
    rw [numRows, List.isEmpty_iff.mp hrows]
    rfl
  · unfold SparseMatrix.dense
    rw [hi.matrixRows, hi.matrixColumns]

theorem getD_denseRows {i : Instance α} (hi : i.Sound) {k : ℕ} (hk : k < i.numRows) :
    i.denseRows.getD k [] =
      (List.range i.numColumns).map (SparseMatrix.valueAt i.matrix.entries k) := by
  simp [denseRows_eq hi, hk]

/-- What the form reads of the first instance is what it reads first of the second one. -/
structure Prefix (i j : Instance α) : Prop where
  sense : j.sense = i.sense
  columns : j.columns.map Column.bare = i.columns.map Column.bare
  rows : i.rows.map Row.bare <+: j.rows.map Row.bare
  dense : ∀ k < i.numRows, j.denseRows.getD k [] = i.denseRows.getD k []

namespace Prefix

variable {i j : Instance α}

private theorem numRows_le (h : Prefix i j) : i.numRows ≤ j.numRows := by
  have hlength := h.rows.length_le
  rwa [List.length_map, List.length_map] at hlength

private theorem numColumns_eq (h : Prefix i j) : j.numColumns = i.numColumns :=
  length_eq_of_map_eq h.columns

private theorem rows_get (h : Prefix i j) (k : Fin i.numRows) :
    (j.rows.get ⟨k, lt_of_lt_of_le k.isLt h.numRows_le⟩).bare = (i.rows.get k).bare := by
  have hk : (k : ℕ) < (i.rows.map Row.bare).length := by
    rw [List.length_map]
    exact k.isLt
  have hget := h.rows.getElem hk
  rw [List.getElem_map, List.getElem_map] at hget
  exact hget.symm

private theorem columns_get (h : Prefix i j) (l : Fin i.numColumns) :
    (j.columns.get ⟨l, lt_of_lt_of_eq l.isLt h.numColumns_eq.symm⟩).bare =
      (i.columns.get l).bare :=
  get_cast_of_map_eq h.columns h.numColumns_eq.symm l

private theorem map_columns (h : Prefix i j) {β : Type} (g : Column α → β)
    (hg : ∀ c : Column α, g c.bare = g c) : j.columns.map g = i.columns.map g := by
  have hmap := congrArg (List.map g) h.columns
  rw [List.map_map, List.map_map] at hmap
  have hcomp : g ∘ Column.bare = g := funext hg
  rwa [hcomp] at hmap

private theorem offsets_eq (h : Prefix i j) : j.offsets = i.offsets :=
  h.map_columns Column.offset fun _ => rfl

private theorem objectives_eq (h : Prefix i j) : j.objectives = i.objectives :=
  h.map_columns (fun c => c.objective.toScalar) fun _ => rfl

private theorem structurals_eq (h : Prefix i j) : j.structurals = i.structurals :=
  flatMap_zipIdx_congr (fun c k => Column.structurals k c) h.columns fun _ _ => rfl

theorem plans_subset (h : Prefix i j) {P : RowPlan α} (hP : P ∈ i.plans) : P ∈ j.plans := by
  rcases mem_plans.mp hP with ⟨k, hP⟩ | ⟨l, hP⟩
  · refine mem_plans.mpr (Or.inl ⟨⟨k, lt_of_lt_of_le k.isLt h.numRows_le⟩, ?_⟩)
    rw [h.dense k k.isLt, h.offsets_eq]
    have hplans := congrArg
      (fun r => r.plans k (activity (i.denseRows.getD k []) i.offsets)) (h.rows_get k)
    exact (congrArg (P ∈ ·) hplans).mpr hP
  · refine mem_plans.mpr (Or.inr ⟨⟨l, lt_of_lt_of_eq l.isLt h.numColumns_eq.symm⟩, ?_⟩)
    have hplans := congrArg (Column.plans l) (h.columns_get l)
    exact (congrArg (P ∈ ·) hplans).mpr hP

/-- Columns of variables keep their entries in the rows that stay. -/
theorem entry_eq (h : Prefix i j) {P : RowPlan α} (hP : P ∈ i.plans) (s : Structural α) :
    s.entry j.denseRows P.label = s.entry i.denseRows P.label := by
  rcases mem_plans.mp hP with ⟨k, hP⟩ | ⟨l, hP⟩
  · have hrow := h.dense k k.isLt
    rcases label_of_mem_rowPlans hP with hlabel | hlabel
    · rw [hlabel, Structural.entry, Structural.entry, denseEntry, denseEntry, hrow]
    · rw [hlabel, Structural.entry, Structural.entry, denseEntry, denseEntry, hrow]
  · obtain ⟨width, -, rfl⟩ := mem_columnPlans hP
    rfl

variable {signs signs' : Option (List (Label × α))}

theorem standardForm_eq (h : Prefix i j) (hrows : j.numRows = i.numRows)
    (hdense : j.denseRows = i.denseRows) : j.standardForm signs = i.standardForm signs := by
  have hbare : j.rows.map Row.bare = i.rows.map Row.bare :=
    (h.rows.eq_of_length (by rw [List.length_map, List.length_map]; exact hrows.symm)).symm
  have hplans : j.plans = i.plans := by
    unfold plans
    rw [hdense, h.offsets_eq]
    congr 1
    · exact flatMap_zipIdx_congr
        (fun (r : Row α) k => r.plans k (activity (i.denseRows.getD k []) i.offsets)) hbare
        fun _ _ => rfl
    · exact flatMap_zipIdx_congr (fun c k => Column.plans k c) h.columns fun _ _ => rfl
  have hform : ∀ k : Instance α, k.standardForm signs =
      ⟨k.structurals, k.structurals.map fun s =>
          ⟨s.label, k.sense.toMax (0 + k.objectives.getD s.column 0 * s.factor),
            s.entry k.denseRows⟩,
        k.offsets, k.plans.map (·.row (k.sense.toMax 0) signs), k.plans.flatMap (·.sign signs),
        k.numRows, activity k.objectives k.offsets⟩ := fun _ => rfl
  rw [hform, hform, h.structurals_eq, h.sense, h.objectives_eq, hdense, h.offsets_eq, hplans, hrows]

theorem exists_structural (h : Prefix i j) {c : FormColumn α}
    (hc : c ∈ (i.standardForm signs).structuralColumns) :
    ∃ d ∈ (j.standardForm signs').structuralColumns, d.label = c.label ∧ d.cost = c.cost ∧
      ∀ r ∈ (i.standardForm signs).rows, d.entry r.label = c.entry r.label := by
  obtain ⟨s, hs, rfl⟩ := List.mem_map.mp hc
  have hs' : s ∈ j.structurals := h.structurals_eq ▸ hs
  refine ⟨_, List.mem_map_of_mem hs', rfl, ?_, ?_⟩
  · rw [h.sense, h.objectives_eq]
  · intro r hr
    obtain ⟨P, hP, rfl⟩ := List.mem_map.mp hr
    rw [label_row]
    exact h.entry_eq hP s

private theorem exists_plan_of_fresh (h : Prefix i j) {c : FormColumn α}
    (hc : c ∈ (j.standardForm signs').columns) (hlabel : c.label ∉ (i.standardForm signs).labels) :
    ∃ P ∈ j.plans, c ∈ (P.row (j.sense.toMax 0) signs').columns := by
  rcases mem_columns.mp hc with hc | hc
  · obtain ⟨s, hs, rfl⟩ := List.mem_map.mp hc
    have hs' : s ∈ i.structurals := h.structurals_eq ▸ hs
    exact absurd (List.mem_map_of_mem (mem_columns.mpr (Or.inl (List.mem_map_of_mem hs')))) hlabel
  · exact hc

/-- A new column has no entry in the earlier rows, if the columns of these are the same as
before. -/
theorem entry_fresh (h : Prefix i j)
    (hplan : ∀ P ∈ i.plans, ∀ c ∈ (P.row (j.sense.toMax 0) signs').columns,
      c.label ∈ (i.standardForm signs).labels) {c : FormColumn α}
    (hc : c ∈ (j.standardForm signs').columns) (hlabel : c.label ∉ (i.standardForm signs).labels) :
    c.cost = j.sense.toMax 0 ∧ ∀ r ∈ (i.standardForm signs).rows, c.entry r.label = 0 := by
  obtain ⟨P, hP, hc⟩ := h.exists_plan_of_fresh hc hlabel
  refine ⟨P.cost_of_mem_columns _ _ hc, fun r hr => ?_⟩
  obtain ⟨Q, hQ, rfl⟩ := List.mem_map.mp hr
  rw [label_row]
  apply P.entry_of_mem_columns _ _ hc
  intro heq
  have hQP : Q = P := List.inj_on_of_nodup_map j.plans_nodup (h.plans_subset hQ) hP heq
  subst hQP
  exact hlabel (hplan Q hQ c hc)

end Prefix

end Instance

end IncrementalLP
