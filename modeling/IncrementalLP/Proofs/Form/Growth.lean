import IncrementalLP.Proofs.Form.Carry
import IncrementalLP.Proofs.Form.Start
import IncrementalLP.Proofs.Instance.Growth
/-!
# Forms of growing instances

The form of an instance with appended rows, given the signs that were stored with a basis, extends
the form to which the basis belongs.
-/
namespace IncrementalLP

open Program

namespace StandardForm

variable {f : StandardForm ℚ} (β : Basis f.rows.length f.columns.length)
  (signs : Vector ℚ f.columns.length)

private theorem mem_payload_signs {e : Label × ℚ} : e ∈ (f.payload β signs).signs ↔
    ∃ j, (f.columns.get j).label.isArtificial = true ∧
      e = ((f.columns.get j).label, signs.get j) := by
  simp only [payload, List.mem_map, List.mem_filter, List.mem_finRange, true_and]
  constructor
  · rintro ⟨j, hj, rfl⟩
    exact ⟨j, hj, rfl⟩
  · rintro ⟨j, hj, rfl⟩
    exact ⟨j, hj, rfl⟩

private theorem signOf?_payload (hf : f.labels.Nodup) {j : Fin f.columns.length}
    (hj : (f.columns.get j).label.isArtificial = true) :
    signOf? (f.payload β signs).signs (f.columns.get j).label = some (signs.get j) := by
  apply signOf?_eq_some
  · exact (mem_payload_signs β signs).mpr ⟨j, hj, rfl⟩
  · intro t ht
    obtain ⟨k, -, heq⟩ := (mem_payload_signs β signs).mp ht
    obtain ⟨hlabel, rfl⟩ := Prod.mk.inj heq
    rw [place_ext hf hlabel]

private theorem signOf?_payload_eq_none {l : Label} (hl : l ∉ f.labels) :
    signOf? (f.payload β signs).signs l = none := by
  apply signOf?_eq_none
  rintro e he rfl
  obtain ⟨j, -, rfl⟩ := (mem_payload_signs β signs).mp he
  exact hl (List.mem_map_of_mem (List.get_mem f.columns j))

end StandardForm

namespace Instance

variable {i j : Instance ℚ}

private theorem Grown.begins (h : Grown i j) (hi : i.Sound) (hj : j.Sound) : Prefix i j where
  sense := h.sense
  columns := h.columns
  rows := by
    obtain ⟨new, hrows⟩ := h.rows
    exact ⟨new, hrows.symm⟩
  dense k hk := by
    rw [getD_denseRows hi hk, getD_denseRows hj (lt_of_lt_of_le hk h.numRows_le), h.numColumns_eq]
    apply List.map_congr_left
    intro l _
    exact h.coefficient k hk l

variable {signs : Option (List (Label × ℚ))} {ε : Fin (i.standardForm signs).columns.length → ℚ}
  {stored : List (Label × ℚ)}

/-- What a list says of the artificial columns of a form whose signs have changed. -/
structure Stores (i : Instance ℚ) (signs : Option (List (Label × ℚ)))
    (ε : Fin (i.standardForm signs).columns.length → ℚ) (stored : List (Label × ℚ)) : Prop where
  kept : ∀ P ∈ i.plans, ∀ a, P.artificial? signs = some a →
    ∀ c, ((i.standardForm signs).columns.get c).label = .artificial P.label →
      P.artificial? (some stored) = some (ε c * a)
  absent : ∀ P ∈ i.plans, P.artificial? signs = none → P.artificial? (some stored) = none
  fresh : ∀ l ∉ (i.standardForm signs).labels, signOf? stored l = none

theorem stores_payload
    {q : Program ℚ (i.standardForm signs).rows.length (i.standardForm signs).columns.length}
    (hε : SignChange (i.standardForm signs).program q ε)
    (β : Basis (i.standardForm signs).rows.length (i.standardForm signs).columns.length) :
    Stores i signs ε ((i.standardForm signs).payload β q.signs).signs := by
  have hfresh : ∀ l ∉ (i.standardForm signs).labels,
      signOf? ((i.standardForm signs).payload β q.signs).signs l = none :=
    fun l hl => StandardForm.signOf?_payload_eq_none β q.signs hl
  refine ⟨?_, ?_, hfresh⟩
  · intro P hP a ha c hc
    have hartificial : ((i.standardForm signs).columns.get c).label.isArtificial = true := by
      rw [hc]
      rfl
    have hsign := StandardForm.signOf?_payload β q.signs (i.labels_nodup signs) hartificial
    rw [hε.sign, StandardForm.get_signs, hc, signOf?_standardForm hP ha, Option.getD_some] at hsign
    exact RowPlan.artificial?_of_signOf? hsign
  · intro P hP hnone
    exact RowPlan.artificial?_of_signOf?_eq_none hnone
      (hfresh _ (artificial_notMem_labels hP hnone))

theorem artificial_mem_columns {P : RowPlan ℚ} {a : ℚ} (ha : P.artificial? signs = some a)
    (zero : ℚ) : FormColumn.single (.artificial P.label) zero P.label a ∈
      P.artificialColumns zero signs := by
  rw [RowPlan.artificialColumns, ha]
  exact List.mem_singleton_self _

private theorem Prefix.exists_column (h : Prefix i j)
    (hfixed : ∀ c, ((i.standardForm signs).columns.get c).label.isArtificial = false → ε c = 1)
    (hstored : Stores i signs ε stored) (c : Fin (i.standardForm signs).columns.length) :
    ∃ d ∈ (j.standardForm (some stored)).columns,
      d.label = ((i.standardForm signs).columns.get c).label ∧
      d.cost = ((i.standardForm signs).columns.get c).cost ∧
      ∀ r ∈ (i.standardForm signs).rows, d.entry r.label =
        ε c * ((i.standardForm signs).columns.get c).entry r.label := by
  rcases mem_columns.mp (List.get_mem (i.standardForm signs).columns c) with hc | ⟨P, hP, hc⟩
  · obtain ⟨d, hd, hlabel, hcost, hentry⟩ := h.exists_structural hc
    have hunit : ε c = 1 := by
      apply hfixed
      obtain ⟨s, hs, heq⟩ := List.mem_map.mp hc
      rw [← heq]
      exact i.isArtificial_of_mem_structurals hs
    rw [hunit]
    exact ⟨d, mem_columns.mpr (Or.inl hd), hlabel, hcost,
      fun r hr => (hentry r hr).trans (one_mul _).symm⟩
  · have hP' := h.plans_subset hP
    rw [P.columns_row, List.mem_append] at hc
    rcases hc with hc | hc
    · have hunit : ε c = 1 := by
        apply hfixed
        obtain ⟨s, -, heq⟩ := List.mem_map.mp hc
        rw [← heq]
        exact P.label.isArtificial_slack
      refine ⟨_, mem_columns_of_plan hP' (List.mem_append_left _ (h.sense ▸ hc)), rfl, rfl, ?_⟩
      intro r _
      rw [hunit, one_mul]
    · obtain ⟨a, ha, heq⟩ := List.mem_map.mp hc
      rw [Option.mem_toList] at ha
      have hlabel : ((i.standardForm signs).columns.get c).label = .artificial P.label := by
        rw [← heq]
        rfl
      have hmem := artificial_mem_columns (hstored.kept P hP a ha c hlabel) (j.sense.toMax 0)
      refine ⟨_, mem_columns_of_plan hP' (List.mem_append_right _ hmem), hlabel.symm, ?_, ?_⟩
      · rw [← heq, h.sense]
        rfl
      · intro r _
        rw [← heq]
        simp only [FormColumn.single]
        rw [mul_ite, mul_zero]

private theorem Prefix.label_mem_of_plan (h : Prefix i j) (hstored : Stores i signs ε stored)
    {P : RowPlan ℚ} (hP : P ∈ i.plans) {c : FormColumn ℚ}
    (hc : c ∈ (P.row (j.sense.toMax 0) (some stored)).columns) :
    c.label ∈ (i.standardForm signs).labels := by
  rw [P.columns_row, List.mem_append] at hc
  rcases hc with hc | hc
  · exact List.mem_map_of_mem (mem_columns_of_plan hP (List.mem_append_left _ (h.sense ▸ hc)))
  · obtain ⟨b, hb, rfl⟩ := List.mem_map.mp hc
    rw [Option.mem_toList] at hb
    cases ha : P.artificial? signs with
    | none =>
        rw [hstored.absent P hP ha] at hb
        cases hb
    | some a =>
        have hmem := artificial_mem_columns ha (i.sense.toMax 0)
        exact List.mem_map.mpr
          ⟨_, mem_columns_of_plan hP (List.mem_append_right _ hmem), rfl⟩

private theorem natural_fresh (hstored : Stores i signs ε stored) {P : RowPlan ℚ}
    (hP : P ∈ j.plans) (hlabel : P.label ∉ (i.standardForm signs).rowLabels) :
    (P.row (j.sense.toMax 0) (some stored)).natural.label ∉ (i.standardForm signs).labels ∧
      (P.row (j.sense.toMax 0) (some stored)).natural.entry P.label ≠ 0 ∧
      ∀ l, l ≠ P.label → (P.row (j.sense.toMax 0) (some stored)).natural.entry l = 0 := by
  have hnatural : (P.row (j.sense.toMax 0) (some stored)).natural ∈
      (P.row (j.sense.toMax 0) (some stored)).columns := List.mem_cons_self
  refine ⟨fun hmem => ?_, ?_, fun l hl => P.entry_of_mem_columns _ _ hnatural hl⟩
  · exact hlabel (mem_rowLabels_of_owner? hmem (P.owner?_of_mem_columns _ _ hnatural))
  · have hfresh : signOf? stored (.artificial P.label) = none := by
      apply hstored.fresh
      intro hmem
      exact hlabel (mem_rowLabels_of_owner? hmem rfl)
    cases hslack : P.slack with
    | some s =>
        have hunit := unital_of_mem_plans hP s hslack
        simp only [RowPlan.row, hslack, FormColumn.single, if_pos]
        exact left_ne_zero_of_mul_eq_one hunit
    | none =>
        have hone : P.artificial? (some stored) = some 1 := by
          simp only [RowPlan.artificial?, hslack, hfresh]
        simp only [RowPlan.row, hslack, hone, Option.map_some, Option.getD_some,
          FormColumn.single, if_pos]
        exact one_ne_zero

/-- The form of the larger instance extends the form of a stored basis. -/
theorem Grown.standardForm_extends (h : Grown i j) (hi : i.Sound) (hj : j.Sound)
    {q : Program ℚ (i.standardForm signs).rows.length (i.standardForm signs).columns.length}
    (hε : SignChange (i.standardForm signs).program q ε)
    (β : Basis (i.standardForm signs).rows.length (i.standardForm signs).columns.length) :
    StandardForm.Extends (i.standardForm signs)
      (j.standardForm (some ((i.standardForm signs).payload β q.signs).signs)) ε := by
  have hstored := stores_payload hε β
  have h := h.begins hi hj
  refine ⟨i.labels_nodup signs, i.rowLabels_nodup signs, j.labels_nodup _, j.rowLabels_nodup _,
    ?_, ?_, ?_, ?_⟩
  · intro r hr
    obtain ⟨P, hP, rfl⟩ := List.mem_map.mp hr
    refine ⟨_, List.mem_map_of_mem (h.plans_subset hP), ?_⟩
    rw [label_row, label_row]
  · refine h.exists_column (fun c hc => hε.fixed c ?_) hstored
    rw [StandardForm.get_barred]
    exact hc
  · intro c hc hlabel
    obtain ⟨hcost, hentry⟩ :=
      h.entry_fresh (fun P hP c hc => h.label_mem_of_plan hstored hP hc) hc hlabel
    exact ⟨hcost.trans (toMax_zero _), hentry⟩
  · intro r hr hlabel
    obtain ⟨P, hP, rfl⟩ := List.mem_map.mp hr
    rw [label_row] at hlabel ⊢
    exact natural_fresh hstored hP hlabel

end Instance

end IncrementalLP
