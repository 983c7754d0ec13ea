import IncrementalLP.Proofs.Simplex.Basis
/-!
# The layout of the standard form

The rows and columns of a form are known by labels that differ from each other, and every column
of a row has an entry in that row only.
-/
namespace IncrementalLP

section

variable {α β κ : Type}

private theorem nodup_flatMap_of_key {l : List α} {f : α → List β} (k : α → κ) (key : β → κ)
    (hkey : ∀ a ∈ l, ∀ b ∈ f a, key b = k a) (hl : (l.map k).Nodup)
    (hf : ∀ a ∈ l, (f a).Nodup) : (l.flatMap f).Nodup := by
  rw [List.nodup_flatMap]
  refine ⟨hf, ?_⟩
  rw [List.Nodup, List.pairwise_map] at hl
  refine hl.imp_of_mem fun {a b} ha hb hab c hca hcb => ?_
  exact hab ((hkey a ha c hca).symm.trans (hkey b hb c hcb))

private theorem nodup_zipIdx_flatMap (l : List α) {f : α × ℕ → List β} (key : β → ℕ)
    (hkey : ∀ e, ∀ b ∈ f e, key b = e.2) (hf : ∀ e, (f e).Nodup) :
    (l.zipIdx.flatMap f).Nodup := by
  apply nodup_flatMap_of_key Prod.snd key (fun e _ => hkey e) _ fun e _ => hf e
  rw [List.zipIdx_map_snd]
  exact List.nodup_range'

theorem mem_zipIdx_iff {l : List α} {e : α × ℕ} :
    e ∈ l.zipIdx ↔ ∃ j : Fin l.length, e = (l.get j, (j : ℕ)) := by
  constructor
  · intro h
    obtain ⟨hj, he⟩ := List.mem_zipIdx' h
    exact ⟨⟨e.2, hj⟩, Prod.ext he rfl⟩
  · rintro ⟨j, rfl⟩
    exact List.mk_mem_zipIdx_iff_getElem?.mpr (List.getElem?_eq_getElem j.isLt)

theorem sum_zipIdx (l : List α) (g : α × ℕ → ℚ) :
    (l.zipIdx.map g).sum = ∑ j : Fin l.length, g (l.get j, j) := by
  have h : l.zipIdx.map g = List.ofFn fun j : Fin l.length => g (l.get j, j) := by
    apply List.ext_getElem
    · simp
    · intro k hk hk'
      simp
  rw [h, List.sum_ofFn]

theorem sum_get (l : List α) (g : α → ℚ) : ∑ j, g (l.get j) = (l.map g).sum :=
  Fin.sum_univ_fun_getElem l g

theorem sum_flatMap (l : List α) (f : α → List β) (g : β → ℚ) :
    ((l.flatMap f).map g).sum = (l.map fun a => ((f a).map g).sum).sum := by
  induction l with
  | nil => rfl
  | cons a l ih => simp [List.flatMap_cons, ih]

theorem sum_map_eq_zero {l : List α} {g : α → ℚ} (h : ∀ a ∈ l, g a = 0) : (l.map g).sum = 0 :=
  List.sum_eq_zero (List.forall_mem_map.mpr h)

theorem sum_ite_key [DecidableEq κ] {l : List α} (k : α → κ) (hl : (l.map k).Nodup) {a : α}
    (ha : a ∈ l) (g : α → ℚ) : (l.map fun b => if k a = k b then g b else 0).sum = g a := by
  induction l with
  | nil => cases ha
  | cons b l ih =>
      rw [List.map_cons, List.nodup_cons] at hl
      rw [List.map_cons, List.sum_cons]
      rcases List.mem_cons.mp ha with rfl | ha
      · have hrest : (l.map fun c => if k a = k c then g c else 0).sum = 0 := by
          apply sum_map_eq_zero
          intro c hc
          exact if_neg fun h : k a = k c => hl.1 (h ▸ List.mem_map_of_mem hc)
        rw [if_pos rfl, hrest, add_zero]
      · have hne : k a ≠ k b := fun h => hl.1 (h ▸ List.mem_map_of_mem ha)
        rw [if_neg hne, zero_add, ih hl.2 ha]

end

/-- The row of the form to which a column belongs; none for the columns of variables. -/
def Label.owner? : Label → Option RowLabel
  | .slack i => some (.row i)
  | .slackLow i => some (.rowLow i)
  | .boundSlack j => some (.bound j)
  | .artificial r => some r
  | .foreign s => some (.foreign s)
  | _ => none

/-- The variable that a column stands for. -/
def Label.variable : Label → ℕ
  | .var j | .varPos j | .varNeg j => j
  | _ => 0

def RowLabel.ordinal : RowLabel → ℕ
  | .row i | .rowLow i => i
  | .bound j => j
  | .foreign _ => 0

@[simp] theorem RowLabel.owner?_slack (r : RowLabel) : r.slack.owner? = some r := by
  cases r <;> rfl

@[simp] theorem RowLabel.isArtificial_slack (r : RowLabel) : r.slack.isArtificial = false := by
  cases r <;> rfl

theorem Label.owner?_of_isArtificial {l : Label} (h : l.isArtificial = true) :
    ∃ r, l = .artificial r := by
  cases l with
  | artificial r => exact ⟨r, rfl⟩
  | _ => cases h

namespace Instance

variable {α : Type} [Scalar α] (i : Instance α) (signs : Option (List (Label × α)))

/-- The matrix of the instance as the form reads it. -/
def denseRows : List (List α) := if i.rows.isEmpty then [] else i.matrix.dense

def offsets : List α := i.columns.map (·.offset)

def structurals : List (Structural α) :=
  i.columns.zipIdx.flatMap fun (c, j) => c.structurals j

/-- The rows of the form before their columns are chosen. -/
def plans : List (RowPlan α) :=
  (i.rows.zipIdx.flatMap fun (r, k) =>
      r.plans k (activity (i.denseRows.getD k []) i.offsets)) ++
    i.columns.zipIdx.flatMap fun (c, j) => c.plans j

theorem standardForm_rows : (i.standardForm signs).rows =
    i.plans.map (·.row (i.sense.toMax 0) signs) := rfl

theorem standardForm_structuralColumns : (i.standardForm signs).structuralColumns =
    i.structurals.map fun s =>
      ⟨s.label, i.sense.toMax (0 + i.objectives.getD s.column 0 * s.factor),
        s.entry i.denseRows⟩ := rfl

theorem standardForm_structurals : (i.standardForm signs).structurals = i.structurals := rfl

theorem standardForm_signs : (i.standardForm signs).signs = i.plans.flatMap (·.sign signs) := rfl

theorem rowLabels_standardForm : (i.standardForm signs).rowLabels = i.plans.map (·.label) := by
  rw [StandardForm.rowLabels, standardForm_rows, List.map_map]
  apply List.map_congr_left
  intro P _
  simp only [Function.comp_apply, RowPlan.row]
  split <;> rfl

theorem label_of_mem_rowPlans {r : Row α} {k : ℕ} {shift : α} {P : RowPlan α}
    (h : P ∈ r.plans k shift) : P.label = .row k ∨ P.label = .rowLow k := by
  unfold Row.plans at h
  split at h
  · cases h
  · split at h <;> simp only [List.mem_cons, List.not_mem_nil, or_false] at h
    · subst h
      exact Or.inl rfl
    · subst h
      exact Or.inl rfl
    · subst h
      exact Or.inl rfl
    · rcases h with rfl | rfl
      · exact Or.inl rfl
      · exact Or.inr rfl

private theorem nodup_rowPlans (r : Row α) (k : ℕ) (shift : α) :
    ((r.plans k shift).map (·.label)).Nodup := by
  unfold Row.plans
  split
  · exact List.nodup_nil
  · split <;> simp

theorem mem_columnPlans {c : Column α} {j : ℕ} {P : RowPlan α} (h : P ∈ c.plans j) :
    ∃ width, c.width? = some width ∧ P = ⟨.bound j, width, some 1⟩ := by
  unfold Column.plans at h
  split at h
  · next width hwidth => exact ⟨width, hwidth, List.mem_singleton.mp h⟩
  · cases h

variable {i} in
theorem mem_plans {P : RowPlan α} : P ∈ i.plans ↔
    (∃ k : Fin i.numRows,
      P ∈ (i.rows.get k).plans k (activity (i.denseRows.getD k []) i.offsets)) ∨
    ∃ j : Fin i.numColumns, P ∈ (i.columns.get j).plans j := by
  unfold plans
  rw [List.mem_append, List.mem_flatMap, List.mem_flatMap]
  constructor
  · rintro (⟨e, he, hP⟩ | ⟨e, he, hP⟩)
    · obtain ⟨k, rfl⟩ := mem_zipIdx_iff.mp he
      exact Or.inl ⟨k, hP⟩
    · obtain ⟨j, rfl⟩ := mem_zipIdx_iff.mp he
      exact Or.inr ⟨j, hP⟩
  · rintro (⟨k, hP⟩ | ⟨j, hP⟩)
    · exact Or.inl ⟨_, mem_zipIdx_iff.mpr ⟨k, rfl⟩, hP⟩
    · exact Or.inr ⟨_, mem_zipIdx_iff.mpr ⟨j, rfl⟩, hP⟩

variable {i} in
theorem slack_of_mem_plans {P : RowPlan α} (hP : P ∈ i.plans) {s : α} (hs : P.slack = some s) :
    s = 1 ∨ s = -1 := by
  rcases mem_plans.mp hP with ⟨k, hP⟩ | ⟨j, hP⟩
  · unfold Row.plans at hP
    split at hP
    · cases hP
    · split at hP <;> simp only [List.mem_cons, List.not_mem_nil, or_false] at hP
      · subst hP
        exact Or.inl (Option.some.inj hs).symm
      · subst hP
        exact Or.inr (Option.some.inj hs).symm
      · subst hP
        cases hs
      · rcases hP with rfl | rfl
        · exact Or.inl (Option.some.inj hs).symm
        · exact Or.inr (Option.some.inj hs).symm
  · obtain ⟨width, -, rfl⟩ := mem_columnPlans hP
    exact Or.inl (Option.some.inj hs).symm

theorem plans_nodup : (i.plans.map (·.label)).Nodup := by
  unfold plans
  rw [List.map_append, List.nodup_append]
  refine ⟨?_, ?_, ?_⟩
  · rw [List.map_flatMap]
    apply nodup_zipIdx_flatMap _ RowLabel.ordinal
    · rintro ⟨r, k⟩ l hl
      obtain ⟨P, hP, rfl⟩ := List.mem_map.mp hl
      rcases label_of_mem_rowPlans hP with h | h <;> rw [h] <;> rfl
    · rintro ⟨r, k⟩
      exact nodup_rowPlans r k _
  · rw [List.map_flatMap]
    apply nodup_zipIdx_flatMap _ RowLabel.ordinal
    · rintro ⟨c, j⟩ l hl
      obtain ⟨P, hP, rfl⟩ := List.mem_map.mp hl
      obtain ⟨width, -, rfl⟩ := mem_columnPlans hP
      rfl
    · rintro ⟨c, j⟩
      simp only [Column.plans]
      split <;> simp
  · intro l hl l' hl' heq
    subst heq
    obtain ⟨P, hP, rfl⟩ := List.mem_map.mp hl
    obtain ⟨Q, hQ, hlabel⟩ := List.mem_map.mp hl'
    obtain ⟨⟨r, k⟩, -, hrow⟩ := List.mem_flatMap.mp hP
    obtain ⟨⟨c, j⟩, -, hcol⟩ := List.mem_flatMap.mp hQ
    obtain ⟨width, -, rfl⟩ := mem_columnPlans hcol
    rcases label_of_mem_rowPlans hrow with h | h <;> rw [h] at hlabel <;> cases hlabel

theorem rowLabels_nodup : (i.standardForm signs).rowLabels.Nodup := by
  rw [rowLabels_standardForm]
  exact i.plans_nodup

theorem mem_columnStructurals {c : Column α} {j : ℕ} {s : Structural α}
    (h : s ∈ c.structurals j) : s.column = j ∧ s.label.variable = j ∧ s.label.owner? = none := by
  unfold Column.structurals at h
  split at h <;> simp only [List.mem_cons, List.not_mem_nil, or_false] at h
  · subst h
    exact ⟨rfl, rfl, rfl⟩
  · subst h
    exact ⟨rfl, rfl, rfl⟩
  · rcases h with rfl | rfl <;> exact ⟨rfl, rfl, rfl⟩

theorem owner?_of_mem_structurals {s : Structural α} (h : s ∈ i.structurals) :
    s.label.owner? = none := by
  obtain ⟨⟨c, j⟩, -, hs⟩ := List.mem_flatMap.mp h
  exact (mem_columnStructurals hs).2.2

theorem isArtificial_of_mem_structurals {s : Structural α} (h : s ∈ i.structurals) :
    s.label.isArtificial = false := by
  by_contra hart
  obtain ⟨r, hr⟩ := Label.owner?_of_isArtificial (Bool.not_eq_false _ ▸ hart)
  have howner := i.owner?_of_mem_structurals h
  rw [hr] at howner
  cases howner

private theorem structurals_nodup : (i.structurals.map (·.label)).Nodup := by
  unfold structurals
  rw [List.map_flatMap]
  apply nodup_zipIdx_flatMap _ Label.variable
  · rintro ⟨c, j⟩ l hl
    obtain ⟨s, hs, rfl⟩ := List.mem_map.mp hl
    exact (mem_columnStructurals hs).2.1
  · rintro ⟨c, j⟩
    simp only [Column.structurals]
    split <;> simp

end Instance

namespace RowPlan

variable {α : Type} [Scalar α] (P : RowPlan α) (zero : α) (signs : Option (List (Label × α)))

/-- The slack of the row, if it has one. -/
def slackColumns : List (FormColumn α) :=
  P.slack.toList.map fun s => .single P.label.slack zero P.label s

def artificialColumns : List (FormColumn α) :=
  (P.artificial? signs).toList.map fun s => .single (.artificial P.label) zero P.label s

theorem exists_artificial (h : P.slack = none) : ∃ s, P.artificial? signs = some s := by
  cases signs with
  | none => exact ⟨_, by rw [artificial?, h]⟩
  | some signs =>
      cases hsign : signOf? signs (.artificial P.label) with
      | none => exact ⟨1, by simp only [artificial?, h, hsign]⟩
      | some s => exact ⟨s, by simp only [artificial?, h, hsign]⟩

theorem columns_row :
    (P.row zero signs).columns = P.slackColumns zero ++ P.artificialColumns zero signs := by
  unfold row slackColumns artificialColumns
  cases hs : P.slack with
  | some s => cases P.artificial? signs <;> rfl
  | none =>
      obtain ⟨s, ha⟩ := P.exists_artificial signs hs
      rw [ha]
      rfl

theorem owner?_of_mem_columns {c : FormColumn α} (h : c ∈ (P.row zero signs).columns) :
    c.label.owner? = some P.label := by
  rw [columns_row, List.mem_append] at h
  rcases h with h | h
  · obtain ⟨s, -, rfl⟩ := List.mem_map.mp h
    exact P.label.owner?_slack
  · obtain ⟨s, -, rfl⟩ := List.mem_map.mp h
    rfl

theorem cost_of_mem_columns {c : FormColumn α} (h : c ∈ (P.row zero signs).columns) :
    c.cost = zero := by
  rw [columns_row, List.mem_append] at h
  rcases h with h | h
  · obtain ⟨s, -, rfl⟩ := List.mem_map.mp h
    rfl
  · obtain ⟨s, -, rfl⟩ := List.mem_map.mp h
    rfl

theorem entry_of_mem_columns {c : FormColumn α} (h : c ∈ (P.row zero signs).columns)
    {l : RowLabel} (hl : l ≠ P.label) : c.entry l = 0 := by
  rw [columns_row, List.mem_append] at h
  rcases h with h | h
  · obtain ⟨s, -, rfl⟩ := List.mem_map.mp h
    exact if_neg hl
  · obtain ⟨s, -, rfl⟩ := List.mem_map.mp h
    exact if_neg hl

private theorem columns_nodup : ((P.row zero signs).columns.map (·.label)).Nodup := by
  rw [columns_row, slackColumns, artificialColumns]
  have hne : P.label.slack ≠ .artificial P.label := by
    cases P.label <;> nofun
  cases P.slack <;> cases P.artificial? signs <;> simp [FormColumn.single, hne]

/-- What the slack adds to the row. -/
def slackTerm (P : RowPlan ℚ) (X : Label → ℚ) : ℚ :=
  match P.slack with
  | some s => s * X P.label.slack
  | none => 0

private theorem sum_columns (P : RowPlan ℚ) (zero : ℚ) (signs : Option (List (Label × ℚ)))
    {X : Label → ℚ} (hX : X (.artificial P.label) = 0) (l : RowLabel) :
    ((P.row zero signs).columns.map fun c => c.entry l * X c.label).sum =
      if l = P.label then P.slackTerm X else 0 := by
  by_cases hl : l = P.label
  · subst hl
    rw [if_pos rfl, columns_row, slackColumns, artificialColumns, slackTerm]
    cases P.slack <;> cases P.artificial? signs <;> simp [FormColumn.single, hX]
  · rw [if_neg hl]
    apply sum_map_eq_zero
    intro c hc
    rw [P.entry_of_mem_columns zero signs hc hl, zero_mul]

end RowPlan

namespace Instance

variable {α : Type} [Scalar α] (i : Instance α) (signs : Option (List (Label × α)))

theorem standardForm_columns : (i.standardForm signs).columns =
    (i.standardForm signs).structuralColumns ++
      i.plans.flatMap fun P => (P.row (i.sense.toMax 0) signs).columns := by
  rw [StandardForm.columns, standardForm_rows, List.flatMap_map]

theorem labels_nodup : (i.standardForm signs).labels.Nodup := by
  rw [StandardForm.labels, standardForm_columns, List.map_append, List.nodup_append]
  refine ⟨?_, ?_, ?_⟩
  · rw [standardForm_structuralColumns, List.map_map]
    exact i.structurals_nodup
  · rw [List.map_flatMap]
    apply nodup_flatMap_of_key (fun P => some P.label) Label.owner?
    · intro P _ l hl
      obtain ⟨c, hc, rfl⟩ := List.mem_map.mp hl
      exact P.owner?_of_mem_columns _ signs hc
    · have hmap := i.plans_nodup.map (Option.some_injective _)
      rwa [List.map_map] at hmap
    · intro P _
      exact P.columns_nodup _ signs
  · intro l hl l' hl' heq
    subst heq
    rw [standardForm_structuralColumns, List.map_map] at hl
    obtain ⟨s, hs, rfl⟩ := List.mem_map.mp hl
    obtain ⟨c, hc, hlabel⟩ := List.mem_map.mp hl'
    obtain ⟨P, -, hP⟩ := List.mem_flatMap.mp hc
    have howner := P.owner?_of_mem_columns _ signs hP
    rw [hlabel] at howner
    rw [Function.comp_apply, i.owner?_of_mem_structurals hs] at howner
    cases howner

section

variable {i} {signs}

theorem mem_columns {c : FormColumn α} : c ∈ (i.standardForm signs).columns ↔
    c ∈ (i.standardForm signs).structuralColumns ∨
      ∃ P ∈ i.plans, c ∈ (P.row (i.sense.toMax 0) signs).columns := by
  rw [standardForm_columns, List.mem_append, List.mem_flatMap]

theorem exists_plan (k : Fin (i.standardForm signs).rows.length) :
    ∃ P ∈ i.plans, (i.standardForm signs).rows.get k = P.row (i.sense.toMax 0) signs := by
  obtain ⟨P, hP, heq⟩ := List.mem_map.mp (List.get_mem (i.standardForm signs).rows k)
  exact ⟨P, hP, heq.symm⟩

theorem exists_row {P : RowPlan α} (hP : P ∈ i.plans) :
    ∃ k, (i.standardForm signs).rows.get k = P.row (i.sense.toMax 0) signs :=
  List.mem_iff_get.mp (List.mem_map_of_mem hP)

end

theorem label_row (P : RowPlan α) (zero : α) (signs : Option (List (Label × α))) :
    (P.row zero signs).label = P.label := by
  unfold RowPlan.row
  split <;> rfl

theorem rhs_row (P : RowPlan α) (zero : α) (signs : Option (List (Label × α))) :
    (P.row zero signs).rhs = P.rhs := by
  unfold RowPlan.row
  split <;> rfl

/-- What the variables add to a row of the form. -/
def share (i : Instance ℚ) (X : Label → ℚ) (l : RowLabel) : ℚ :=
  (i.structurals.map fun s => s.entry i.denseRows l * X s.label).sum

theorem sum_entries (i : Instance ℚ) (signs : Option (List (Label × ℚ))) {X : Label → ℚ}
    (hX : ∀ r, X (.artificial r) = 0) {P : RowPlan ℚ} (hP : P ∈ i.plans) :
    ((i.standardForm signs).columns.map fun c => c.entry P.label * X c.label).sum =
      i.share X P.label + P.slackTerm X := by
  rw [standardForm_columns, List.map_append, List.sum_append, standardForm_structuralColumns,
    List.map_map, sum_flatMap]
  congr 1
  have hown : ∀ Q : RowPlan ℚ, ((Q.row (i.sense.toMax 0) signs).columns.map fun c =>
      c.entry P.label * X c.label).sum = if P.label = Q.label then Q.slackTerm X else 0 :=
    fun Q => Q.sum_columns _ signs (hX _) P.label
  simp only [hown]
  exact sum_ite_key (fun Q : RowPlan ℚ => Q.label) i.plans_nodup hP fun Q => Q.slackTerm X

end Instance

namespace StandardForm

theorem matrix_apply (f : StandardForm ℚ) (k : Fin f.rows.length) (j : Fin f.columns.length) :
    f.program.matrix k j = (f.columns.get j).entry (f.rows.get k).label := by
  simp [Program.matrix, program]

section

variable {α : Type} [Scalar α] (f : StandardForm α)

@[simp] theorem get_get_columns (k : Fin f.rows.length) (j : Fin f.columns.length) :
    (f.program.columns.get j).get k = (f.columns.get j).entry (f.rows.get k).label := by
  simp [program]

@[simp] theorem get_rhs (k : Fin f.rows.length) : f.program.rhs.get k = (f.rows.get k).rhs :=
  Vector.get_ofFn _ _

@[simp] theorem get_cost (j : Fin f.columns.length) :
    f.program.cost.get j = (f.columns.get j).cost := Vector.get_ofFn _ _

@[simp] theorem get_barred (j : Fin f.columns.length) :
    f.program.barred.get j = (f.columns.get j).label.isArtificial := Vector.get_ofFn _ _

@[simp] theorem get_signs (j : Fin f.columns.length) :
    f.program.signs.get j = (signOf? f.signs (f.columns.get j).label).getD 1 :=
  Vector.get_ofFn _ _

end

variable {α : Type} {f : StandardForm α}

theorem row_ext (hf : f.rowLabels.Nodup) {k l : Fin f.rows.length}
    (h : (f.rows.get k).label = (f.rows.get l).label) : k = l :=
  List.nodup_iff_injective_get.mp (List.Nodup.of_map _ hf)
    (List.inj_on_of_nodup_map hf (List.get_mem _ k) (List.get_mem _ l) h)

variable (hf : f.labels.Nodup)
include hf

theorem column_ext {c d : FormColumn α} (hc : c ∈ f.columns) (hd : d ∈ f.columns)
    (h : c.label = d.label) : c = d := List.inj_on_of_nodup_map hf hc hd h

theorem place_ext {j k : Fin f.columns.length}
    (h : (f.columns.get j).label = (f.columns.get k).label) : j = k := by
  have hcolumn := column_ext hf (List.get_mem f.columns j) (List.get_mem f.columns k) h
  exact List.nodup_iff_injective_get.mp (List.Nodup.of_map _ hf) hcolumn

theorem place?_label (j : Fin f.columns.length) :
    f.place? (f.columns.get j).label = some j := by
  unfold place?
  rw [List.findFinIdx?_eq_some_iff]
  refine ⟨beq_self_eq_true _, ?_⟩
  intro k hk hlabel
  exact absurd (place_ext hf (beq_iff_eq.mp hlabel)) hk.ne

theorem get_placeOf (c : FormColumn α) (hc : c ∈ f.columns) :
    f.columns.get (f.placeOf c hc) = c := by
  have hlabel := @List.findIdx_getElem _ (fun d : FormColumn α => d.label == c.label) f.columns
    (f.placeOf c hc).isLt
  exact column_ext hf (List.get_mem _ _) hc (beq_iff_eq.mp hlabel)

theorem get_naturalPlace (k : Fin f.rows.length) :
    f.columns.get (f.naturalPlace k) = (f.rows.get k).natural := get_placeOf hf _ _

end StandardForm

end IncrementalLP
