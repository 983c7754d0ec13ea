import IncrementalLP.Proofs.Form.Prefix
import IncrementalLP.Proofs.Instance.Growth
/-!
# Rebuilt forms

When rows have been appended the form is built anew, with the signs that the artificial columns had
in the earlier form. Places of rows and columns shift then. By their labels, though, all of the
earlier form is found again, and what is new stands apart from it.
-/
namespace IncrementalLP

variable {α : Type} [Scalar α]

/-- Both zeros count as zero, one and minus one do not. -/
class TellsZero (α : Type) [Scalar α] : Prop where
  zero : ((0 : α) == 0) = true
  neg_zero : ((-0 : α) == 0) = true
  one : ((1 : α) == 0) = false
  neg_one : ((-1 : α) == 0) = false

instance : TellsZero ℚ :=
  ⟨by decide +kernel, by decide +kernel, by decide +kernel, by decide +kernel⟩

instance : TellsZero Float :=
  ⟨by decide +kernel, by decide +kernel, by decide +kernel, by decide +kernel⟩

private theorem Sense.toMax_zero_beq [TellsZero α] (s : Sense) : (s.toMax (0 : α) == 0) = true := by
  cases s with
  | max => exact TellsZero.zero
  | min => exact TellsZero.neg_zero

namespace StandardForm

/-- The second form has all rows and columns of the first one, with the same right-hand sides,
costs and entries. Its new columns are free of cost and have no entries in the earlier rows. -/
structure Continues (f g : StandardForm α) : Prop where
  labels : f.labels.Nodup ∧ g.labels.Nodup
  rowLabels : f.rowLabels.Nodup ∧ g.rowLabels.Nodup
  row : ∀ k, ∃ k', (g.rows.get k').label = (f.rows.get k).label ∧
    g.program.rhs.get k' = f.program.rhs.get k
  column : ∀ j, ∃ j', (g.columns.get j').label = (f.columns.get j).label ∧
    g.program.cost.get j' = f.program.cost.get j ∧
    ∀ k k', (g.rows.get k').label = (f.rows.get k).label →
      (g.program.columns.get j').get k' = (f.program.columns.get j).get k
  fresh : ∀ j', (g.columns.get j').label ∉ f.labels → (g.program.cost.get j' == 0) = true ∧
    ∀ k', (g.rows.get k').label ∈ f.rowLabels → (g.program.columns.get j').get k' = 0

/-- The natural column of every row has an entry in that row and in no other. -/
def Isolates (f : StandardForm α) : Prop :=
  ∀ k, ((f.program.columns.get (f.naturalPlace k)).get k == 0) = false ∧
    ∀ l, l ≠ k → (f.program.columns.get (f.naturalPlace k)).get l = 0

end StandardForm

/-- No sign is zero. -/
def Nonzero (signs : List (Label × α)) : Prop := ∀ e ∈ signs, (e.2 == 0) = false

private theorem RowPlan.artificial?_nonzero [TellsZero α] {P : RowPlan α}
    {signs : Option (List (Label × α))} (hsigns : Nonzero (signs.getD [])) {a : α}
    (ha : P.artificial? signs = some a) : (a == 0) = false := by
  have hunit : ((if 0 ≤ P.rhs then 1 else -1 : α) == 0) = false := by
    split
    · exact TellsZero.one
    · exact TellsZero.neg_one
  unfold RowPlan.artificial? at ha
  split at ha
  · split at ha
    · split at ha
      · cases ha
      · rwa [← Option.some.inj ha]
    · rwa [← Option.some.inj ha]
  · split at ha
    · exact hsigns _ (mem_of_signOf? ha)
    · next sign hsign =>
      rw [← Option.some.inj ha]
      exact hsigns _ (mem_of_signOf? hsign)
    · rw [← Option.some.inj ha]
      exact TellsZero.one

namespace Instance

variable {i j : Instance α} {signs : Option (List (Label × α))}

private theorem nonzero_signs [TellsZero α] (hsigns : Nonzero (signs.getD [])) :
    Nonzero (i.standardForm signs).signs := by
  intro e he
  obtain ⟨P, -, he⟩ := List.mem_flatMap.mp he
  obtain ⟨a, ha, rfl⟩ := RowPlan.mem_sign.mp he
  exact RowPlan.artificial?_nonzero hsigns ha

private theorem artificial?_signs {P : RowPlan α} (hP : P ∈ i.plans) :
    P.artificial? (some (i.standardForm signs).signs) = P.artificial? signs := by
  cases ha : P.artificial? signs with
  | some a => exact RowPlan.artificial?_of_signOf? (signOf?_standardForm hP ha)
  | none =>
      apply RowPlan.artificial?_of_signOf?_eq_none ha
      apply signOf?_eq_none
      intro e he hlabel
      obtain ⟨Q, hQ, he⟩ := List.mem_flatMap.mp he
      obtain ⟨b, hb, rfl⟩ := RowPlan.mem_sign.mp he
      have hQP : Q = P :=
        List.inj_on_of_nodup_map i.plans_nodup hQ hP (Label.artificial.inj hlabel)
      rw [hQP, ha] at hb
      cases hb

private theorem row_signs {P : RowPlan α} (hP : P ∈ i.plans) (zero : α) :
    P.row zero (some (i.standardForm signs).signs) = P.row zero signs := by
  unfold RowPlan.row
  rw [artificial?_signs hP]

private theorem natural_entry [TellsZero α] (hsigns : Nonzero (signs.getD [])) {P : RowPlan α}
    (hP : P ∈ i.plans) (zero : α) :
    ((P.row zero signs).natural.entry P.label == 0) = false := by
  cases hslack : P.slack with
  | some s =>
      simp only [RowPlan.row, hslack, FormColumn.single, if_pos]
      rcases slack_of_mem_plans hP hslack with rfl | rfl
      · exact TellsZero.one
      · exact TellsZero.neg_one
  | none =>
      obtain ⟨a, ha⟩ := P.exists_artificial signs hslack
      simp only [RowPlan.row, hslack, ha, Option.map_some, Option.getD_some, FormColumn.single,
        if_pos]
      exact RowPlan.artificial?_nonzero hsigns ha

/-- Natural columns stand alone in their rows, if no sign is zero. -/
theorem standardForm_isolates [TellsZero α] (i : Instance α)
    (hsigns : Nonzero (signs.getD [])) : (i.standardForm signs).Isolates := by
  intro k
  have hlabels := i.labels_nodup signs
  obtain ⟨P, hP, hk⟩ := exists_plan k
  refine ⟨?_, fun l hl => ?_⟩
  · rw [StandardForm.get_get_columns, StandardForm.get_naturalPlace hlabels, hk, label_row]
    exact natural_entry hsigns hP _
  · rw [StandardForm.get_get_columns, StandardForm.get_naturalPlace hlabels, hk]
    apply P.entry_of_mem_columns _ signs List.mem_cons_self
    intro hlabel
    rw [← label_row P (i.sense.toMax 0) signs, ← hk] at hlabel
    exact hl (StandardForm.row_ext (i.rowLabels_nodup signs) hlabel)

theorem Retains.begins (h : Retains i j) (hi : i.Sound) (hj : j.Sound) : Prefix i j where
  sense := h.sense
  columns := h.columns
  rows := by
    rw [← h.rows, List.map_take]
    exact List.take_prefix _ _
  dense k hk := by
    rw [getD_denseRows hi hk, getD_denseRows hj (lt_of_lt_of_le hk h.numRows_le), h.numColumns_eq]
    apply List.map_congr_left
    intro l _
    rw [← SparseMatrix.valueAt_filter j.matrix.entries hk, h.entries,
      SparseMatrix.valueAt_filter _ hk]

namespace Prefix

private theorem rows_subset (h : Prefix i j) {r : FormRow α}
    (hr : r ∈ (i.standardForm signs).rows) :
    r ∈ (j.standardForm (some (i.standardForm signs).signs)).rows := by
  obtain ⟨P, hP, rfl⟩ := List.mem_map.mp hr
  refine List.mem_map.mpr ⟨P, h.plans_subset hP, ?_⟩
  rw [row_signs hP, h.sense]

private theorem exists_rebuilt_column (h : Prefix i j) {c : FormColumn α}
    (hc : c ∈ (i.standardForm signs).columns) :
    ∃ d ∈ (j.standardForm (some (i.standardForm signs).signs)).columns, d.label = c.label ∧
      d.cost = c.cost ∧ ∀ r ∈ (i.standardForm signs).rows, d.entry r.label = c.entry r.label := by
  rcases List.mem_append.mp hc with hc | hc
  · obtain ⟨d, hd, hspec⟩ := h.exists_structural hc
    exact ⟨d, List.mem_append_left _ hd, hspec⟩
  · obtain ⟨r, hr, hc⟩ := List.mem_flatMap.mp hc
    exact ⟨c, List.mem_append_right _ (List.mem_flatMap.mpr ⟨r, h.rows_subset hr, hc⟩), rfl, rfl,
      fun _ _ => rfl⟩

private theorem continues [TellsZero α] (h : Prefix i j) :
    (i.standardForm signs).Continues
      (j.standardForm (some (i.standardForm signs).signs)) where
  labels := ⟨i.labels_nodup _, j.labels_nodup _⟩
  rowLabels := ⟨i.rowLabels_nodup _, j.rowLabels_nodup _⟩
  row k := by
    obtain ⟨k', hk'⟩ := List.mem_iff_get.mp (h.rows_subset (List.get_mem _ k))
    refine ⟨k', congrArg FormRow.label hk', ?_⟩
    rw [StandardForm.get_rhs, StandardForm.get_rhs, hk']
  column c := by
    obtain ⟨d, hd, hlabel, hcost, hentry⟩ := h.exists_rebuilt_column (List.get_mem _ c)
    obtain ⟨c', rfl⟩ := List.mem_iff_get.mp hd
    refine ⟨c', hlabel, ?_, fun k k' hk => ?_⟩
    · rw [StandardForm.get_cost, StandardForm.get_cost, hcost]
    · rw [StandardForm.get_get_columns, StandardForm.get_get_columns, hk]
      exact hentry _ (List.get_mem _ k)
  fresh c' hlabel := by
    have hplan : ∀ P ∈ i.plans, ∀ c ∈ (P.row (j.sense.toMax 0)
        (some (i.standardForm signs).signs)).columns, c.label ∈ (i.standardForm signs).labels := by
      intro P hP c hc
      rw [row_signs hP, h.sense] at hc
      exact List.mem_map_of_mem (mem_columns.mpr (Or.inr ⟨P, hP, hc⟩))
    obtain ⟨hcost, hentry⟩ := h.entry_fresh hplan (List.get_mem _ c') hlabel
    refine ⟨?_, fun k' hk' => ?_⟩
    · rw [StandardForm.get_cost, hcost]
      exact j.sense.toMax_zero_beq
    · obtain ⟨r, hr, hlabel⟩ := List.mem_map.mp hk'
      rw [StandardForm.get_get_columns, ← hlabel]
      exact hentry r hr

end Prefix

private theorem retains_run {ops : List (Operation α)} (hops : ∀ op ∈ ops, op.grows = true) :
    Retains i (Operation.run i ops) := by
  induction ops generalizing i with
  | nil => exact .refl i
  | cons op ops ih =>
      have hrest := @ih (op.after i) fun op hop => hops op (List.mem_cons_of_mem _ hop)
      exact (Retains.after (hops op List.mem_cons_self)).trans hrest

/-- A form that is rebuilt with the signs of an earlier one continues it, whatever the instance has
gone through before and whatever rows have been appended since. The natural columns of both stand
alone in their rows. -/
theorem standardForm_rebuilt [TellsZero α] (token : ℕ) (name : String)
    (earlier later : List (Operation α)) (hlater : ∀ op ∈ later, op.grows = true)
    (signs : Option (List (Label × α))) :
    let i := Operation.run (.declare token name) earlier
    let f := i.standardForm signs
    let g := (Operation.run i later).standardForm (some f.signs)
    f.Continues g ∧ (Nonzero (signs.getD []) → f.Isolates ∧ g.Isolates) := by
  intro i f g
  have hi : i.Sound := Operation.sound_run (.declare token name) earlier
  have hbegins := (retains_run hlater).begins hi (Operation.sound_run hi later)
  exact ⟨hbegins.continues, fun hsigns =>
    ⟨standardForm_isolates i hsigns, standardForm_isolates _ (nonzero_signs hsigns)⟩⟩

/-- The sample problem on floats and its form after the cut has been appended. -/
theorem standardForm_rebuilt_sample :
    let load : Operation Float :=
      .load ⟨"sample", .ok .max, Sample.parts.rows, Sample.parts.columns, .held Sample.parts.matrix⟩
    let cutting : Operation Float :=
      .addRows [Sample.cut.row] (.ok [.ok ⟨.ok (.integers [0, 1]), .ok [.finite 6, .finite 1]⟩])
    let i := Operation.run (.declare 0 "sample") [load]
    let f := i.standardForm none
    let g := (Operation.run i [cutting]).standardForm (some f.signs)
    .row 4 ∉ f.rowLabels ∧ .row 4 ∈ g.rowLabels ∧ f.Continues g ∧ f.Isolates ∧ g.Isolates := by
  intro load cutting i f g
  have hcutting : ∀ op ∈ [cutting], op.grows = true := by
    intro op hop
    rw [List.mem_singleton.mp hop]
    rfl
  obtain ⟨hcontinues, hisolates⟩ := standardForm_rebuilt 0 "sample" [load] [cutting] hcutting none
  have hnone : Nonzero ((none : Option (List (Label × Float))).getD []) :=
    fun e he => absurd he List.not_mem_nil
  exact ⟨by decide +kernel, by decide +kernel, hcontinues, hisolates hnone⟩

end Instance

end IncrementalLP
