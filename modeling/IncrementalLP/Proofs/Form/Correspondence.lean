import IncrementalLP.Proofs.Form.Plans
import IncrementalLP.Proofs.Form.Prefix
/-!
# Points of the form and of the instance

Values of the columns that satisfy the rows of the form stand for a feasible point of the instance,
and every feasible point of the instance arises in this way.
-/
namespace IncrementalLP

theorem foldl_add_eq {α : Type} (g : α → ℚ) (l : List α) (a : ℚ) :
    l.foldl (fun s e => s + g e) a = a + (l.map g).sum := by
  induction l generalizing a with
  | nil => simp
  | cons b l ih => rw [List.foldl_cons, ih, List.map_cons, List.sum_cons, add_assoc]

namespace Instance

theorem activity_map {α : Type} (row : List ℚ) (l : List α) (g : α → ℚ) :
    activity row (l.map g) = ∑ j : Fin l.length, row.getD j 0 * g (l.get j) := by
  unfold activity
  rw [foldl_add_eq, zero_add]
  induction l generalizing row with
  | nil => simp
  | cons b l ih =>
      have hsplit := Fin.sum_univ_succ
        fun j : Fin (l.length + 1) => row.getD j 0 * g ((b :: l).get j)
      refine Eq.trans ?_ hsplit.symm
      cases row with
      | nil => simp
      | cons a row =>
          rw [List.map_cons, List.zip_cons_cons, List.map_cons, List.sum_cons, ih]
          rfl

variable {i : Instance ℚ}

theorem denseEntry_denseRows (hi : i.Sound) {k j : ℕ} (hk : k < i.numRows)
    (hj : j < i.numColumns) : denseEntry i.denseRows k j = i.coefficient k j := by
  rw [denseEntry, getD_denseRows hi hk]
  simp [hj, coefficient]

private theorem shift_eq (hi : i.Sound) {k : ℕ} (hk : k < i.numRows) :
    activity (i.denseRows.getD k []) i.offsets =
      ∑ j : Fin i.numColumns, i.coefficient k j * (i.columns.get j).offset := by
  rw [offsets, activity_map]
  apply Finset.sum_congr rfl
  intro j _
  rw [← denseEntry_denseRows hi hk j.isLt]
  rfl

/-- How far values of the columns move a variable from its offset. -/
def displacement (i : Instance ℚ) (X : Label → ℚ) (j : Fin i.numColumns) : ℚ :=
  (((i.columns.get j).structurals j).map fun s => s.factor * X s.label).sum

/-- The point of the instance that values of the columns stand for. -/
def decode (i : Instance ℚ) (X : Label → ℚ) (j : Fin i.numColumns) : ℚ :=
  (i.columns.get j).offset + i.displacement X j

theorem sum_structurals (i : Instance ℚ) (g : Structural ℚ → ℚ) : (i.structurals.map g).sum =
    ∑ j : Fin i.numColumns, (((i.columns.get j).structurals j).map g).sum := by
  unfold structurals
  rw [sum_flatMap, sum_zipIdx]
  rfl

private theorem share_row (hi : i.Sound) (X : Label → ℚ) {k : ℕ} (hk : k < i.numRows) :
    i.share X (.row k) = ∑ j : Fin i.numColumns, i.coefficient k j * i.displacement X j := by
  unfold share
  rw [sum_structurals]
  apply Finset.sum_congr rfl
  intro j _
  rw [displacement, ← List.sum_map_mul_left]
  congr 1
  apply List.map_congr_left
  intro s hs
  rw [Structural.entry, (mem_columnStructurals hs).1, denseEntry_denseRows hi hk j.isLt]
  ring

private theorem share_rowLow (i : Instance ℚ) (X : Label → ℚ) (k : ℕ) :
    i.share X (.rowLow k) = i.share X (.row k) := rfl

/-- A row of the form at the values of its columns is the row of the instance at their point. -/
theorem share_add_shift (hi : i.Sound) (X : Label → ℚ) {k : ℕ} (hk : k < i.numRows) :
    i.share X (.row k) + activity (i.denseRows.getD k []) i.offsets =
      i.rowActivity (i.decode X) k := by
  rw [share_row hi X hk, shift_eq hi hk, rowActivity, ← Finset.sum_add_distrib]
  apply Finset.sum_congr rfl
  intro j _
  rw [decode]
  ring

private theorem structurals_of_width {c : Column ℚ} {j : ℕ} {width : ℚ}
    (h : c.width? = some width) :
    c.structurals j = [⟨.var j, j, 1⟩] := by
  unfold Column.width? at h
  unfold Column.structurals
  cases hl : c.lower.finite? <;> cases hu : c.upper.finite? <;> simp_all

theorem share_bound (i : Instance ℚ) (X : Label → ℚ) {j : Fin i.numColumns} {width : ℚ}
    (h : (i.columns.get j).width? = some width) :
    i.share X (.bound j) = i.displacement X j := by
  unfold share
  rw [sum_structurals, Fintype.sum_eq_single j]
  · rw [displacement, structurals_of_width h]
    simp [Structural.entry]
  · intro j' hne
    apply sum_map_eq_zero
    intro s hs
    have hcolumn := (mem_columnStructurals hs).1
    have hval : (j : ℕ) ≠ j' := fun h => hne (Fin.ext h.symm)
    rw [Structural.entry, hcolumn, if_neg hval, zero_mul]

/-- Values of the columns, other than artificial ones, that satisfy all rows of the form. -/
structure Solves (i : Instance ℚ) (X : Label → ℚ) : Prop where
  structurals : ∀ s ∈ i.structurals, 0 ≤ X s.label
  slacks : ∀ P ∈ i.plans, P.slack.isSome = true → 0 ≤ X P.label.slack
  rows : ∀ P ∈ i.plans, i.share X P.label + P.slackTerm X = P.rhs

private theorem Solves.nonneg {X : Label → ℚ} (h : i.Solves X) (j : Fin i.numColumns) :
    ∀ s ∈ (i.columns.get j).structurals j, 0 ≤ X s.label := by
  intro s hs
  apply h.structurals
  exact List.mem_flatMap.mpr ⟨_, mem_zipIdx_iff.mpr ⟨j, rfl⟩, hs⟩

theorem share_of_mem_plans (hi : i.Sound) (X : Label → ℚ) {k : Fin i.numRows}
    {P : RowPlan ℚ} (hP : P ∈ (i.rows.get k).plans k (activity (i.denseRows.getD k []) i.offsets)) :
    i.share X P.label =
      i.rowActivity (i.decode X) k - activity (i.denseRows.getD k []) i.offsets := by
  rw [← share_add_shift hi X k.isLt, add_sub_cancel_right]
  rcases label_of_mem_rowPlans hP with hlabel | hlabel
  · rw [hlabel]
  · rw [hlabel, share_rowLow]

private theorem Solves.row (hi : i.Sound) {X : Label → ℚ} (h : i.Solves X) (k : Fin i.numRows) :
    (i.rows.get k).lower.AtMost (i.rowActivity (i.decode X) k) ∧
      (i.rows.get k).upper.AtLeast (i.rowActivity (i.decode X) k) := by
  rw [← Row.holds_plans_iff (hi.rows _ (List.get_mem i.rows k)) k
    (activity (i.denseRows.getD k []) i.offsets)]
  intro P hP
  have hmem : P ∈ i.plans := mem_plans.mpr (Or.inl ⟨k, hP⟩)
  rw [← share_of_mem_plans hi X hP]
  exact RowPlan.holds_of_slackTerm (unital_of_mem_plans hmem) (h.slacks P hmem) (h.rows P hmem)

private theorem Solves.column (hi : i.Sound) {X : Label → ℚ} (h : i.Solves X)
    (j : Fin i.numColumns) : (i.columns.get j).lower.AtMost (i.decode X j) ∧
      (i.columns.get j).upper.AtLeast (i.decode X j) := by
  have husable := hi.columns _ (List.get_mem i.columns j)
  have hnonneg := h.nonneg j
  have hbound : ∀ width, (i.columns.get j).width? = some width →
      i.displacement X j ≤ width := by
    intro width hwidth
    have hP : (⟨.bound j, width, some 1⟩ : RowPlan ℚ) ∈ i.plans := by
      apply mem_plans.mpr (Or.inr ⟨j, ?_⟩)
      rw [Column.plans, hwidth]
      exact List.mem_cons_self
    have hrow := h.rows _ hP
    have hslack := h.slacks _ hP rfl
    rw [share_bound i X hwidth] at hrow
    simp only [RowPlan.slackTerm] at hrow
    linarith
  unfold decode
  unfold displacement at *
  generalize i.columns.get j = c at *
  obtain ⟨objective, lower, upper, name⟩ := c
  cases lower with
  | nan => exact absurd rfl husable.lower.1
  | posInf => exact absurd rfl husable.lower.2
  | finite l =>
      have hvar : 0 ≤ X (.var j) := hnonneg ⟨.var j, j, 1⟩ List.mem_cons_self
      have hvalue : (((Column.structurals (j : ℕ) (⟨objective, .finite l, upper, name⟩ :
          Column ℚ)).map fun s => s.factor * X s.label).sum) = X (.var j) := by
        simp [Column.structurals, Extended.finite?]
      rw [hvalue] at hbound ⊢
      refine ⟨?_, ?_⟩
      · show l ≤ l + X (.var j)
        linarith
      · cases upper with
        | nan => exact absurd rfl husable.upper.1
        | negInf => exact absurd rfl husable.upper.2
        | posInf => trivial
        | finite u =>
            have := hbound (u - l) rfl
            show l + X (.var j) ≤ u
            linarith
  | negInf =>
      refine ⟨trivial, ?_⟩
      cases upper with
      | nan => exact absurd rfl husable.upper.1
      | negInf => exact absurd rfl husable.upper.2
      | posInf => trivial
      | finite u =>
          have hvar : 0 ≤ X (.var j) := hnonneg ⟨.var j, j, -1⟩ List.mem_cons_self
          have hvalue : (((Column.structurals (j : ℕ) (⟨objective, .negInf, .finite u, name⟩ :
              Column ℚ)).map fun s => s.factor * X s.label).sum) = -X (.var j) := by
            simp [Column.structurals, Extended.finite?]
          rw [hvalue]
          show u + -X (.var j) ≤ u
          linarith

theorem Solves.feasible (hi : i.Sound) {X : Label → ℚ} (h : i.Solves X) :
    i.Feasible (i.decode X) where
  rowLower k := (h.row hi k).1
  rowUpper k := (h.row hi k).2
  columnLower j := (h.column hi j).1
  columnUpper j := (h.column hi j).2

/-- The values that the columns of the form have at a point of the instance. -/
def encode (i : Instance ℚ) (v : Fin i.numColumns → ℚ) : Label → ℚ
  | .var j => if h : j < i.numColumns then |v ⟨j, h⟩ - (i.columns.get ⟨j, h⟩).offset| else 0
  | .varPos j => if h : j < i.numColumns then max (v ⟨j, h⟩) 0 else 0
  | .varNeg j => if h : j < i.numColumns then max (-v ⟨j, h⟩) 0 else 0
  | .slack k =>
    if h : k < i.numRows then |(i.rows.get ⟨k, h⟩).rhs.toScalar - i.rowActivity v k| else 0
  | .slackLow k =>
    if h : k < i.numRows then |(i.rows.get ⟨k, h⟩).lower.toScalar - i.rowActivity v k| else 0
  | .boundSlack j =>
    if h : j < i.numColumns then |(i.columns.get ⟨j, h⟩).upper.toScalar - v ⟨j, h⟩| else 0
  | .artificial _ | .foreign _ => 0

private theorem dite_nonneg {p : Prop} [Decidable p] {g : p → ℚ} (h : ∀ hp, 0 ≤ g hp) :
    0 ≤ if hp : p then g hp else 0 := by
  split
  · next hp => exact h hp
  · exact le_rfl

private theorem encode_nonneg (i : Instance ℚ) (v : Fin i.numColumns → ℚ) (l : Label) :
    0 ≤ i.encode v l := by
  cases l with
  | var j | slack j | slackLow j | boundSlack j => exact dite_nonneg fun _ => abs_nonneg _
  | varPos j | varNeg j => exact dite_nonneg fun _ => le_max_right _ _
  | artificial r | foreign s => exact le_rfl

/-- Nothing is lost on the way to the form and back. -/
theorem decode_encode {v : Fin i.numColumns → ℚ} (hv : i.Feasible v) :
    i.decode (i.encode v) = v := by
  funext j
  have hlower := hv.columnLower j
  have hupper := hv.columnUpper j
  have hvar : i.encode v (.var j) = |v j - (i.columns.get j).offset| := dif_pos j.isLt
  have hpos : i.encode v (.varPos j) = max (v j) 0 := dif_pos j.isLt
  have hneg : i.encode v (.varNeg j) = max (-v j) 0 := dif_pos j.isLt
  unfold decode displacement
  generalize i.columns.get j = c at *
  obtain ⟨objective, lower, upper, name⟩ := c
  cases lower with
  | nan => cases hlower
  | posInf => cases hlower
  | finite l =>
      have hle : l ≤ v j := hlower
      simp [Column.structurals, Column.offset, Extended.finite?, hvar, abs_of_nonneg, hle]
  | negInf =>
      cases upper with
      | nan => cases hupper
      | negInf => cases hupper
      | finite u =>
          have hle : v j ≤ u := hupper
          simp [Column.structurals, Column.offset, Extended.finite?, hvar, abs_of_nonpos, hle]
      | posInf =>
          simp only [Column.structurals, Column.offset, Extended.finite?, List.map_cons,
            List.map_nil, List.sum_cons, List.sum_nil, hpos, hneg]
          rcases le_total 0 (v j) with h | h
          · rw [max_eq_left h, max_eq_right (neg_nonpos.mpr h)]
            ring
          · rw [max_eq_right h, max_eq_left (neg_nonneg.mpr h)]
            ring

private theorem encode_slack {v : Fin i.numColumns → ℚ} {k : Fin i.numRows} {shift : ℚ}
    {P : RowPlan ℚ} (hr : (i.rows.get k).Usable) (hP : P ∈ (i.rows.get k).plans k shift)
    (hslack : P.slack.isSome = true) :
    i.encode v P.label.slack = |P.rhs - (i.rowActivity v k - shift)| := by
  have hrow : i.encode v (.slack k) =
      |(i.rows.get k).rhs.toScalar - i.rowActivity v k| := dif_pos k.isLt
  have hlow : i.encode v (.slackLow k) =
      |(i.rows.get k).lower.toScalar - i.rowActivity v k| := dif_pos k.isLt
  generalize i.rows.get k = r at *
  obtain ⟨sense, rhs, name⟩ := r
  cases rhs with
  | finite b =>
      have hfirst : |b - i.rowActivity v k| = |b - shift - (i.rowActivity v k - shift)| := by
        rw [sub_sub_sub_cancel_right]
      cases sense with
      | atMost =>
          obtain rfl := List.mem_singleton.mp hP
          exact hrow.trans hfirst
      | atLeast =>
          obtain rfl := List.mem_singleton.mp hP
          exact hrow.trans hfirst
      | equal =>
          obtain rfl := List.mem_singleton.mp hP
          cases hslack
      | range w =>
          cases w with
          | finite w =>
              rcases List.mem_cons.mp hP with rfl | hP
              · exact hrow.trans hfirst
              · obtain rfl := List.mem_singleton.mp hP
                refine hlow.trans ?_
                show |b - w - i.rowActivity v k| = |b - shift - w - (i.rowActivity v k - shift)|
                congr 1
                ring
          | negInf | posInf | nan => cases hr.2
  | posInf | negInf | nan => cases hP

private theorem encode_row (hi : i.Sound) {v : Fin i.numColumns → ℚ} (hv : i.Feasible v)
    (k : Fin i.numRows) {P : RowPlan ℚ}
    (hP : P ∈ (i.rows.get k).plans k (activity (i.denseRows.getD k []) i.offsets)) :
    i.share (i.encode v) P.label + P.slackTerm (i.encode v) = P.rhs := by
  have husable := hi.rows _ (List.get_mem i.rows k)
  have hholds := (Row.holds_plans_iff husable k
    (activity (i.denseRows.getD k []) i.offsets) _).mpr ⟨hv.rowLower k, hv.rowUpper k⟩
  rw [share_of_mem_plans hi _ hP, decode_encode hv]
  have hunital := unital_of_mem_plans (mem_plans.mpr (Or.inl ⟨k, hP⟩))
  exact RowPlan.slackTerm_of_holds hunital (encode_slack husable hP) (hholds P hP)

private theorem encode_bound {v : Fin i.numColumns → ℚ} (hv : i.Feasible v)
    (j : Fin i.numColumns) {P : RowPlan ℚ} (hP : P ∈ (i.columns.get j).plans j) :
    i.share (i.encode v) P.label + P.slackTerm (i.encode v) = P.rhs := by
  obtain ⟨width, hwidth, rfl⟩ := mem_columnPlans hP
  have hdecode := congrFun (decode_encode hv) j
  have hupper := hv.columnUpper j
  have hslack : i.encode v (.boundSlack j) =
      |(i.columns.get j).upper.toScalar - v j| := dif_pos j.isLt
  rw [share_bound i _ hwidth]
  unfold decode at hdecode
  unfold Column.width? Column.offset at *
  generalize i.columns.get j = c at *
  obtain ⟨objective, lower, upper, name⟩ := c
  cases lower with
  | finite l =>
      cases upper with
      | finite u =>
          have hle : v j ≤ u := hupper
          obtain rfl : u - l = width := Option.some.inj hwidth
          simp only [RowPlan.slackTerm, RowLabel.slack, hslack, Extended.toScalar]
          simp only [Extended.finite?] at hdecode
          rw [abs_of_nonneg (sub_nonneg.mpr hle)]
          linarith
      | negInf | posInf | nan => cases hwidth
  | negInf | posInf | nan => cases hwidth

/-- Every feasible point of the instance solves the rows of the form. -/
theorem Feasible.solves (hi : i.Sound) {v : Fin i.numColumns → ℚ} (hv : i.Feasible v) :
    i.Solves (i.encode v) where
  structurals s _ := i.encode_nonneg v s.label
  slacks P _ _ := i.encode_nonneg v P.label.slack
  rows P hP := by
    rcases mem_plans.mp hP with ⟨k, hP⟩ | ⟨j, hP⟩
    · exact encode_row hi hv k hP
    · exact encode_bound hv j hP

end Instance

end IncrementalLP
