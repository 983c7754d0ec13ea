import IncrementalLP.Proofs.Form.Repeats
import IncrementalLP.Proofs.Instance.Visits
/-!
# Forms under other costs

A change of costs leaves the rows, the labels and the entries of a form as they are. A basis that
was stored before it stays regular, whatever its prices are then.
-/
namespace IncrementalLP

open Program

/-- The column without its cost and its name. -/
def Column.frame (c : Column ℚ) : Column ℚ := { c with objective := .finite 0, name := none }

namespace Instance

variable {i j : Instance ℚ}

/-- The second instance is the first one with other costs, up to names of columns. -/
structure Recosts (i j : Instance ℚ) : Prop where
  token : j.token = i.token
  sense : j.sense = i.sense
  rows : j.rows = i.rows
  matrix : j.matrix = i.matrix
  columns : j.columns.map Column.frame = i.columns.map Column.frame

private theorem Recosts.numColumns_eq (h : Recosts i j) : j.numColumns = i.numColumns :=
  length_eq_of_map_eq h.columns

namespace Recosts

private theorem offsets_eq (h : Recosts i j) : j.offsets = i.offsets := by
  have hmap := congrArg (List.map Column.offset) h.columns
  rwa [List.map_map, List.map_map] at hmap

private theorem structurals_eq (h : Recosts i j) : j.structurals = i.structurals :=
  flatMap_zipIdx_congr (fun c k => Column.structurals k c) h.columns fun _ _ => rfl

private theorem denseRows_eq (h : Recosts i j) : j.denseRows = i.denseRows := by
  unfold denseRows
  rw [h.rows, h.matrix]

private theorem plans_eq (h : Recosts i j) : j.plans = i.plans := by
  unfold plans
  rw [h.denseRows_eq, h.offsets_eq, h.rows]
  congr 1
  exact flatMap_zipIdx_congr (fun c k => Column.plans k c) h.columns fun _ _ => rfl

variable (signs : Option (List (Label × ℚ)))

private theorem rows_eq (h : Recosts i j) :
    (j.standardForm signs).rows = (i.standardForm signs).rows := by
  rw [standardForm_rows, standardForm_rows, h.plans_eq, h.sense]

private theorem signs_eq (h : Recosts i j) :
    (j.standardForm signs).signs = (i.standardForm signs).signs := by
  rw [standardForm_signs, standardForm_signs, h.plans_eq]

private theorem columns_eq (h : Recosts i j) :
    (j.standardForm signs).columns.map (fun c => (c.label, c.entry)) =
      (i.standardForm signs).columns.map fun c => (c.label, c.entry) := by
  rw [standardForm_columns, standardForm_columns, List.map_append, List.map_append, h.plans_eq,
    h.sense, standardForm_structuralColumns, standardForm_structuralColumns, h.structurals_eq,
    h.denseRows_eq, List.map_map, List.map_map]
  rfl

private theorem labels_eq (h : Recosts i j) :
    (j.standardForm signs).labels = (i.standardForm signs).labels := by
  have hmap := congrArg (List.map Prod.fst) (h.columns_eq signs)
  rwa [List.map_map, List.map_map] at hmap

variable {signs} in
private theorem exists_copies (h : Recosts i j)
    (β : Basis (i.standardForm signs).rows.length (i.standardForm signs).columns.length) :
    ∃ cost γ, Copies { (i.standardForm signs).program with cost := cost } β
      (j.standardForm signs).program γ := by
  have hheight : (i.standardForm signs).rows.length = (j.standardForm signs).rows.length := by
    rw [h.rows_eq signs]
  have hwidth : (i.standardForm signs).columns.length = (j.standardForm signs).columns.length :=
    (length_eq_of_map_eq (h.columns_eq signs)).symm
  have hrow := get_cast_of_map_eq (congrArg (List.map FormRow.label) (h.rows_eq signs)) hheight
  have hrhs := get_cast_of_map_eq (congrArg (List.map FormRow.rhs) (h.rows_eq signs)) hheight
  have hcolumn := get_cast_of_map_eq (h.columns_eq signs) hwidth
  have hlabel : ∀ c, ((j.standardForm signs).columns.get (c.cast hwidth)).label =
      ((i.standardForm signs).columns.get c).label := fun c => congrArg Prod.fst (hcolumn c)
  refine ⟨.ofFn fun c => (j.standardForm signs).program.cost.get (c.cast hwidth),
    ⟨(β.toList.map (Fin.cast hwidth)).toArray, ?_⟩, hheight.symm, hwidth.symm, rfl, ?_, ?_, ?_, ?_,
    ?_⟩
  · rw [List.size_toArray, List.length_map, Vector.length_toList]
    exact hheight
  · intro k c
    rw [StandardForm.matrix_apply, hrow]
    exact (congrFun (congrArg Prod.snd (hcolumn c)) _).trans
      (StandardForm.matrix_apply _ k c).symm
  · intro k
    rw [StandardForm.get_rhs, hrhs]
    exact (StandardForm.get_rhs _ k).symm
  · intro c
    simp only [Vector.get_ofFn]
  · intro c
    rw [StandardForm.get_barred, hlabel]
    exact (StandardForm.get_barred _ c).symm
  · intro c
    rw [StandardForm.get_signs, hlabel, h.signs_eq]
    exact (StandardForm.get_signs _ c).symm

end Recosts

/-- A basis that was stored stays regular when costs change. -/
theorem Stems.recosts {p : BasisPayload ℚ} (hp : i.Stems p) (h : Recosts i j) (hj : j.Sound) :
    j.Stems p := by
  obtain ⟨hi, hgrown, hε, hβ⟩ := hp
  rename_i i₀ signs ε q β
  -- the earlier instance under the costs of now
  let i₁ : Instance ℚ := { i₀ with columns := j.columns }
  have hframes : i₁.columns.map Column.frame = i₀.columns.map Column.frame := by
    have hbare := congrArg (List.map Column.frame) hgrown.columns
    rw [List.map_map, List.map_map] at hbare
    exact h.columns.trans hbare
  have hrecosts : Recosts i₀ i₁ := ⟨rfl, rfl, rfl, rfl, hframes⟩
  have hsound : i₁.Sound :=
    ⟨hi.matrixRows, hi.matrixColumns.trans hrecosts.numColumns_eq.symm, hi.rows, hj.columns⟩
  have hgrows : Grown i₁ j := by
    refine ⟨h.token.trans hgrown.token, h.sense.trans hgrown.sense, rfl, ?_, fun k hk l => ?_⟩
    · rw [h.rows]
      exact hgrown.rows
    · have hcoefficient := hgrown.coefficient k hk l
      rw [coefficient] at hcoefficient ⊢
      rw [h.matrix]
      exact hcoefficient
  obtain ⟨cost, γ, hcopies⟩ := hrecosts.exists_copies β
  obtain ⟨q', ε', hε', hγ, hsigns⟩ := hcopies.transfer
    (P := fun p β => ∃ q' ε', SignChange p q' ε' ∧ q'.Regular β ∧
      q'.signs.toList = q.signs.toList)
    ⟨{ q with cost := cost }, ε,
      ⟨hε.rhs, rfl, hε.barred, hε.unit, hε.fixed, hε.column, hε.sign⟩, hβ, rfl⟩
  have hpayload : (i₁.standardForm signs).payload γ q'.signs =
      (i₀.standardForm signs).payload β q.signs :=
    StandardForm.payload_congr (hrecosts.labels_eq signs)
      (congrArg (List.map FormRow.label) (hrecosts.rows_eq signs))
      hcopies.columns.symm hcopies.basis (get_cast_of_toList_eq hcopies.columns.symm hsigns)
  rw [← hpayload]
  exact .of_regular hsound hgrows hε' hγ

end Instance

end IncrementalLP
