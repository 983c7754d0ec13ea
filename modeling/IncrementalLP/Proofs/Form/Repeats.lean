import IncrementalLP.Proofs.Form.Growth
import IncrementalLP.Proofs.Simplex.Repeats
/-!
# Forms with stored signs

A form that is built again from the signs that were stored with a basis is the program with which
the solve has ended, negated columns included. The stored basis has its place there, and what is
reported and stored of it is the same again.
-/
namespace IncrementalLP

open Program

theorem get_cast_of_toList_eq {α : Type} {m n : ℕ} (h : m = n) {v : Vector α m} {w : Vector α n}
    (hvw : w.toList = v.toList) (k : Fin m) : w.get (k.cast h) = v.get k := by
  subst h
  rw [Vector.toList_inj.mp hvw]
  rfl

private theorem map_cast_finRange {m n : ℕ} (h : m = n) :
    (List.finRange m).map (Fin.cast h) = List.finRange n := by
  subst h
  exact List.map_id _

namespace StandardForm

variable {f g : StandardForm ℚ}

theorem solution_congr {n n' : ℕ} {x : Vector ℚ n} {x' : Vector ℚ n'}
    (h : x'.toList = x.toList) : f.solution x' = f.solution x := by
  have hsize : n' = n := by simpa using congrArg List.length h
  subst hsize
  rw [Vector.toList_inj.mp h]

private theorem slots_eq (f : StandardForm ℚ) (i : ℕ) : f.slots i =
    (f.rowLabels.zipIdx.filter fun r => r.1 == .row i || r.1 == .rowLow i).map (·.2) := by
  rw [slots, rowLabels, List.zipIdx_map, List.filter_map, List.map_map]
  rfl

theorem duals_congr {m m' : ℕ} {y : Vector ℚ m} {y' : Vector ℚ m'} (h : y'.toList = y.toList)
    (hrows : g.rowLabels = f.rowLabels) (hnumRows : g.numRows = f.numRows) :
    g.duals y' = f.duals y := by
  have hsize : m' = m := by simpa using congrArg List.length h
  subst hsize
  obtain rfl := Vector.toList_inj.mp h
  unfold duals
  simp only [slots_eq, hrows, hnumRows]

theorem payload_congr {β : Basis f.rows.length f.columns.length}
    {γ : Basis g.rows.length g.columns.length} {signs : Vector ℚ f.columns.length}
    {signs' : Vector ℚ g.columns.length} (hlabels : g.labels = f.labels)
    (hrows : g.rowLabels = f.rowLabels) (hlength : f.columns.length = g.columns.length)
    (hbasis : γ.toList = β.toList.map (Fin.cast hlength))
    (hsigns : ∀ j, signs'.get (j.cast hlength) = signs.get j) :
    g.payload γ signs' = f.payload β signs := by
  have hlabel : ∀ j : Fin f.columns.length,
      (g.columns.get (j.cast hlength)).label = (f.columns.get j).label :=
    get_cast_of_map_eq hlabels hlength
  unfold payload
  congr 1
  · rw [hbasis, List.map_map]
    exact List.map_congr_left fun j _ => hlabel j
  · rw [← map_cast_finRange hlength, List.filter_map, List.map_map]
    have hartificial : ((fun j => (g.columns.get j).label.isArtificial) ∘ Fin.cast hlength) =
        fun j => (f.columns.get j).label.isArtificial :=
      funext fun j => congrArg Label.isArtificial (hlabel j)
    rw [hartificial]
    exact List.map_congr_left fun j _ => Prod.ext (hlabel j) (hsigns j)

private theorem exists_warmStart_of_labels (hg : g.labels.Nodup) (hlabels : g.labels = f.labels)
    (hrows : g.rowLabels = f.rowLabels) (hlength : f.columns.length = g.columns.length)
    (β : Basis f.rows.length f.columns.length) (signs : Vector ℚ f.columns.length) :
    ∃ γ, g.warmStart? (f.payload β signs) = some γ ∧
      γ.toList = β.toList.map (Fin.cast hlength) := by
  have hadded : ((List.finRange g.rows.length).filter fun k =>
      !f.rowLabels.contains (g.rows.get k).label) = [] := by
    rw [List.filter_eq_nil_iff]
    intro k _
    have hmem : (g.rows.get k).label ∈ f.rowLabels := by
      rw [← hrows]
      exact List.mem_map_of_mem (List.get_mem g.rows k)
    simpa using hmem
  have hplaces : g.warmPlaces? (f.payload β signs) = some (β.toList.map (Fin.cast hlength)) := by
    unfold warmPlaces?
    rw [payload, Extends.mapM_place? hg (get_cast_of_map_eq hlabels hlength) β.toList]
    simp only [hadded, Option.map_some, List.map_nil, List.append_nil]
  have hcount : (β.toList.map (Fin.cast hlength)).length = g.rows.length := by
    rw [List.length_map, Vector.length_toList]
    exact (length_eq_of_map_eq hrows).symm
  refine ⟨⟨(β.toList.map (Fin.cast hlength)).toArray, hcount⟩, ?_, rfl⟩
  unfold warmStart?
  rw [hplaces]
  exact dif_pos hcount

end StandardForm

namespace Instance

variable {i : Instance ℚ} {signs : Option (List (Label × ℚ))}
  {ε : Fin (i.standardForm signs).columns.length → ℚ} {stored : List (Label × ℚ)}

private theorem signOf?_eq_none_of_not_artificial {l : Label} (hl : l.isArtificial = false) :
    signOf? (i.standardForm signs).signs l = none := by
  apply signOf?_eq_none
  rintro e he rfl
  obtain ⟨P, -, he⟩ := List.mem_flatMap.mp he
  obtain ⟨s, -, rfl⟩ := RowPlan.mem_sign.mp he
  cases hl

theorem exists_artificial {l : Label} (hl : l ∈ (i.standardForm signs).labels)
    (hartificial : l.isArtificial = true) :
    ∃ P ∈ i.plans, l = .artificial P.label ∧ ∃ a, P.artificial? signs = some a := by
  obtain ⟨r, rfl⟩ := Label.owner?_of_isArtificial hartificial
  have hr := mem_rowLabels_of_owner? hl rfl
  rw [rowLabels_standardForm] at hr
  obtain ⟨P, hP, rfl⟩ := List.mem_map.mp hr
  refine ⟨P, hP, rfl, Option.ne_none_iff_exists'.mp fun hnone => ?_⟩
  exact artificial_notMem_labels hP hnone hl

namespace Stores

private theorem artificial?_isSome (h : Stores i signs ε stored) {P : RowPlan ℚ}
    (hP : P ∈ i.plans) :
    (P.artificial? (some stored)).isSome = (P.artificial? signs).isSome := by
  cases ha : P.artificial? signs with
  | none => rw [h.absent P hP ha]
  | some a =>
      have hmem := mem_columns_of_plan hP
        (List.mem_append_right _ (artificial_mem_columns ha (i.sense.toMax 0)))
      obtain ⟨c, hc⟩ := List.mem_iff_get.mp hmem
      rw [h.kept P hP a ha c (congrArg FormColumn.label hc)]
      rfl

private theorem labels_eq (h : Stores i signs ε stored) :
    (i.standardForm (some stored)).labels = (i.standardForm signs).labels := by
  rw [StandardForm.labels, StandardForm.labels, standardForm_columns, standardForm_columns,
    List.map_append, List.map_append, List.map_flatMap, List.map_flatMap]
  congr 1
  refine List.flatMap_congr fun P hP => ?_
  have hsome := h.artificial?_isSome hP
  rw [P.columns_row, P.columns_row, List.map_append, List.map_append]
  congr 1
  unfold RowPlan.artificialColumns
  cases ha : P.artificial? signs <;> cases hb : P.artificial? (some stored) <;>
    simp_all [FormColumn.single]

private theorem sign_eq (h : Stores i signs ε stored)
    {q : Program ℚ (i.standardForm signs).rows.length (i.standardForm signs).columns.length}
    (hε : SignChange (i.standardForm signs).program q ε) (j : _) :
    (signOf? (i.standardForm (some stored)).signs
      ((i.standardForm signs).columns.get j).label).getD 1 = q.signs.get j := by
  rw [hε.sign, StandardForm.get_signs]
  cases hj : ((i.standardForm signs).columns.get j).label.isArtificial with
  | false =>
      rw [signOf?_eq_none_of_not_artificial hj, signOf?_eq_none_of_not_artificial hj,
        hε.fixed j (by rw [StandardForm.get_barred, hj]), one_mul]
  | true =>
      obtain ⟨P, hP, hl, a, ha⟩ := exists_artificial (List.mem_map_of_mem (List.get_mem _ j)) hj
      rw [hl, signOf?_standardForm hP ha, signOf?_standardForm hP (h.kept P hP a ha j hl)]
      rfl

end Stores

variable (i) in
private theorem rhs_standardForm (signs signs' : Option (List (Label × ℚ))) :
    (i.standardForm signs').rows.map (·.rhs) = (i.standardForm signs).rows.map (·.rhs) := by
  simp only [standardForm_rows, List.map_map, Function.comp_def, rhs_row]

variable {q : Program ℚ (i.standardForm signs).rows.length (i.standardForm signs).columns.length}

/-- The form that is built from the signs of a program is that program. -/
theorem copies_standardForm (hi : i.Sound) (hε : SignChange (i.standardForm signs).program q ε)
    {β : Basis (i.standardForm signs).rows.length (i.standardForm signs).columns.length}
    {p : BasisPayload ℚ} (hp : (i.standardForm signs).payload β q.signs = p) :
    ∃ γ, (i.standardForm (some p.signs)).warmStart? p = some γ ∧
      Copies q β (i.standardForm (some p.signs)).program γ ∧
      (i.standardForm (some p.signs)).payload γ (i.standardForm (some p.signs)).program.signs =
        p := by
  subst hp
  let g := i.standardForm (some ((i.standardForm signs).payload β q.signs).signs)
  have hstored : Stores i signs ε _ := stores_payload hε β
  have hextends : StandardForm.Extends (i.standardForm signs) g ε :=
    (Grown.refl i).standardForm_extends hi hi hε β
  have hlabels : g.labels = (i.standardForm signs).labels := hstored.labels_eq
  have hrows : g.rowLabels = (i.standardForm signs).rowLabels := by
    rw [rowLabels_standardForm, rowLabels_standardForm]
  have hheight : (i.standardForm signs).rows.length = g.rows.length :=
    (length_eq_of_map_eq hrows).symm
  have hwidth : (i.standardForm signs).columns.length = g.columns.length :=
    (length_eq_of_map_eq hlabels).symm
  have hlabel : ∀ j, (g.columns.get (j.cast hwidth)).label =
      ((i.standardForm signs).columns.get j).label := get_cast_of_map_eq hlabels hwidth
  have hrow : ∀ k, (g.rows.get (k.cast hheight)).label =
      ((i.standardForm signs).rows.get k).label := get_cast_of_map_eq hrows hheight
  have hcolumn : ∀ j, (g.columns.get (j.cast hwidth)).cost =
        ((i.standardForm signs).columns.get j).cost ∧
      ∀ r ∈ (i.standardForm signs).rows, (g.columns.get (j.cast hwidth)).entry r.label =
        ε j * ((i.standardForm signs).columns.get j).entry r.label := by
    intro j
    obtain ⟨c, hc, hclabel, hspec⟩ := hextends.column j
    rwa [StandardForm.column_ext hextends.newLabels (List.get_mem _ _) hc
      ((hlabel j).trans hclabel.symm)]
  have hsign : ∀ j, g.program.signs.get (j.cast hwidth) = q.signs.get j := by
    intro j
    rw [StandardForm.get_signs, hlabel]
    exact hstored.sign_eq hε j
  obtain ⟨γ, hwarm, hγ⟩ :=
    StandardForm.exists_warmStart_of_labels hextends.newLabels hlabels hrows hwidth β q.signs
  refine ⟨γ, hwarm, ?_, StandardForm.payload_congr hlabels hrows hwidth hγ hsign⟩
  refine ⟨hheight.symm, hwidth.symm, hγ, fun k j => ?_, fun k => ?_, fun j => ?_, fun j => ?_,
    hsign⟩
  · rw [StandardForm.matrix_apply, hrow, (hcolumn j).2 _ (List.get_mem _ k), hε.column,
      StandardForm.matrix_apply]
  · rw [hε.rhs, StandardForm.get_rhs, StandardForm.get_rhs]
    exact get_cast_of_map_eq (i.rhs_standardForm signs _) hheight k
  · rw [hε.cost, StandardForm.get_cost, StandardForm.get_cost, (hcolumn j).1]
  · rw [hε.barred, StandardForm.get_barred, StandardForm.get_barred, hlabel]

end Instance

end IncrementalLP
