import IncrementalLP.Proofs.Form.Repeats
import IncrementalLP.Proofs.Form.Start
import IncrementalLP.Proofs.Instance.History
import IncrementalLP.Proofs.Simplex.Iterations
/-!
# Repairs of forms

In the program of a form every artificial column is its sign in its own row. The dual loop negates
the column together with the sign, so this holds at every iteration, with all that a dominant basis
keeps. The basis at which it ends without negative values is left alone by the primal method.
-/
namespace IncrementalLP

open Program

namespace StandardForm

variable {f : StandardForm ℚ} {o : SolveOptions ℚ}
  {q r : Program ℚ f.rows.length f.columns.length} {β γ : Basis f.rows.length f.columns.length}

/-- Each artificial column has one entry, in its own row, and it is the sign of the column. -/
def Signed (f : StandardForm ℚ) (q : Program ℚ f.rows.length f.columns.length) : Prop :=
  ∀ j, (f.columns.get j).label.isArtificial = true →
    ∃ k, (f.columns.get j).label = .artificial (f.rows.get k).label ∧
      ∀ l, q.matrix l j = if l = k then q.signs.get j else 0

private theorem Signed.signChange (h : f.Signed q) {ε : Fin f.columns.length → ℚ}
    (hε : SignChange q r ε) : f.Signed r := by
  intro j hj
  obtain ⟨k, hlabel, hentry⟩ := h j hj
  refine ⟨k, hlabel, fun l => ?_⟩
  rw [hε.column, hε.sign, hentry]
  split
  · rfl
  · exact mul_zero _

/-- What holds of the program and the basis at an iteration of a repair from a basis. -/
structure Repairing (f : StandardForm ℚ) (o : SolveOptions ℚ)
    (β : Basis f.rows.length f.columns.length) (q : Program ℚ f.rows.length f.columns.length)
    (γ : Basis f.rows.length f.columns.length) : Prop where
  regular : q.Regular γ
  barred : q.barred = f.program.barred
  reduced : ∀ j, j ∉ γ → q.barred.get j = false →
    (q.reducedCosts o.tolerance γ (q.prices γ)).get j ≤ 0
  entered : f.program.EntersUnbarred β γ
  signed : f.Signed q

private theorem Signed.repairing (hf : f.Signed f.program) (htol : o.tolerance = 0)
    (h : DualKept f.program β (q, γ)) : f.Repairing o β q γ := by
  obtain ⟨ε, hε⟩ := h.signs
  exact
    { regular := h.dominant.regular
      barred := hε.barred
      reduced := fun j _ hj => h.dominant.reducedCosts_nonpos htol hj
      entered := h.entered
      signed := hf.signChange hε }

end StandardForm

namespace Instance

private theorem signed_standardForm (i : Instance ℚ) (signs : Option (List (Label × ℚ))) :
    (i.standardForm signs).Signed (i.standardForm signs).program := by
  intro j hj
  obtain ⟨P, hP, hl, a, ha⟩ := exists_artificial (List.mem_map_of_mem (List.get_mem _ j)) hj
  obtain ⟨k, hk⟩ : ∃ k, (i.standardForm signs).rows.get k = P.row (i.sense.toMax 0) signs :=
    exists_row hP
  have hrow : ((i.standardForm signs).rows.get k).label = P.label := by
    rw [hk, label_row]
  have hcolumn : (i.standardForm signs).columns.get j =
      .single (.artificial P.label) (i.sense.toMax 0) P.label a :=
    StandardForm.column_ext (i.labels_nodup signs) (List.get_mem _ j)
      (mem_columns_of_plan hP (List.mem_append_right _ (artificial_mem_columns ha _))) hl
  have hsign : (i.standardForm signs).program.signs.get j = a := by
    rw [StandardForm.get_signs, hl, signOf?_standardForm hP ha]
    rfl
  refine ⟨k, by rw [hl, hrow], fun l => ?_⟩
  rw [StandardForm.matrix_apply, hcolumn, hsign, ← hrow]
  by_cases hlk : l = k
  · rw [if_pos hlk, hlk]
    exact if_pos rfl
  · rw [if_neg hlk]
    exact if_neg fun h => hlk (StandardForm.row_ext (i.rowLabels_nodup signs) h)

variable {o : SolveOptions ℚ} {signs : Option (List (Label × ℚ))}

/-- A run of the dual loop on a form that passes its test of prices, iteration by iteration. -/
theorem exists_repair_path (i : Instance ℚ) (htol : o.tolerance = 0)
    {β : Basis (i.standardForm signs).rows.length (i.standardForm signs).columns.length}
    (hβ : (i.standardForm signs).program.Regular β) {limit : ℤ} {run : DualRun ℚ _ _}
    (hrun : (i.standardForm signs).program.dual o limit β = run)
    (hpasses : run.ending ≠ .notDualFeasible) :
    ∃ path : ℕ → DualState _ _,
      path 0 = ((i.standardForm signs).program, β) ∧
      (path run.iterations).2 = run.basis ∧ turnedAt o (path run.iterations) = run.program ∧
      (∀ t < run.iterations, DualStep o (path t) (path (t + 1)) ∧
        (i.standardForm signs).program.EntersUnbarred (path t).2 (path (t + 1)).2 ∧
        (turnedAt o (path (t + 1))).worth (path (t + 1)).2 ≤
          (turnedAt o (path t)).worth (path t).2) ∧
      (∀ t ≤ run.iterations,
        (i.standardForm signs).Repairing o β (path t).1 (path t).2 ∧
        (i.standardForm signs).Repairing o β (turnedAt o (path t)) (path t).2) ∧
      (run.ending = .optimal → run.program.Viable run.basis ∧ ∃ point,
        (∀ remaining, run.program.primal o remaining run.basis =
          ⟨run.basis, 0, .optimal point, []⟩) ∧
        (limit = o.maxIterations → (i.standardForm signs).program.repair? o β =
          some ⟨⟨run.basis, run.iterations, .optimal point, run.journal⟩, run.program.signs⟩)) := by
  subst hrun
  have hsigned := i.signed_standardForm signs
  have hdominant := dominant_of_dual htol hβ (i.costless signs) hpasses
  obtain ⟨path, hstart, hbasis, hprogram, hsteps, hkept⟩ := hdominant.exists_path htol limit
  refine ⟨path, hstart, hbasis, hprogram, ?_, ?_, ?_⟩
  · intro t ht
    have hat := hkept t ht.le
    obtain ⟨hentered, hworth⟩ := (hsteps t ht).spec htol hat.dominant
    refine ⟨hsteps t ht, ?_, hworth⟩
    obtain ⟨ε, hε⟩ := hat.signs
    rwa [EntersUnbarred, hε.barred] at hentered
  · intro t ht
    exact ⟨hsigned.repairing htol (hkept t ht), hsigned.repairing htol ((hkept t ht).turned o)⟩
  · intro hending
    obtain ⟨point, hpoint⟩ := exists_optimal_of_dual htol hdominant hending
    refine ⟨hpoint.viable, point, hpoint.primal_eq htol, ?_⟩
    rintro rfl
    exact hpoint.repair_eq_of_dual htol hending

/-- Two rows that start with artificial variables at positive values, and costs at which the start
is priced. -/
def Sample.crossing : ProblemParts ℚ where
  rows := [⟨.atLeast, .finite 3, none⟩, ⟨.equal, .finite 1, none⟩]
  columns := [⟨.finite (-1), .finite 0, .posInf, none⟩, ⟨.finite (-2), .finite 0, .posInf, none⟩]
  matrix := ⟨2, [[(0, 1), (1, 1)], [(0, 1), (1, -1)]], []⟩

/-- Both artificial columns are negated, and two pivots lead from them to an optimal basis. -/
theorem exists_repair_path_crossing :
    ∃ path : ℕ → DualState _ _,
      path 0 = (((Sample.ofParts .max Sample.crossing).standardForm none).program,
        ((Sample.ofParts .max Sample.crossing).standardForm none).start) ∧
      (∀ t < 2, (turnedAt Sample.exact (path (t + 1))).worth (path (t + 1)).2 ≤
        (turnedAt Sample.exact (path t)).worth (path t).2) ∧
      (∀ t ≤ 2, ((Sample.ofParts .max Sample.crossing).standardForm none).Repairing Sample.exact
        ((Sample.ofParts .max Sample.crossing).standardForm none).start
        (turnedAt Sample.exact (path t)) (path t).2) ∧
      (turnedAt Sample.exact (path 2)).Viable (path 2).2 := by
  have hiterations : (((Sample.ofParts .max Sample.crossing).standardForm none).program.dual
      Sample.exact 10000 ((Sample.ofParts .max Sample.crossing).standardForm none).start).iterations =
        2 := by decide +kernel
  have hending : (((Sample.ofParts .max Sample.crossing).standardForm none).program.dual
      Sample.exact 10000 ((Sample.ofParts .max Sample.crossing).standardForm none).start).ending =
        .optimal := by decide +kernel
  obtain ⟨path, hstart, hbasis, hprogram, hsteps, hkept, hoptimal⟩ :=
    exists_repair_path (Sample.ofParts .max Sample.crossing) rfl
      (Sample.ofParts .max Sample.crossing).start_viable.regular rfl (by rw [hending]; nofun)
  rw [hiterations] at hbasis hprogram hsteps hkept
  have hviable := (hoptimal hending).1
  rw [← hbasis, ← hprogram] at hviable
  exact ⟨path, hstart, fun t ht => (hsteps t ht).2.2, fun t ht => (hkept t ht).2, hviable⟩

end Instance

end IncrementalLP
