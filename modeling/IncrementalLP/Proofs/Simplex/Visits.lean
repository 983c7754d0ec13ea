import IncrementalLP.Proofs.Simplex.Dual
/-!
# Visited bases

The loops of the simplex method solve linear systems for the bases that they come to. Whatever the
tolerance is, all of these are regular if the first one is: an entry that is not snapped to zero is
not zero, and columns are only ever negated.
-/
namespace IncrementalLP.Program

variable {m n : ℕ} {p q : Program ℚ m n} {o : SolveOptions ℚ} {β γ : Basis m n}

/-- The columns of the basis are distinct and independent, and the systems of the basis and of its
transpose are solved by elimination. -/
structure Solvable (p : Program ℚ m n) (β : Basis m n) : Prop where
  distinct : Function.Injective β.get
  regular : p.Regular β
  eliminable : Dense.Eliminable (Dense.transpose (p.basic β))
  eliminable_transpose : Dense.Eliminable (p.basic β)

theorem Regular.solvable (hβ : p.Regular β) : p.Solvable β where
  distinct := hβ.injective
  regular := hβ
  eliminable := by
    apply Dense.eliminable_of_det
    rw [toMatrix_transpose_basic]
    exact hβ
  eliminable_transpose := by
    apply Dense.eliminable_of_det
    rw [toMatrix_basic, Matrix.det_transpose]
    exact hβ

private theorem regular_of_no_rows (p : Program ℚ 0 n) (β : Basis 0 n) : p.Regular β := by
  unfold Regular
  rw [Matrix.det_isEmpty]
  exact one_ne_zero

/-- The bases to which the pivots of the primal loop lead. Without rows there is no loop. -/
def PrimalVisits (p : Program ℚ m n) (o : SolveOptions ℚ) (limit : ℤ) (β γ : Basis m n) : Prop :=
  m ≠ 0 ∧ ∃ t ≤ (p.primal o limit β).iterations, Trail (p.PrimalStep o) t β γ

/-- The bases to which the pivots of the dual loop lead, each with the program before and after
columns of the basis are negated. -/
inductive DualVisits (p : Program ℚ m n) (o : SolveOptions ℚ) (limit : ℤ) (β : Basis m n) :
    Program ℚ m n → Basis m n → Prop
  | found {t : ℕ} {q : Program ℚ m n} {γ : Basis m n} : t ≤ (p.dual o limit β).iterations →
      Trail (DualStep o) t (p, β) (q, γ) → DualVisits p o limit β q γ
  | turned {q : Program ℚ m n} {γ : Basis m n} : DualVisits p o limit β q γ →
      DualVisits p o limit β (q.turned o γ) γ

private theorem primalVisits_basis (hm : m ≠ 0) (limit : ℤ) :
    p.PrimalVisits o limit β (p.primal o limit β).basis :=
  ⟨hm, _, le_rfl, p.primal_trail o limit β⟩

private theorem dualVisits_basis (limit : ℤ) :
    p.DualVisits o limit β (p.dual o limit β).program (p.dual o limit β).basis := by
  obtain ⟨q, htrail, hprogram, -⟩ := p.exists_dual_trail o limit β
  rw [hprogram]
  exact .turned (.found le_rfl htrail)

private theorem PrimalVisits.regular (htol : 0 ≤ o.tolerance) (hβ : p.Regular β) {limit : ℤ}
    (h : p.PrimalVisits o limit β γ) : p.Regular γ := by
  obtain ⟨-, t, -, htrail⟩ := h
  exact htrail.preserves (fun _ _ hβ hstep => hstep.regular htol hβ) hβ

/-- The entry on which the dual method pivots is not zero. -/
theorem tableauRow_ne_zero (htol : 0 ≤ o.tolerance) {k : Fin m} {e : ℚ × Fin n}
    (h : q.dualEnteringAt? o β k = some e) : q.tableauRow β k e.2 ≠ 0 := by
  have hmem := (mem_enterable.mp (dualEntering?_mem h).1).2.2
  rw [decide_eq_true_eq] at hmem
  apply Scalar.ne_zero_of_snap_ne_zero
  have hsnap : (q.pivotRow o β k).get e.2 = Scalar.snap o.tolerance (q.tableauRow β k e.2) := by
    rw [pivotRow, Vector.get_ofFn, Dense.dot_eq]
    rfl
  rw [hsnap] at hmem
  exact (hmem.trans_le (neg_nonpos.mpr htol)).ne

private theorem Regular.turned (hβ : p.Regular β) (o : SolveOptions ℚ) :
    (p.turned o β).Regular β := by
  obtain ⟨ε, hε⟩ := exists_signChange_turned (o := o) hβ
  exact hε.regular hβ

private theorem DualStep.regular (htol : 0 ≤ o.tolerance) {s t : DualState m n} (h : DualStep o s t)
    (hs : s.1.Regular s.2) : t.1.Regular t.2 := by
  obtain ⟨hturned, k, e, -, he, hset⟩ := h
  have hβ : t.1.Regular s.2 := by
    rw [hturned]
    exact hs.turned o
  rw [hset]
  apply hβ.set
  rw [← tableauRow_eq_inBasis hβ]
  exact tableauRow_ne_zero htol he

private theorem DualVisits.spec (htol : 0 ≤ o.tolerance) (hβ : p.Regular β) {limit : ℤ}
    (h : p.DualVisits o limit β q γ) : q.Regular γ ∧ ∃ ε, SignChange p q ε := by
  induction h with
  | found hle htrail =>
      exact htrail.preserves
        (P := fun s => s.1.Regular s.2 ∧ ∃ ε, SignChange p s.1 ε)
        (fun _ _ hs hstep => ⟨hstep.regular htol hs.1,
          hs.2.elim fun _ hε => hstep.signChange hs.1 hε⟩)
        ⟨hβ, 1, .refl p⟩
  | turned _ ih =>
      obtain ⟨hγ, ε, hε⟩ := ih
      obtain ⟨δ, hδ⟩ := exists_signChange_turned (o := o) hγ
      exact ⟨hγ.turned o, _, hε.trans hδ⟩

/-- The programs and bases of the loops of the two phases. -/
inductive TwoPhaseVisits (p : Program ℚ m n) (o : SolveOptions ℚ) (β : Basis m n) :
    Program ℚ m n → Basis m n → Prop
  | only {γ : Basis m n} : (m = 0 || !p.barred.contains true) = true →
      p.PrimalVisits (o.after 0) (o.maxIterations - (0 : ℕ)) β γ → TwoPhaseVisits p o β p γ
  | first {γ : Basis m n} : (m = 0 || !p.barred.contains true) = false →
      p.phaseOne.PrimalVisits o o.maxIterations β γ → TwoPhaseVisits p o β p.phaseOne γ
  | second {γ : Basis m n} {point : Point ℚ m n} :
      (m = 0 || !p.barred.contains true) = false →
      (p.phaseOne.primal o o.maxIterations β).ending = .optimal point →
      ¬ o.tolerance < p.artificialSum point.x →
      p.PrimalVisits (o.after (p.phaseOne.primal o o.maxIterations β).iterations)
        (o.maxIterations - (p.phaseOne.primal o o.maxIterations β).iterations)
        (p.phaseOne.primal o o.maxIterations β).basis γ →
      TwoPhaseVisits p o β p γ

/-- The programs and bases of the dual loop and of the primal loop after it. -/
inductive RepairVisits (p : Program ℚ m n) (o : SolveOptions ℚ) (β : Basis m n) :
    Program ℚ m n → Basis m n → Prop
  | dual {q : Program ℚ m n} {γ : Basis m n} : p.DualVisits o o.maxIterations β q γ →
      RepairVisits p o β q γ
  | polish {γ : Basis m n} : (p.dual o o.maxIterations β).ending = .optimal →
      (p.dual o o.maxIterations β).program.PrimalVisits
        (o.after (p.dual o o.maxIterations β).iterations)
        (o.maxIterations - (p.dual o o.maxIterations β).iterations)
        (p.dual o o.maxIterations β).basis γ →
      RepairVisits p o β (p.dual o o.maxIterations β).program γ

theorem TwoPhaseVisits.regular (htol : 0 ≤ o.tolerance) (hβ : p.Regular β)
    (h : p.TwoPhaseVisits o β q γ) : q.Regular γ := by
  cases h with
  | only _ hvisits => exact hvisits.regular (o := o.after _) htol hβ
  | first _ hvisits => exact hvisits.regular htol hβ
  | @second _ point hskip _ _ hvisits =>
      have hm : m ≠ 0 := hvisits.1
      have hfirst : p.phaseOne.Regular (p.phaseOne.primal o o.maxIterations β).basis :=
        (primalVisits_basis hm o.maxIterations).regular htol hβ
      exact hvisits.regular (o := o.after _) htol hfirst

theorem RepairVisits.regular (htol : 0 ≤ o.tolerance) (hβ : p.Regular β)
    (h : p.RepairVisits o β q γ) : q.Regular γ := by
  cases h with
  | dual hvisits => exact (hvisits.spec htol hβ).1
  | polish _ hvisits =>
      exact hvisits.regular (o := o.after _) htol
        ((dualVisits_basis o.maxIterations).spec htol hβ).1

private theorem twoPhaseVisits_basis (hm : m ≠ 0) :
    ∃ q, p.TwoPhaseVisits o β q (p.twoPhase o β).basis ∧ (q = p ∨ q = p.phaseOne) := by
  have hphased := phased_twoPhase p o β
  generalize p.twoPhase o β = out at hphased ⊢
  cases hphased with
  | skipped hskip => exact ⟨p, .only hskip (primalVisits_basis hm _), Or.inl rfl⟩
  | unbounded hskip | iterationLimit hskip | timeLimit hskip | infeasible hskip =>
      exact ⟨_, .first hskip (primalVisits_basis hm _), Or.inr rfl⟩
  | finished hskip hend hsum =>
      exact ⟨p, .second hskip hend hsum (primalVisits_basis hm _), Or.inl rfl⟩

theorem twoPhase_regular (htol : 0 ≤ o.tolerance) (hβ : p.Regular β) :
    p.Regular (p.twoPhase o β).basis := by
  rcases eq_or_ne m 0 with rfl | hm
  · exact regular_of_no_rows p _
  · obtain ⟨q, hvisits, rfl | rfl⟩ := twoPhaseVisits_basis (p := p) (o := o) (β := β) hm
    · exact hvisits.regular htol hβ
    · -- the first phase changes costs, but no columns
      have hfirst : p.phaseOne.Regular (p.twoPhase o β).basis := hvisits.regular htol hβ
      exact hfirst

/-- A repair ends at a regular basis of the program with the signs that it has at the end. -/
theorem repair_regular (htol : 0 ≤ o.tolerance) (hβ : p.Regular β) {out : Outcome ℚ m n}
    (h : p.repair? o β = some out) :
    ∃ q ε, SignChange p q ε ∧ q.Regular out.basis ∧ out.signs = q.signs := by
  obtain ⟨hregular, ε, hε⟩ :=
    (dualVisits_basis (p := p) (o := o) (β := β) o.maxIterations).spec htol hβ
  refine ⟨_, ε, hε, ?_⟩
  cases repaired_of_repair h with
  | infeasible _ | iterationLimit _ | timeLimit _ => exact ⟨hregular, rfl⟩
  | optimal _ =>
      refine ⟨?_, rfl⟩
      rcases eq_or_ne m 0 with rfl | hm
      · exact regular_of_no_rows _ _
      · exact PrimalVisits.regular (o := o.after (p.dual o o.maxIterations β).iterations) htol
          hregular (primalVisits_basis hm _)

end IncrementalLP.Program
