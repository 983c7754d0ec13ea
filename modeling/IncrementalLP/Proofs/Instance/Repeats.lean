import IncrementalLP.Proofs.Form.Rebuilds
import IncrementalLP.Proofs.Form.Repeats
import IncrementalLP.Proofs.Instance.StoredBases
/-!
# Solves that are repeated

What an optimal solve has stored leads a warm solve of the same problem back to the program with
which that solve has ended. The basis is optimal there, so that the warm solve says the same again
without a pivot.
-/
namespace IncrementalLP

/-- The second result says the same as the first one, by the dual method and without a pivot, and
the same is stored with it. -/
structure SolveResult.Repeats {α : Type} (r r' : SolveResult α) : Prop where
  status : r'.status = .optimal
  method : r'.method = .dual
  iterations : r'.iterations = 0
  x : r'.x = r.x
  objective : r'.objective = r.objective
  duals : r'.duals = r.duals
  handle : ∃ h h', r.basis = some h ∧ r'.basis = some h' ∧ h'.payload = h.payload

namespace Instance

open Program

variable {i j : Instance ℚ} {o : SolveOptions ℚ} {r : SolveResult ℚ}

/-- The result is what an optimal basis of a form of the instance stands for, up to the signs of
artificial columns. -/
inductive Concluded (i : Instance ℚ) (o : SolveOptions ℚ) (r : SolveResult ℚ) : Prop
  | of_optimal {signs : Option (List (Label × ℚ))} {ε : _}
      {q : Program ℚ (i.standardForm signs).rows.length (i.standardForm signs).columns.length}
      {β : _} {point : Point ℚ _ _} :
      SignChange (i.standardForm signs).program q ε → q.Optimal β point →
      r.x = some ((i.standardForm signs).solution point.x) →
      r.objective = some (i.objectiveAt (i.standardForm signs) point.objective) →
      r.duals = (if o.wantDuals && (i.standardForm signs).rows.length != 0 then
        some ((i.standardForm signs).duals point.prices) else none) →
      r.basis.map (·.payload) = some (some ((i.standardForm signs).payload β q.signs)) →
      Concluded i o r

private theorem concluded_of_answer {signs : Option (List (Label × ℚ))} {ε : _}
    {q : Program ℚ (i.standardForm signs).rows.length (i.standardForm signs).columns.length}
    {method : SolveMethod} {out : Outcome ℚ _ _}
    (hε : SignChange (i.standardForm signs).program q ε)
    (hsettled : q.Settled out.basis out.ending) (hsigns : out.signs = q.signs)
    (hstatus : (i.answer (i.standardForm signs) method o out).result.status = .optimal) :
    i.Concluded o (i.answer (i.standardForm signs) method o out).result := by
  unfold answer at hstatus ⊢
  cases hend : out.ending with
  | optimal point =>
      rw [hend] at hsettled
      cases hsettled with
      | optimal hoptimal =>
      exact .of_optimal hε hoptimal rfl rfl rfl (by rw [← hsigns]; rfl)
  | infeasible | dualUnbounded | unbounded | phaseOneUnbounded | iterationLimit | timeLimit =>
      rw [hend] at hstatus
      cases hstatus

theorem concluded_of_solvePrimal (htol : o.tolerance = 0)
    (hstatus : (i.solvePrimal o).result.status = .optimal) :
    i.Concluded o (i.solvePrimal o).result :=
  concluded_of_answer (.refl _) (i.twoPhase_standardForm_settled htol) (twoPhase_signs _ _ _)
    hstatus

theorem concluded_of_solveDual (htol : o.tolerance = 0) {stored : Option (BasisPayload ℚ)}
    (hregular : i.StartsRegular stored)
    (hstatus : (i.solveDual o stored).result.status = .optimal) :
    i.Concluded o (i.solveDual o stored).result := by
  obtain ⟨refusal, hanswer⟩ | ⟨signs, q, ε, out, hε, hsettled, hsigns, hanswer⟩ :=
    solveDual_settled htol hregular
  · rw [hanswer] at hstatus ⊢
    obtain ⟨hε, hoptimal, hx, hobjective, hduals, hpayload⟩ :=
      concluded_of_solvePrimal htol hstatus
    exact .of_optimal hε hoptimal hx hobjective hduals hpayload
  · rw [hanswer] at hstatus ⊢
    exact concluded_of_answer hε hsettled hsigns hstatus

theorem Concluded.recorded (h : i.Concluded o r) : i.Concluded o (i.recorded r) := by
  obtain ⟨hε, hoptimal, hx, hobjective, hduals, hpayload⟩ := h
  refine .of_optimal hε hoptimal hx hobjective hduals ?_
  rw [← hpayload]
  show (r.basis.map _).map _ = _
  rw [Option.map_map]
  rfl

/-- An instance that holds another one and has no rows beyond it has the same forms. -/
theorem Retains.standardForm_eq (h : Retains i j) (hrows : j.numRows = i.numRows) (hi : i.Sound)
    (hj : j.Sound) (signs : Option (List (Label × ℚ))) :
    j.standardForm signs = i.standardForm signs := by
  apply (h.begins hi hj).standardForm_eq hrows
  rw [denseRows_eq hi, denseRows_eq hj, hrows, h.numColumns_eq]
  refine List.map_congr_left fun k hk => List.map_congr_left fun l _ => ?_
  rw [← SparseMatrix.valueAt_filter j.matrix.entries (List.mem_range.mp hk), h.entries,
    SparseMatrix.valueAt_filter _ (List.mem_range.mp hk)]

private theorem solveDual_eq_answer {f : StandardForm ℚ} {p : BasisPayload ℚ}
    (hform : i.standardForm (some p.signs) = f)
    {γ : Basis f.rows.length f.columns.length} (hwarm : f.warmStart? p = some γ)
    {out : Outcome ℚ f.rows.length f.columns.length} (hout : f.program.repair? o γ = some out) :
    i.solveDual o (some p) = i.answer f .dual o out := by
  subst hform
  unfold solveDual
  simp only [Option.getD_some, hwarm, hout]

theorem Concluded.repeats (h : i.Concluded o r) (hi : i.Sound) (hij : Retains i j)
    (hrows : j.numRows = i.numRows) (hj : j.Sound) {o' : SolveOptions ℚ} (htol : o'.tolerance = 0)
    (hwant : o'.wantDuals = o.wantDuals) :
    ∃ p, r.basis.map (·.payload) = some (some p) ∧ r.Repeats (j.solveDual o' (some p)).result := by
  cases h with
  | @of_optimal signs ε q β point hε hoptimal hx hobjective hduals hpayload =>
  generalize hp : (i.standardForm signs).payload β q.signs = p at hpayload
  refine ⟨p, hpayload, ?_⟩
  obtain ⟨γ, hwarm, hcopies, hstored⟩ := copies_standardForm hi hε hp
  obtain ⟨point', hoptimal', hpoint, hvalue, hprices⟩ := hcopies.transfer
    (P := fun q β => ∃ point', q.Optimal β point' ∧ point'.x.toList = point.x.toList ∧
      point'.objective = point.objective ∧ point'.prices.toList = point.prices.toList)
    ⟨point, hoptimal, rfl, rfl, rfl⟩
  have hform : j.standardForm (some p.signs) = i.standardForm (some p.signs) :=
    hij.standardForm_eq hrows hi hj _
  have hanswer : j.solveDual o' (some p) = j.answer (i.standardForm (some p.signs)) .dual o'
      ⟨⟨γ, 0, .optimal point', []⟩, (i.standardForm (some p.signs)).program.signs⟩ :=
    solveDual_eq_answer hform hwarm (hoptimal'.repair_eq htol)
  have hlabels : (i.standardForm (some p.signs)).rowLabels = (i.standardForm signs).rowLabels := by
    rw [rowLabels_standardForm, rowLabels_standardForm]
  have hlength : (i.standardForm (some p.signs)).rows.length = (i.standardForm signs).rows.length :=
    length_eq_of_map_eq hlabels
  rw [hanswer]
  refine ⟨rfl, rfl, rfl, ?_, ?_, ?_, ?_⟩
  · rw [hx]
    exact congrArg some (StandardForm.solution_congr hpoint)
  · rw [hobjective, ← hvalue]
    unfold answer objectiveAt
    rw [hij.sense]
    rfl
  · rw [hduals]
    unfold answer
    simp only [hwant, hlength, StandardForm.duals_congr hprices hlabels rfl]
  · obtain ⟨h, hbasis, hh⟩ := Option.map_eq_some_iff.mp hpayload
    refine ⟨h, _, hbasis, rfl, ?_⟩
    rw [hh]
    exact congrArg some hstored

theorem repeats_recorded (i : Instance ℚ) {r' : SolveResult ℚ} (h : r.Repeats r') :
    r.Repeats (i.recorded r') := by
  obtain ⟨kept, issued, hkept, hissued, hpayload⟩ := h.handle
  refine ⟨h.status, h.method, h.iterations, h.x, h.objective, h.duals,
    kept, { issued with stamp := issued.stamp <|> some (i.token, i.solves) }, hkept, ?_, hpayload⟩
  show r'.basis.map _ = _
  rw [hissued]
  rfl

end Instance

end IncrementalLP
