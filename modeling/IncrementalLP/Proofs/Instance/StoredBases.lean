import IncrementalLP.Proofs.Instance.Visits
/-!
# Stored bases

What a warm solve starts from may come from anywhere: its labels may be unknown or too few, its
artificial columns may have any signs, and its prices may be wrong. The answer is right all the
same, as long as the start that is read from it has independent columns.
-/
namespace IncrementalLP.Instance

open Program

variable {i : Instance ℚ} {o : SolveOptions ℚ}

/-- The start that a stored basis comes to in the form of the instance, if it comes to one, has
independent columns. -/
def StartsRegular (i : Instance ℚ) (stored : Option (BasisPayload ℚ)) : Prop :=
  let p := stored.getD ⟨[], [], []⟩
  ∀ β, (i.standardForm (some p.signs)).warmStart? p = some β →
    (i.standardForm (some p.signs)).program.Regular β

instance {m n : ℕ} (p : Program ℚ m n) : DecidablePred p.Regular := fun β =>
  decidable_of_iff ((p.basisMatrix β).det ≠ 0) Iff.rfl

instance (i : Instance ℚ) (stored : Option (BasisPayload ℚ)) : Decidable (i.StartsRegular stored) :=
  let p := stored.getD ⟨[], [], []⟩
  decidable_of_iff (∀ β ∈ (i.standardForm (some p.signs)).warmStart? p,
    (i.standardForm (some p.signs)).program.Regular β) Iff.rfl

/-- A warm solve falls back on a cold one, or its outcome is settled for the form with the signs
that the artificial columns have at the end. Prices that are not dominant are found out before the
first pivot. -/
theorem solveDual_settled (htol : o.tolerance = 0) {stored : Option (BasisPayload ℚ)}
    (hregular : i.StartsRegular stored) :
    (∃ refusal, i.solveDual o stored = i.refused o refusal) ∨
      ∃ signs q ε out, SignChange (i.standardForm signs).program q ε ∧
        q.Settled out.basis out.ending ∧ out.signs = q.signs ∧
        i.solveDual o stored = i.answer (i.standardForm signs) .dual o out := by
  -- without a payload a solve starts from an empty one
  obtain ⟨-, hrefused⟩ | ⟨β, out, hwarm, hout, hanswer⟩ :=
    i.solveDual_cases o (stored.getD ⟨[], [], []⟩)
  · exact .inl hrefused
  · have hdominant := dominant_of_repair htol (hregular β hwarm) (i.costless _) hout
    obtain ⟨q, ε, hε, hsettled, hsigns⟩ := repair_settled htol hdominant hout
    exact .inr ⟨_, q, ε, out, hε, hsettled, hsigns, hanswer⟩

/-- After a refusal the verdict is that of the cold solve. -/
theorem refused_confirms (hi : i.Sound) (htol : o.tolerance = 0) (refusal : WarmRefusal) :
    i.Confirms (i.refused o refusal).result := by
  have hcold := solvePrimal_confirms hi htol
  exact ⟨hcold.optimal, hcold.infeasible, hcold.unbounded⟩

theorem solveDual_confirms (hi : i.Sound) (htol : o.tolerance = 0)
    (stored : Option (BasisPayload ℚ)) (hregular : i.StartsRegular stored) :
    i.Confirms (i.solveDual o stored).result := by
  obtain ⟨refusal, hanswer⟩ | ⟨signs, q, ε, out, hε, hsettled, -, hanswer⟩ :=
    solveDual_settled htol hregular
  · rw [hanswer]
    exact refused_confirms hi htol refusal
  · rw [hanswer]
    exact answer_confirms hi hε .dual o hsettled

/-- The verdict of a warm solve is right, whatever basis is stored, if the start that it comes to
has independent columns. -/
theorem solveDual_right (hi : i.Reachable) (htol : o.tolerance = 0)
    (stored : Option (BasisPayload ℚ)) (hregular : i.StartsRegular stored) :
    let r := (i.solveDual o stored).result
    (r.status = .optimal → ∃ v, i.Optimal v ∧ r.objective = some (i.value v) ∧
        ∃ xs, r.x = some xs ∧ i.Reports xs v) ∧
      (r.status = .infeasible → ∀ v, ¬ i.Feasible v) ∧
      (r.status = .unbounded →
        (∃ v, i.Feasible v) ∧ ∀ K, ∃ v, i.Feasible v ∧ i.sense.Better (i.value v) K) := by
  intro r
  have hconfirms : i.Confirms r := solveDual_confirms hi.sound htol stored hregular
  refine ⟨hconfirms.optimal, hconfirms.infeasible, fun hstatus => ?_⟩
  have hunbounded := hconfirms.unbounded hstatus
  obtain ⟨v, hv, -⟩ := hunbounded 0
  exact ⟨⟨v, hv⟩, hunbounded⟩

/-- A start at which an artificial column that was put in with sign two has to leave, and cannot;
and a start of slacks that is not dual feasible. -/
theorem solveDual_right_sample :
    (∀ v, ¬ (Sample.ofParts .min Sample.contradictory).Feasible v) ∧
      ∃ v, (Sample.ofParts .max Sample.parts).Optimal v ∧
        (Sample.ofParts .max Sample.parts).value v = 29 / 2 := by
  constructor
  · let p : BasisPayload ℚ :=
      ⟨[.varPos 0, .artificial (.row 1)], [.row 0, .row 1], [(.artificial (.row 1), 2)]⟩
    exact (solveDual_right (Sample.ofParts_reachable .min Sample.contradictory) (o := Sample.exact)
      rfl (some p) (by decide +kernel)).2.1 (by decide +kernel)
  · let p : BasisPayload ℚ :=
      ⟨[.slack 0, .slack 1, .slack 2, .slack 3], [.row 0, .row 1, .row 2, .row 3], []⟩
    obtain ⟨v, hv, hvalue, -⟩ :=
      (solveDual_right (Sample.ofParts_reachable .max Sample.parts) (o := Sample.exact)
        rfl (some p) (by decide +kernel)).1 (by decide +kernel)
    have hobjective : ((Sample.ofParts .max Sample.parts).solveDual Sample.exact
        (some p)).result.objective = some (29 / 2) := by
      decide +kernel
    exact ⟨v, hv, Option.some.inj (hvalue.symm.trans hobjective)⟩

end IncrementalLP.Instance
