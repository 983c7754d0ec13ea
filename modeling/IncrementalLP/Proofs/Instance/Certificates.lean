import IncrementalLP.Proofs.Form.Prices
import IncrementalLP.Proofs.Instance.StoredBases
/-!
# Certified results

The prices of the rows that an exact solve reports certify that the point which it reports is a
best one, whether the solve is cold or starts from a stored basis.
-/
namespace IncrementalLP.Instance

open Program

variable {i : Instance ℚ} {o : SolveOptions ℚ}

/-- Where a result reports prices, they certify the point that it reports. -/
def Certifies (i : Instance ℚ) (r : SolveResult ℚ) : Prop :=
  ∀ ys, r.duals = some ys → ∃ xs v w, r.x = some xs ∧ i.Reports xs v ∧ i.Quotes ys w ∧
    i.Complementary v w ∧ i.Optimal v

private theorem answer_certifies (hi : i.Sound) {signs : Option (List (Label × ℚ))} {ε : _}
    {q : Program ℚ (i.standardForm signs).rows.length (i.standardForm signs).columns.length}
    (hε : SignChange (i.standardForm signs).program q ε) (method : SolveMethod)
    (o : SolveOptions ℚ) {out : Outcome ℚ _ _} (hsettled : q.Settled out.basis out.ending) :
    i.Certifies (i.answer (i.standardForm signs) method o out).result := by
  unfold answer
  cases hend : out.ending with
  | optimal point =>
      rw [hend] at hsettled
      cases hsettled with
      | optimal hoptimal =>
      intro ys hys
      obtain ⟨v, w, hreports, hquotes, hcomplementary, hbest⟩ :=
        exists_complementary hi hε hoptimal
      simp only at hys
      split at hys
      · obtain rfl := Option.some.inj hys
        exact ⟨_, v, w, rfl, hreports, hquotes, hcomplementary, hbest⟩
      · cases hys
  | infeasible | dualUnbounded | unbounded | phaseOneUnbounded | iterationLimit | timeLimit =>
      intro ys hys
      cases hys

private theorem solvePrimal_certifies (hi : i.Sound) (htol : o.tolerance = 0) :
    i.Certifies (i.solvePrimal o).result :=
  answer_certifies hi (.refl _) .primal o (i.twoPhase_standardForm_settled htol)

/-- A stored basis only has to be regular in the form, if it has its place there at all. -/
theorem solveDual_certifies (hi : i.Sound) (htol : o.tolerance = 0) {p : BasisPayload ℚ}
    (hregular : i.StartsRegular (some p)) : i.Certifies (i.solveDual o (some p)).result := by
  obtain ⟨refusal, hanswer⟩ | ⟨signs, q, ε, out, hε, hsettled, -, hanswer⟩ :=
    solveDual_settled htol hregular
  · rw [hanswer]
    exact solvePrimal_certifies hi htol
  · rw [hanswer]
    exact answer_certifies hi hε .dual o hsettled

/-- Reported prices certify the reported point, in cold solves, in warm solves from handles that
solves with any tolerance have yielded, and in those from any stored basis that is regular in the
form, if it has its place there at all. -/
theorem certifies_of_solve (hi : i.Reachable) (htol : o.tolerance = 0) :
    i.Certifies (i.solvePrimal o).result ∧
      (∀ h, Yielded i h → i.Certifies (i.solveDual o h.payload).result) ∧
      ∀ p, (∀ β, (i.standardForm (some p.signs)).warmStart? p = some β →
          (i.standardForm (some p.signs)).program.Regular β) →
        i.Certifies (i.solveDual o (some p)).result := by
  refine ⟨solvePrimal_certifies hi.sound htol, fun h hh => ?_,
    fun p hregular => solveDual_certifies hi.sound htol hregular⟩
  obtain ⟨p, hp, hstems⟩ := hh.stems
  rw [hp]
  exact solveDual_certifies hi.sound htol fun β hwarm => hstems.regular hi.sound hwarm

/-- The prices of the sample problem, and those after its cut has been appended. -/
theorem certifies_of_solve_sample :
    let i := Sample.ofParts .max Sample.parts
    let j := Sample.cutting.after i
    (∃ v w, i.Quotes [0, 0, 1 / 2, 1 / 2] w ∧ i.Complementary v w ∧ i.Optimal v) ∧
      ∃ v w, j.Quotes [0, 2 / 3, 0, 0, 1 / 3] w ∧ j.Complementary v w ∧ j.Optimal v := by
  intro i j
  have hi : i.Reachable := Sample.ofParts_reachable .max Sample.parts
  have hj : j.Reachable := .step Sample.cutting hi
  constructor
  · have hduals : (i.solvePrimal Sample.exact).result.duals = some [0, 0, 1 / 2, 1 / 2] := by
      decide +kernel
    obtain ⟨_, v, w, -, -, hquotes, hcomplementary, hbest⟩ :=
      (certifies_of_solve hi (o := Sample.exact) rfl).1 _ hduals
    exact ⟨v, w, hquotes, hcomplementary, hbest⟩
  · have hduals : ((i.solvePrimal Sample.exact).result.basis.map fun h =>
        (j.solveDual Sample.exact h.payload).result.duals) =
          some (some [0, 2 / 3, 0, 0, 1 / 3]) := by
      decide +kernel
    obtain ⟨h, hbasis, hduals⟩ := Option.map_eq_some_iff.mp hduals
    have hcold : Yielded i h := .cold (o := Sample.exact) hi le_rfl hbasis
    have hyielded : Yielded j h := hcold.after Sample.cutting rfl
    obtain ⟨_, v, w, -, -, hquotes, hcomplementary, hbest⟩ :=
      (certifies_of_solve hj (o := Sample.exact) rfl).2.1 h hyielded _ hduals
    exact ⟨v, w, hquotes, hcomplementary, hbest⟩

end IncrementalLP.Instance
