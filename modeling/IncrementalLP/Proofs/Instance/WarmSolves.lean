import IncrementalLP.Proofs.Form.Growth
import IncrementalLP.Proofs.Instance.Verdicts
import IncrementalLP.Proofs.Simplex.Cycling
/-!
# Warm solves

A basis that an exact solve of an instance has stored is never refused, however many rows the
instance has got since. What a warm solve answers from it is right, and the basis that it stores
is again one of this kind.
-/
namespace IncrementalLP.Instance

open Program

/-- What is stored is a basis of an earlier form of the instance, up to the signs of artificial
columns, at whose prices no column improves the objective. -/
inductive Fits (j : Instance ℚ) : BasisPayload ℚ → Prop
  | of_dominant {i : Instance ℚ} {signs : Option (List (Label × ℚ))} {ε : _}
      {q : Program ℚ (i.standardForm signs).rows.length (i.standardForm signs).columns.length}
      {β : _} : i.Sound → Grown i j → SignChange (i.standardForm signs).program q ε →
      q.Dominant β → Fits j ((i.standardForm signs).payload β q.signs)

/-- The handle may be used for warm solves of the instance. -/
structure Serves (i : Instance ℚ) (h : BasisHandle ℚ) : Prop where
  owner : h.owner = i.token
  engine : h.engine = simplexName
  numRows : h.numRows ≤ i.numRows
  numColumns : h.numColumns = i.numColumns
  payload : ∃ p, h.payload = some p ∧ i.Fits p

variable {i j : Instance ℚ} {o : SolveOptions ℚ} {h : BasisHandle ℚ} {p : BasisPayload ℚ}

private theorem Fits.grown (hp : i.Fits p) (hij : Grown i j) : j.Fits p := by
  obtain ⟨hi, hgrown, hε, hβ⟩ := hp
  exact .of_dominant hi (hgrown.trans hij) hε hβ

theorem Serves.grown (hh : i.Serves h) (hij : Grown i j) : j.Serves h where
  owner := hh.owner.trans hij.token.symm
  engine := hh.engine
  numRows := hh.numRows.trans hij.numRows_le
  numColumns := hh.numColumns.trans hij.numColumns_eq.symm
  payload := by
    obtain ⟨p, hp, hfits⟩ := hh.payload
    exact ⟨p, hp, hfits.grown hij⟩

theorem Serves.stamped (hh : i.Serves h) (stamp : Option (ℕ × ℕ)) :
    i.Serves { h with stamp := stamp } where
  owner := hh.owner
  engine := hh.engine
  numRows := hh.numRows
  numColumns := hh.numColumns
  payload := hh.payload

section

variable {f : StandardForm ℚ} {method : SolveMethod}
  {out : Outcome ℚ f.rows.length f.columns.length}

private theorem answer_method : (i.answer f method o out).result.method = method := by
  unfold answer
  cases out.ending <;> rfl

theorem answer_status : (i.answer f method o out).result.status = out.ending.status := by
  unfold answer
  cases out.ending <;> rfl

theorem answer_basis (hstatus : (i.answer f method o out).result.status = .optimal) :
    (i.answer f method o out).result.basis.isSome = true := by
  unfold answer at hstatus ⊢
  cases hend : out.ending with
  | optimal point => rfl
  | infeasible | dualUnbounded | unbounded | phaseOneUnbounded | iterationLimit | timeLimit =>
      rw [hend] at hstatus
      cases hstatus

end

private theorem serves_of_settled (hi : i.Sound) {signs : Option (List (Label × ℚ))} {ε : _}
    {q : Program ℚ (i.standardForm signs).rows.length (i.standardForm signs).columns.length}
    (hε : SignChange (i.standardForm signs).program q ε) {method : SolveMethod}
    {out : Outcome ℚ _ _} (hsettled : q.Settled out.basis out.ending)
    (hsigns : out.signs = q.signs)
    (hbasis : (i.answer (i.standardForm signs) method o out).result.basis = some h) :
    i.Serves h := by
  obtain ⟨⟨point, hend⟩, rfl⟩ := answer_basis_eq_some hbasis
  rw [hend] at hsettled
  cases hsettled with
  | optimal hoptimal =>
  have hdominant : q.Dominant out.basis :=
    ⟨hoptimal.viable.regular, hε.costless (i.costless signs), hoptimal.priced⟩
  refine ⟨rfl, rfl, le_rfl, rfl, _, rfl, ?_⟩
  rw [hsigns]
  exact .of_dominant hi (.refl i) hε hdominant

theorem serves_of_solvePrimal (hi : i.Sound) (htol : o.tolerance = 0)
    (hbasis : (i.solvePrimal o).result.basis = some h) : i.Serves h :=
  serves_of_settled hi (.refl _) (i.twoPhase_standardForm_settled htol)
    (twoPhase_signs _ _ _) hbasis

/-- A basis that fits has its place in the form with the rows added since. -/
theorem Fits.exists_warmStart (hp : i.Fits p) (hi : i.Sound) :
    ∃ γ, (i.standardForm (some p.signs)).warmStart? p = some γ ∧
      (i.standardForm (some p.signs)).program.Dominant γ := by
  obtain ⟨hj, hgrown, hε, hβ⟩ := hp
  obtain ⟨γ, hwarm, -, hdominant⟩ :=
    (hgrown.standardForm_extends hj hi hε _).exists_warmStart hε hβ.regular _
  exact ⟨γ, hwarm, hdominant hβ (i.costless _)⟩

theorem Fits.exists_outcome (hp : i.Fits p) (hi : i.Sound) (htol : o.tolerance = 0) :
    ∃ γ out, (i.standardForm (some p.signs)).program.Dominant γ ∧
      (i.standardForm (some p.signs)).program.repair? o γ = some out ∧
      i.solveDual o (some p) = i.answer (i.standardForm (some p.signs)) .dual o out := by
  obtain ⟨γ, hwarm, hγ⟩ := hp.exists_warmStart hi
  obtain ⟨out, hout⟩ := Option.isSome_iff_exists.mp (repair_isSome htol hγ)
  refine ⟨γ, out, hγ, hout, ?_⟩
  unfold solveDual
  simp only [Option.getD_some, hwarm, hout]

theorem Serves.solveDual_method (hh : i.Serves h) (hi : i.Sound) (htol : o.tolerance = 0) :
    (i.solveDual o h.payload).result.method = .dual := by
  obtain ⟨p, hp, hfits⟩ := hh.payload
  obtain ⟨γ, out, -, -, hanswer⟩ := hfits.exists_outcome hi htol
  rw [hp, hanswer]
  exact answer_method

/-- Warm solves are right. -/
theorem Serves.solveDual_confirms (hh : i.Serves h) (hi : i.Sound) (htol : o.tolerance = 0) :
    i.Confirms (i.solveDual o h.payload).result := by
  obtain ⟨p, hp, hfits⟩ := hh.payload
  obtain ⟨γ, out, hγ, hout, hanswer⟩ := hfits.exists_outcome hi htol
  obtain ⟨q, ε, hε, hsettled, -⟩ := repair_settled htol hγ hout
  rw [hp, hanswer]
  exact answer_confirms hi hε .dual o hsettled

theorem Serves.solveDual_serves (hh : i.Serves h) (hi : i.Sound) (htol : o.tolerance = 0)
    {h' : BasisHandle ℚ} (hbasis : (i.solveDual o h.payload).result.basis = some h') :
    i.Serves h' := by
  obtain ⟨p, hp, hfits⟩ := hh.payload
  obtain ⟨γ, out, hγ, hout, hanswer⟩ := hfits.exists_outcome hi htol
  obtain ⟨q, ε, hε, hsettled, hsigns⟩ := repair_settled htol hγ hout
  rw [hp, hanswer] at hbasis
  exact serves_of_settled hi hε hsettled hsigns hbasis

theorem Serves.solveDual_isSome (hh : i.Serves h) (hi : i.Sound) (htol : o.tolerance = 0)
    (hstatus : (i.solveDual o h.payload).result.status = .optimal) :
    (i.solveDual o h.payload).result.basis.isSome = true := by
  obtain ⟨p, hp, hfits⟩ := hh.payload
  obtain ⟨γ, out, -, -, hanswer⟩ := hfits.exists_outcome hi htol
  rw [hp, hanswer] at hstatus ⊢
  exact answer_basis hstatus

/-- The handles that exact solves of an instance have produced, where rows may have been appended
and other solves recorded since. -/
inductive Produced : Instance ℚ → BasisHandle ℚ → Prop
  | cold {i : Instance ℚ} {o : SolveOptions ℚ} {h : BasisHandle ℚ} : i.Reachable →
      o.tolerance = 0 → (i.solvePrimal o).result.basis = some h → Produced i h
  | warm {i : Instance ℚ} {o : SolveOptions ℚ} {h h' : BasisHandle ℚ} : Produced i h →
      o.tolerance = 0 → (i.solveDual o h.payload).result.basis = some h' → Produced i h'
  | stamped {i : Instance ℚ} {h : BasisHandle ℚ} (stamp : Option (ℕ × ℕ)) : Produced i h →
      Produced i { h with stamp := stamp }
  | step {i : Instance ℚ} {h : BasisHandle ℚ} (op : Operation ℚ) : op.grows = true →
      Produced i h → Produced (op.after i) h

private theorem Produced.reachable (hh : Produced i h) : i.Reachable := by
  induction hh with
  | cold hi _ _ => exact hi
  | warm _ _ _ ih => exact ih
  | stamped _ _ ih => exact ih
  | step op _ _ ih => exact .step op ih

/-- Every handle that was produced serves for warm solves. -/
theorem Produced.serves (hh : Produced i h) : i.Serves h := by
  induction hh with
  | cold hi htol hbasis => exact serves_of_solvePrimal hi.sound htol hbasis
  | warm hh htol hbasis ih => exact ih.solveDual_serves hh.reachable.sound htol hbasis
  | stamped stamp _ ih => exact ih.stamped stamp
  | step op hgrows _ ih => exact ih.grown (.after hgrows)

end IncrementalLP.Instance
