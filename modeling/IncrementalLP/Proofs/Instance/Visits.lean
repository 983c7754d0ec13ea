import IncrementalLP.Proofs.Form.Growth
import IncrementalLP.Proofs.Instance.Verdicts
import IncrementalLP.Proofs.Simplex.Visits
/-!
# Linear systems of a solve

In exact arithmetic every linear system of a solve has one solution, whatever the tolerance is. A
cold solve starts from a diagonal matrix, and the basis that a solve has stored is regular again in
the form with the rows added since.
-/
namespace IncrementalLP.Instance

open Program

variable {i j : Instance ℚ} {o : SolveOptions ℚ} {h : BasisHandle ℚ}

/-- The programs and bases of the loops of a cold solve. -/
def ColdVisits (i : Instance ℚ) (o : SolveOptions ℚ) :
    Program ℚ (i.standardForm none).rows.length (i.standardForm none).columns.length →
      Basis (i.standardForm none).rows.length (i.standardForm none).columns.length → Prop :=
  (i.standardForm none).program.TwoPhaseVisits o (i.standardForm none).start

/-- The programs and bases of the loops of a solve from a stored basis, and those of the cold solve
after it where the basis is refused. -/
inductive WarmVisits (i : Instance ℚ) (o : SolveOptions ℚ) (p : BasisPayload ℚ) :
    {m n : ℕ} → Program ℚ m n → Basis m n → Prop
  | repair {β γ : Basis (i.standardForm (some p.signs)).rows.length
        (i.standardForm (some p.signs)).columns.length} {q : Program ℚ _ _} :
      (i.standardForm (some p.signs)).warmStart? p = some β →
      (i.standardForm (some p.signs)).program.RepairVisits o β q γ → WarmVisits i o p q γ
  | misplaced {γ : Basis (i.standardForm none).rows.length (i.standardForm none).columns.length}
      {q : Program ℚ _ _} :
      (i.standardForm (some p.signs)).warmStart? p = none →
      i.ColdVisits o q γ → WarmVisits i o p q γ
  | mispriced {β : Basis (i.standardForm (some p.signs)).rows.length
        (i.standardForm (some p.signs)).columns.length}
      {γ : Basis (i.standardForm none).rows.length (i.standardForm none).columns.length}
      {q : Program ℚ _ _} :
      (i.standardForm (some p.signs)).warmStart? p = some β →
      (i.standardForm (some p.signs)).program.repair? o β = none →
      i.ColdVisits o q γ → WarmVisits i o p q γ

theorem solveDual_cases {α : Type} [Scalar α] (i : Instance α) (o : SolveOptions α)
    (p : BasisPayload α) :
    ((∀ β, (i.standardForm (some p.signs)).warmStart? p = some β →
        (i.standardForm (some p.signs)).program.repair? o β = none) ∧
        ∃ refusal, i.solveDual o (some p) = i.refused o refusal) ∨
      ∃ β out, (i.standardForm (some p.signs)).warmStart? p = some β ∧
        (i.standardForm (some p.signs)).program.repair? o β = some out ∧
        i.solveDual o (some p) = i.answer (i.standardForm (some p.signs)) .dual o out := by
  cases hwarm : (i.standardForm (some p.signs)).warmStart? p with
  | none =>
      left
      refine ⟨nofun, .basisMismatch, ?_⟩
      unfold solveDual
      simp only [Option.getD_some, hwarm]
  | some β =>
      cases hout : (i.standardForm (some p.signs)).program.repair? o β with
      | none =>
          left
          refine ⟨fun γ hγ => Option.some.inj hγ ▸ hout, .notDualFeasible, ?_⟩
          unfold solveDual
          simp only [Option.getD_some, hwarm, hout]
      | some out =>
          right
          refine ⟨β, out, rfl, hout, ?_⟩
          unfold solveDual
          simp only [Option.getD_some, hwarm, hout]

/-- What is stored is a regular basis of an earlier form of the instance, up to the signs of
artificial columns. -/
inductive Stems (j : Instance ℚ) : BasisPayload ℚ → Prop
  | of_regular {i : Instance ℚ} {signs : Option (List (Label × ℚ))} {ε : _}
      {q : Program ℚ (i.standardForm signs).rows.length (i.standardForm signs).columns.length}
      {β : _} : i.Sound → Grown i j → SignChange (i.standardForm signs).program q ε →
      q.Regular β → Stems j ((i.standardForm signs).payload β q.signs)

variable {p : BasisPayload ℚ}

theorem Stems.grown (hp : i.Stems p) (hij : Grown i j) : j.Stems p := by
  obtain ⟨hi, hgrown, hε, hβ⟩ := hp
  exact .of_regular hi (hgrown.trans hij) hε hβ

/-- Such a basis has its place in the form with the rows added since. -/
theorem Stems.exists_warmStart (hp : i.Stems p) (hi : i.Sound) :
    ∃ γ, (i.standardForm (some p.signs)).warmStart? p = some γ ∧
      (i.standardForm (some p.signs)).program.Regular γ := by
  obtain ⟨hj, hgrown, hε, hβ⟩ := hp
  obtain ⟨γ, hwarm, hγ, -⟩ :=
    (hgrown.standardForm_extends hj hi hε _).exists_warmStart hε hβ _
  exact ⟨γ, hwarm, hγ⟩

theorem Stems.regular (hp : i.Stems p) (hi : i.Sound) {β : _}
    (hβ : (i.standardForm (some p.signs)).warmStart? p = some β) :
    (i.standardForm (some p.signs)).program.Regular β := by
  obtain ⟨γ, hwarm, hγ⟩ := hp.exists_warmStart hi
  obtain rfl := Option.some.inj (hβ.symm.trans hwarm)
  exact hγ

private theorem stems_of_answer (hi : i.Sound) {signs : Option (List (Label × ℚ))} {ε : _}
    {q : Program ℚ (i.standardForm signs).rows.length (i.standardForm signs).columns.length}
    (hε : SignChange (i.standardForm signs).program q ε) {method : SolveMethod}
    {out : Outcome ℚ _ _} (hregular : q.Regular out.basis) (hsigns : out.signs = q.signs)
    (hbasis : (i.answer (i.standardForm signs) method o out).result.basis = some h) :
    ∃ p, h.payload = some p ∧ i.Stems p := by
  obtain ⟨-, rfl⟩ := answer_basis_eq_some hbasis
  refine ⟨_, rfl, ?_⟩
  rw [hsigns]
  exact .of_regular hi (.refl i) hε hregular

private theorem start_regular (i : Instance ℚ) :
    (i.standardForm none).program.Regular (i.standardForm none).start := i.start_viable.regular

theorem stems_of_solvePrimal (hi : i.Sound) (htol : 0 ≤ o.tolerance)
    (hbasis : (i.solvePrimal o).result.basis = some h) : ∃ p, h.payload = some p ∧ i.Stems p :=
  stems_of_answer hi (.refl _) (twoPhase_regular htol i.start_regular) (twoPhase_signs _ _ _) hbasis

theorem stems_of_solveDual (hi : i.Sound) (htol : 0 ≤ o.tolerance)
    (hregular : ∀ β, (i.standardForm (some p.signs)).warmStart? p = some β →
      (i.standardForm (some p.signs)).program.Regular β)
    (hbasis : (i.solveDual o (some p)).result.basis = some h) :
    ∃ p, h.payload = some p ∧ i.Stems p := by
  obtain ⟨-, refusal, hanswer⟩ | ⟨β, out, hwarm, hout, hanswer⟩ := i.solveDual_cases o p
  · rw [hanswer] at hbasis
    exact stems_of_solvePrimal hi htol hbasis
  · rw [hanswer] at hbasis
    obtain ⟨q, ε, hε, hregular, hsigns⟩ := repair_regular htol (hregular β hwarm) hout
    exact stems_of_answer hi hε hregular hsigns hbasis

/-- The handles that solves of an instance have yielded, each with a tolerance of its own, where the
instance may have got rows and names since. -/
inductive Yielded : Instance ℚ → BasisHandle ℚ → Prop
  | cold {i : Instance ℚ} {o : SolveOptions ℚ} {h : BasisHandle ℚ} : i.Reachable →
      0 ≤ o.tolerance → (i.solvePrimal o).result.basis = some h → Yielded i h
  | warm {i : Instance ℚ} {o : SolveOptions ℚ} {h h' : BasisHandle ℚ} : Yielded i h →
      0 ≤ o.tolerance → (i.solveDual o h.payload).result.basis = some h' → Yielded i h'
  | stamped {i : Instance ℚ} {h : BasisHandle ℚ} (stamp : Option (ℕ × ℕ)) : Yielded i h →
      Yielded i { h with stamp := stamp }
  | grown {i j : Instance ℚ} {h : BasisHandle ℚ} : Grown i j → j.Reachable → Yielded i h →
      Yielded j h

private theorem Yielded.reachable (hh : Yielded i h) : i.Reachable := by
  induction hh with
  | cold hi _ _ => exact hi
  | warm _ _ _ ih => exact ih
  | stamped _ _ ih => exact ih
  | grown _ hj _ _ => exact hj

theorem Yielded.after (hh : Yielded i h) (op : Operation ℚ) (hop : op.grows = true) :
    Yielded (op.after i) h := .grown (.after hop) (.step op hh.reachable) hh

/-- Every handle that was yielded holds a basis that is regular in the form of the instance. -/
theorem Yielded.stems (hh : Yielded i h) : ∃ p, h.payload = some p ∧ i.Stems p := by
  induction hh with
  | cold hi htol hbasis => exact stems_of_solvePrimal hi.sound htol hbasis
  | warm hh htol hbasis ih =>
      obtain ⟨p, hp, hstems⟩ := ih
      rw [hp] at hbasis
      have hi := hh.reachable.sound
      exact stems_of_solveDual hi htol (fun _ => hstems.regular hi) hbasis
  | stamped _ _ ih => exact ih
  | grown hij _ _ ih =>
      obtain ⟨p, hp, hstems⟩ := ih
      exact ⟨p, hp, hstems.grown hij⟩

private theorem ColdVisits.regular (htol : 0 ≤ o.tolerance) {q : Program ℚ _ _} {γ : _}
    (hvisits : i.ColdVisits o q γ) : q.Regular γ :=
  TwoPhaseVisits.regular htol i.start_regular hvisits

private theorem WarmVisits.regular (hp : i.Stems p) (hi : i.Sound) (htol : 0 ≤ o.tolerance)
    {m n : ℕ}
    {q : Program ℚ m n} {γ : Basis m n} (hvisits : i.WarmVisits o p q γ) : q.Regular γ := by
  cases hvisits with
  | repair hwarm hrepair => exact hrepair.regular htol (hp.regular hi hwarm)
  | misplaced _ hcold => exact hcold.regular htol
  | mispriced _ _ hcold => exact hcold.regular htol

/-- Every basis that a loop comes to, in a cold solve or in a warm solve from a handle that was
yielded, has independent columns, and elimination solves its systems. -/
theorem solvable_of_visits (hi : i.Reachable) (htol : 0 ≤ o.tolerance) :
    (∀ q γ, i.ColdVisits o q γ → q.Solvable γ) ∧
      ∀ h, Yielded i h → ∃ p, h.payload = some p ∧
        ∀ {m n : ℕ} (q : Program ℚ m n) (γ : Basis m n), i.WarmVisits o p q γ → q.Solvable γ := by
  refine ⟨fun q γ hvisits => (hvisits.regular htol).solvable, fun h hh => ?_⟩
  obtain ⟨p, hp, hstems⟩ := hh.stems
  exact ⟨p, hp, fun q γ hvisits => (hvisits.regular hstems hi.sound htol).solvable⟩

/-- The start of the sample problem, and the start from its optimal basis when the cut has been
appended, under the tolerance of the standard options. -/
theorem solvable_of_visits_sample :
    let i := Sample.ofParts .max Sample.parts
    let j := Sample.cutting.after i
    (i.standardForm none).program.Solvable (i.standardForm none).start ∧
      ∃ p β, (j.standardForm (some p.signs)).warmStart? p = some β ∧
        (j.standardForm (some p.signs)).program.Solvable β := by
  intro i j
  have hi : i.Reachable := Sample.ofParts_reachable .max Sample.parts
  have hj : j.Reachable := .step Sample.cutting hi
  have htol : (0 : ℚ) ≤ (SolveOptions.standard : SolveOptions ℚ).tolerance := by decide +kernel
  constructor
  · exact (solvable_of_visits hi htol).1 _ _
      (.only (by decide +kernel) ⟨by decide +kernel, 0, Nat.zero_le _, .refl _⟩)
  · have hsome : (i.solvePrimal .standard).result.basis.isSome = true := by decide +kernel
    obtain ⟨h, hbasis⟩ := Option.isSome_iff_exists.mp hsome
    have hyielded : Yielded j h := (Yielded.cold hi htol hbasis).after Sample.cutting rfl
    obtain ⟨p, hp, hsolvable⟩ := (solvable_of_visits hj htol).2 h hyielded
    obtain ⟨_, hp', hstems⟩ := hyielded.stems
    obtain rfl := Option.some.inj (hp.symm.trans hp')
    obtain ⟨β, hwarm, -⟩ := hstems.exists_warmStart hj.sound
    exact ⟨p, β, hwarm, hsolvable _ _ (.repair hwarm (.dual (.found (Nat.zero_le _) (.refl _))))⟩

end IncrementalLP.Instance
