import IncrementalLP.Proofs.Instance.Visits
import IncrementalLP.Proofs.Session.Handles
/-!
# Handles of sessions

Where all solves run on the simplex engine, the handle that an instance keeps is one that its
solves have yielded. Sessions start warm solves from no other.
-/
namespace IncrementalLP

namespace Instance

variable {i : Instance ℚ} {o : SolveOptions ℚ} {r : SolveResult ℚ}

/-- The handle that comes with a result of the simplex engine is yielded. -/
theorem Results.yielded (h : i.Results o r) (hi : i.Reachable) (hj : (i.recordSolve r).Reachable)
    (htol : 0 ≤ o.tolerance) (hkept : ∀ h, i.basis = some h → Yielded i h) :
    ∀ h, (i.recordSolve r).basis = some h → Yielded (i.recordSolve r) h := by
  have hresult : ∀ h, r.basis = some h → Yielded i h := by
    cases h with
    | cold => exact fun h hbasis => .cold hi htol hbasis
    | warm hbasis => exact fun h hresult => .warm (hkept _ hbasis) htol hresult
  intro h hbasis
  obtain ⟨h', hr, rfl⟩ := Option.map_eq_some_iff.mp hbasis
  exact .grown (Retains.recordSolve i r).grown hj ((hresult h' hr).stamped _)

namespace Operation

/-- A solve, if the call is one, has a tolerance that is not negative. -/
def Tolerant (op : Operation ℚ) : Prop := ∀ o, op.options? = some o → 0 ≤ o.tolerance

variable {α : Type} [Scalar α] {i : Instance α} {op : Operation α}

private theorem exists_options {r : SolveResult α} (h : op.result? i = some r) :
    ∃ o, op.options? = some o := by
  cases op with
  | solveCold s o | solveWarm s handle o | solve s o => exact ⟨_, rfl⟩
  | load | assignNames | addRow | addRows | addColumns | changeBounds | changeObjective
    | changeSense => cases h

/-- A solve on the simplex engine fails and changes nothing, or it records its result. -/
theorem Completes.results {o : SolveOptions α} (hop : op.Completes i) (ho : op.options? = some o) :
    op.result? i = none ∧ op.after i = i ∨
      i.loaded = true ∧ ∃ r, i.Results o r ∧ op.result? i = some (i.recorded r) ∧
        op.after i = i.recordSolve r := by
  have of_results : ∀ {a : Attempt (Solving α) α (SolveResult α)},
      ((∃ f, a.answer = .error f) ∧ a.state.2 = i ∨
        i.loaded = true ∧ ∃ r, i.Results o r ∧ a.answer = .ok (i.recorded r) ∧
          a.state.2 = i.recordSolve r) →
      a.answer.toOption = none ∧ a.state.2 = i ∨
        i.loaded = true ∧ ∃ r, i.Results o r ∧ a.answer.toOption = some (i.recorded r) ∧
          a.state.2 = i.recordSolve r := by
    rintro a (⟨⟨f, hf⟩, hstate⟩ | ⟨hloaded, r, hr, hanswer, hstate⟩)
    · exact Or.inl ⟨by rw [hf]; rfl, hstate⟩
    · exact Or.inr ⟨hloaded, r, hr, by rw [hanswer]; rfl, hstate⟩
  cases op with
  | solveCold s o =>
      obtain rfl := Option.some.inj ho
      exact of_results ((Session.solveCold_course s i o).results hop)
  | solveWarm s handle o =>
      obtain rfl := Option.some.inj ho
      exact of_results ((Session.solveWarm_course s i o handle).results hop)
  | solve s o =>
      obtain rfl := Option.some.inj ho
      exact of_results ((Session.solve_course s i o).results hop)
  | load | assignNames | addRow | addRows | addColumns | changeBounds | changeObjective
    | changeSense => cases ho

end Operation

private theorem reachable_run {i : Instance ℚ} (hi : i.Reachable) (ops : List (Operation ℚ)) :
    (Operation.run i ops).Reachable := by
  induction ops generalizing i with
  | nil => exact hi
  | cons op ops ih => exact ih (.step op hi)

/-- Whatever calls an instance has gone through, the handle that it keeps was yielded. -/
theorem yielded_of_run (token : ℕ) (name : String) {ops : List (Operation ℚ)}
    (hops : Operation.Throughout (fun i op => op.Completes i ∧ op.Tolerant)
      (declare token name) ops) :
    ∀ h, (Operation.run (declare token name) ops).basis = some h →
      Yielded (Operation.run (declare token name) ops) h := by
  induction ops using List.reverseRecOn with
  | nil => exact nofun
  | append_singleton ops op ih =>
      obtain ⟨hops, hop, htol⟩ := Operation.throughout_concat.mp hops
      have hkept := ih hops
      have hi := reachable_run (.declare token name) ops
      rw [Operation.run_concat]
      cases hop.effect with
      | kept _ _ hu =>
          intro h hbasis
          exact .grown hu.toRetains.grown (.step op hi) (hkept h (hu.basis ▸ hbasis))
      | cleared _ _ hc =>
          intro h hbasis
          rw [hc.basis] at hbasis
          cases hbasis
      | solved _ hresult _ _ =>
          obtain ⟨o, ho⟩ := Operation.exists_options hresult
          obtain ⟨hnone, -⟩ | ⟨-, r, hr, -, hafter⟩ := hop.results ho
          · rw [hnone] at hresult
            cases hresult
          · rw [hafter]
            exact hr.yielded hi (hafter ▸ .step op hi) (htol o ho) hkept

end Instance

end IncrementalLP
