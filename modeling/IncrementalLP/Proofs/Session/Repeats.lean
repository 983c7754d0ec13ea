import IncrementalLP.Proofs.Instance.Repeats
import IncrementalLP.Proofs.Session.Choice
import IncrementalLP.Proofs.Session.Resolves
import IncrementalLP.Proofs.Session.Roots
/-!
# Solving again

An instance that has not changed since an optimal solve is solved again without a pivot, by either
rule and under any limits, and nothing that is reported or stored differs.
-/
namespace IncrementalLP.Instance

open Operation

/-- The second instance is the first one, up to names, with the same record of the last solve. -/
structure Unchanged {α : Type} (i j : Instance α) : Prop extends Undisturbed i j where
  numRows : j.numRows = i.numRows
  loaded : j.loaded = i.loaded

/-- The call is an exact solve on the simplex engine, with the options `o`, and its result `r` is
optimal. -/
structure Operation.Optimizes (i : Instance ℚ) (op : Operation ℚ) (o : SolveOptions ℚ)
    (r : SolveResult ℚ) : Prop where
  engine : ∃ s e, op.session? = some s ∧ s.engine = .simplex e
  options : op.options? = some o
  tolerance : o.tolerance = 0
  result : op.result? i = some r
  status : r.status = .optimal

variable {i : Instance ℚ} {op : Operation ℚ} {o : SolveOptions ℚ} {r : SolveResult ℚ}

private theorem Operation.Optimizes.completes (h : op.Optimizes i o r) : op.Completes i := by
  obtain ⟨s, e, hs, he⟩ := h.engine
  cases op with
  | solveCold s o | solveWarm s handle o | solve s o =>
      obtain rfl := Option.some.inj hs
      exact ⟨e, he⟩
  | load | assignNames | addRow | addRows | addColumns | changeBounds | changeObjective
    | changeSense => cases hs

private theorem Operation.Optimizes.spec (h : op.Optimizes i o r) (hi : i.Rooted)
    (hsound : i.Sound) :
    i.Concluded o r ∧ (op.after i).loaded = true ∧ (op.after i).numRows = i.numRows ∧
      ∃ kept, r.basis = some kept ∧ Holds (op.after i) i kept := by
  obtain ⟨hnone, -⟩ | ⟨hloaded, r', hr, hresult, hafter⟩ := h.completes.results h.options
  · rw [h.result] at hnone
    cases hnone
  · obtain rfl := Option.some.inj (h.result.symm.trans hresult)
    have hstatus : r'.status = .optimal := h.status
    obtain ⟨kept, hkept, -, hholds⟩ := hr.bases.holds hstatus
    rw [hafter]
    refine ⟨Concluded.recorded ?_, hloaded, rfl, kept, hkept, hholds⟩
    cases hr with
    | cold => exact concluded_of_solvePrimal h.tolerance hstatus
    | warm hbasis =>
        exact concluded_of_solveDual h.tolerance (hi.startsRegular hsound hbasis) hstatus

/-- After every run of calls, returned or failed, by sessions on any engines: where an exact solve
on the simplex engine was optimal and the instance has not changed since, an exact warm solve under
any limits and by either rule repeats its result, and does so without a pivot. -/
theorem solveWarm_repeats (token : ℕ) (name : String) {earlier later : List (Operation ℚ)}
    (hearlier : ∀ op ∈ earlier, op.Tolerant)
    (hop : op.Optimizes (run (declare token name) earlier) o r)
    (hlater : Unchanged (run (declare token name) (earlier ++ [op]))
      (run (declare token name) (earlier ++ op :: later)))
    {s : Session ℚ} {o' : Option (SolveOptions ℚ)} (hs : s.Exact o')
    (hwant : (o'.getD s.options).wantDuals = o.wantDuals) {handle : Option (BasisHandle ℚ)}
    (hhandle : handle = none ∨ handle = r.basis) :
    ∃ r', (Session.solveWarm handle o' (s, run (declare token name) (earlier ++ op :: later))).answer =
        .ok r' ∧ r.Repeats r' := by
  have hsound : (run (declare token name) earlier).Sound := sound_run (.declare token name) earlier
  have hrooted : (run (declare token name) earlier).Rooted :=
    rooted_run (rooted_of_none rfl) (.declare token name) hearlier
  have hnow : (run (declare token name) (earlier ++ op :: later)).Sound :=
    sound_run (.declare token name) _
  rw [run_concat] at hlater
  generalize run (declare token name) earlier = i at hop hlater hsound hrooted
  generalize run (declare token name) (earlier ++ op :: later) = j at hlater hnow ⊢
  obtain ⟨hconcluded, hloaded, hrows, kept, hkept, hholds⟩ := hop.spec hrooted hsound
  have hheld : Holds j i kept := hholds.undisturbed hlater.toUndisturbed
  have hjloaded : j.loaded = true := hlater.loaded.trans hloaded
  obtain ⟨p, hp, hrepeats⟩ := hconcluded.repeats hsound hheld.retains
    (hlater.numRows.trans hrows) hnow hs.tolerance hwant
  rw [hkept] at hp hhandle
  have hpayload : kept.payload = some p := Option.some.inj hp
  rw [← hpayload] at hrepeats
  refine ⟨j.recorded (j.solveDual (o'.getD s.options) kept.payload).result, ?_,
    repeats_recorded j hrepeats⟩
  rw [hheld.solveWarm_eq hjloaded hs.onSimplex hhandle o']
  exact (Session.perform_simplex hs.engine hjloaded fun _ => rfl).2

/-- The sample problem, solved by the rule of the smallest subscript and turned to the direction
that it has already, is solved again by the other rule, where neither a pivot nor any time is
left. -/
theorem solveWarm_repeats_sample :
    let again : SolveOptions ℚ :=
      { Sample.exact with rule := .dantzig, maxIterations := 0, timeLimit := some 0 }
    let cold : Operation ℚ := .solveCold Sample.session none
    let i := run (declare 0 "sample")
      [.load ⟨"sample", .ok .max, Sample.parts.rows, Sample.parts.columns,
        .held Sample.parts.matrix⟩, cold, .changeSense (.ok .max)]
    ∃ r r', cold.result? (Sample.ofParts .max Sample.parts) = some r ∧ r.iterations = 2 ∧
      (Session.solveWarm none (some again) (Sample.session, i)).answer = .ok r' ∧
      r.Repeats r' := by
  intro again cold i
  have hcold : (cold.result? (Sample.ofParts .max Sample.parts)).map
      (fun r => (r.status, r.iterations)) = some (.optimal, 2) := by decide +kernel
  obtain ⟨r, hresult, hr⟩ := Option.map_eq_some_iff.mp hcold
  obtain ⟨hstatus, hiterations⟩ := Prod.mk.inj hr
  have htolerant : ∀ op ∈ [(.load ⟨"sample", .ok .max, Sample.parts.rows, Sample.parts.columns,
      .held Sample.parts.matrix⟩ : Operation ℚ)], op.Tolerant := by
    intro op hop
    rw [List.mem_singleton.mp hop]
    exact nofun
  have hlater : Unchanged (run (declare 0 "sample")
      [.load ⟨"sample", .ok .max, Sample.parts.rows, Sample.parts.columns,
        .held Sample.parts.matrix⟩, cold]) i := ⟨.refl _, rfl, rfl⟩
  have hop : cold.Optimizes (Sample.ofParts .max Sample.parts) Sample.exact r :=
    ⟨⟨Sample.session, {}, rfl, rfl⟩, rfl, rfl, hresult, hstatus⟩
  obtain ⟨r', hanswer, hrepeats⟩ := @solveWarm_repeats cold Sample.exact r 0 "sample"
    [.load ⟨"sample", .ok .max, Sample.parts.rows, Sample.parts.columns,
      .held Sample.parts.matrix⟩] [.changeSense (.ok .max)] htolerant hop hlater
    Sample.session (some again) ⟨rfl, ⟨{}, rfl⟩, rfl⟩ rfl none (Or.inl rfl)
  exact ⟨r, r', hresult, hiterations, hanswer, hrepeats⟩

end IncrementalLP.Instance
