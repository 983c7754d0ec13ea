import IncrementalLP.Proofs.Instance.WarmSolves
import IncrementalLP.Proofs.Session.Solves
/-!
# Warm and cold solves of one instance

After an optimal solve, and with rows appended since, an exact warm solve is never refused and
agrees with an exact cold solve. An optimal warm solve leaves the instance in the same situation.
-/
namespace IncrementalLP

/-- Calls that append rows or give names. -/
def Instance.Operation.appends {α : Type} : Instance.Operation α → Bool
  | .assignNames .. | .addRow .. | .addRows .. => true
  | _ => false

namespace Session

/-- An open session on the simplex engine that is asked for an exact solve. -/
structure Exact (s : Session ℚ) (o : Option (SolveOptions ℚ)) : Prop where
  notClosed : s.closed = false
  engine : ∃ e, s.engine = .simplex e
  tolerance : (o.getD s.options).tolerance = 0

variable {s : Session ℚ} {i : Instance ℚ} {o : Option (SolveOptions ℚ)}

theorem Exact.onSimplex (hs : s.Exact o) : s.OnSimplex := ⟨hs.notClosed, hs.engine⟩

private theorem solveCold_eq (hs : s.Exact o) (hloaded : i.loaded = true) :
    (solveCold o (s, i)).state.2 =
        i.recordSolve (i.solvePrimal (o.getD s.options)).result ∧
      (solveCold o (s, i)).answer =
        .ok { (i.solvePrimal (o.getD s.options)).result with
          basis := (i.recordSolve (i.solvePrimal (o.getD s.options)).result).basis } :=
  hs.onSimplex.solveCold_eq hloaded

private theorem checkWarm_ok (hs : s.Exact o) (hprogress : i.progress ≠ .unsolved)
    {h : BasisHandle ℚ}
    (hbasis : i.basis = some h) (hserves : i.Serves h) : s.checkWarm i (some h) = .ok h := by
  obtain ⟨e, he⟩ := hs.engine
  have hname : h.engine = s.engine.name := by
    rw [he, hserves.engine]
    rfl
  exact checkWarm_eq_ok.mpr ⟨hprogress, hbasis, h, rfl, hserves.owner, rfl, hserves.numColumns,
    hserves.numRows, hs.notClosed, hname⟩

theorem solveWarm_eq (hs : s.Exact o) (hloaded : i.loaded = true)
    {handle : Option (BasisHandle ℚ)} {h : BasisHandle ℚ}
    (hcheck : s.checkWarm i (handle <|> i.basis) = .ok h) :
    (solveWarm handle o (s, i)).state.2 =
        i.recordSolve (i.solveDual (o.getD s.options) h.payload).result ∧
      (solveWarm handle o (s, i)).answer =
        .ok { (i.solveDual (o.getD s.options) h.payload).result with
          basis := (i.recordSolve (i.solveDual (o.getD s.options) h.payload).result).basis } := by
  rw [solveWarm_eq_perform hloaded hcheck]
  exact perform_simplex hs.engine hloaded fun _ => rfl

private theorem checkWarm_of_solveWarm {handle : Option (BasisHandle ℚ)} {r : SolveResult ℚ}
    (hanswer : (solveWarm handle o (s, i)).answer = .ok r) :
    ∃ h, s.checkWarm i (handle <|> i.basis) = .ok h := by
  unfold solveWarm at hanswer
  simp only at hanswer
  split at hanswer
  · cases hanswer
  · next h hchecked =>
    obtain ⟨-, -, hcheck⟩ := bind_eq_ok.mp hchecked
    exact ⟨h, hcheck⟩

end Session

namespace Instance

/-- The instances whose last solve was an optimal one, cold or warm, by the simplex engine in exact
arithmetic, and which have only got rows and names since. -/
inductive Resumable : Instance ℚ → Prop
  | cold {s : Session ℚ} {i : Instance ℚ} {o : Option (SolveOptions ℚ)} {r : SolveResult ℚ} :
      i.Reachable → s.Exact o → (Session.solveCold o (s, i)).answer = .ok r →
      r.status = .optimal → Resumable (Session.solveCold o (s, i)).state.2
  | warm {s : Session ℚ} {i : Instance ℚ} {handle : Option (BasisHandle ℚ)}
      {o : Option (SolveOptions ℚ)} {r : SolveResult ℚ} :
      Resumable i → s.Exact o → (Session.solveWarm handle o (s, i)).answer = .ok r →
      r.status = .optimal → Resumable (Session.solveWarm handle o (s, i)).state.2
  | append {i : Instance ℚ} (op : Operation ℚ) : op.appends = true → Resumable i →
      Resumable (op.after i)

private theorem Resumable.reachable {i : Instance ℚ} (hi : i.Resumable) : i.Reachable := by
  induction hi with
  | cold hi _ _ _ => exact .step (.solveCold _ _) hi
  | warm _ _ _ _ ih => exact .step (.solveWarm _ _ _) ih
  | append op _ _ ih => exact .step op ih

/-- The instance has been solved and keeps a basis that serves for warm solves. -/
structure Ready (i : Instance ℚ) : Prop where
  loaded : i.loaded = true
  progress : i.progress ≠ .unsolved
  basis : ∃ h, i.basis = some h ∧ i.Serves h

variable {i : Instance ℚ}

private theorem Serves.recorded {h : BasisHandle ℚ} (hh : i.Serves h) (r : SolveResult ℚ) :
    (i.recordSolve r).Serves h :=
  hh.grown ⟨rfl, rfl, rfl, ⟨[], (List.append_nil _).symm⟩, fun _ _ _ => rfl⟩

private theorem ready_recordSolve (hloaded : i.loaded = true) {r : SolveResult ℚ}
    (hsome : r.basis.isSome = true) (hserves : ∀ h, r.basis = some h → i.Serves h) :
    (i.recordSolve r).Ready := by
  obtain ⟨h, hbasis⟩ := Option.isSome_iff_exists.mp hsome
  refine ⟨hloaded, nofun, { h with stamp := h.stamp <|> some (i.token, i.solves) }, ?_, ?_⟩
  · show r.basis.map _ = _
    rw [hbasis]
    rfl
  · exact ((hserves h hbasis).recorded r).stamped _

/-- What is known of the last solve stays. -/
private structure Kept (i j : Instance ℚ) : Prop where
  loaded : j.loaded = i.loaded
  progress : i.progress ≠ .unsolved → j.progress ≠ .unsolved
  basis : j.basis = i.basis

private theorem Kept.addRows (i : Instance ℚ) (rows : List (Row ℚ))
    (entries : Offer (List (Offer (RowEntries ℚ)))) : Kept i (i.addRows rows entries).state := by
  refine (addRows_atomic rows entries).state_induction (P := Kept i) ⟨rfl, id, rfl⟩ fun h => ?_
  obtain ⟨-, -, added, _, progress, -, hprogress, hstate⟩ := addRows_spec h
  rw [hstate]
  exact ⟨rfl, hprogress, rfl⟩

private theorem Kept.assignNames (i : Instance ℚ) (kind : Except String EntityKind)
    (names : Offer (List Names.Given)) (first last : ℤ) :
    Kept i (i.assignNames kind names first last).state := by
  refine (assignNames_atomic kind names first last).state_induction (P := Kept i) ⟨rfl, id, rfl⟩
    fun h => ?_
  obtain ⟨rows, columns, _, _, -, -, hstate⟩ := assignNames_spec h
  rw [hstate]
  exact ⟨rfl, id, rfl⟩

private theorem Kept.after {op : Operation ℚ} (hop : op.appends = true) : Kept i (op.after i) := by
  cases op with
  | addRows rows entries => exact .addRows i rows entries
  | addRow row entries =>
      refine (addRow_atomic row entries).state_induction (P := Kept i) ⟨rfl, id, rfl⟩ fun h => ?_
      obtain ⟨-, r, -, hrows⟩ := addRow_returns.mp h
      rw [← hrows.1]
      exact .addRows i [r] (.ok [entries])
  | assignNames kind names first last => exact .assignNames i kind names first last
  | load d => cases hop
  | addColumns columns count starts rows values counted => cases hop
  | changeBounds changes => cases hop
  | changeObjective changes => cases hop
  | changeSense sense => cases hop
  | solveCold s o => cases hop
  | solveWarm s handle o => cases hop
  | solve s o => cases hop

private theorem Ready.append (hi : i.Ready) {op : Operation ℚ} (hop : op.appends = true) :
    (op.after i).Ready := by
  obtain ⟨h, hbasis, hserves⟩ := hi.basis
  have hkept : Kept i (op.after i) := .after hop
  have hgrows : op.grows = true := by
    cases op <;> first | rfl | cases hop
  exact ⟨hkept.loaded.trans hi.loaded, hkept.progress hi.progress, h,
    hkept.basis.trans hbasis, hserves.grown (.after hgrows)⟩

private theorem loaded_of_solveCold {s : Session ℚ} {o : Option (SolveOptions ℚ)}
    {r : SolveResult ℚ} (hanswer : (Session.solveCold o (s, i)).answer = .ok r) :
    i.loaded = true := by
  unfold Session.solveCold at hanswer
  simp only at hanswer
  split at hanswer
  · cases hanswer
  · next hchecked =>
    obtain ⟨u, hloaded, -⟩ := bind_eq_ok.mp hchecked
    unfold requireLoaded at hloaded
    by_contra hnot
    rw [if_neg hnot] at hloaded
    cases hloaded

private theorem Ready.exists_handle {s : Session ℚ} {o : Option (SolveOptions ℚ)}
    {handle : Option (BasisHandle ℚ)} {r : SolveResult ℚ} (hi : i.Ready) (hs : s.Exact o)
    (hanswer : (Session.solveWarm handle o (s, i)).answer = .ok r) :
    ∃ h, i.Serves h ∧
      r = { (i.solveDual (o.getD s.options) h.payload).result with
        basis := (i.recordSolve (i.solveDual (o.getD s.options) h.payload).result).basis } ∧
      (Session.solveWarm handle o (s, i)).state.2 =
        i.recordSolve (i.solveDual (o.getD s.options) h.payload).result := by
  obtain ⟨h, hcheck⟩ := Session.checkWarm_of_solveWarm hanswer
  obtain ⟨kept, hkept, hserves⟩ := hi.basis
  have hsame : h = kept := by
    have hbasis := (Session.checkWarm_eq_ok.mp hcheck).2.1
    rw [hkept] at hbasis
    exact (Option.some.inj hbasis).symm
  subst hsame
  obtain ⟨hstate, heq⟩ := Session.solveWarm_eq hs hi.loaded hcheck
  rw [heq] at hanswer
  exact ⟨h, hserves, (Except.ok.inj hanswer).symm, hstate⟩

/-- The situation after an optimal solve is preserved by appended rows and optimal warm solves. -/
theorem Resumable.ready (hi : i.Resumable) : i.Ready := by
  induction hi with
  | @cold s i o r hi hs hanswer hstatus =>
      have hloaded := loaded_of_solveCold hanswer
      obtain ⟨hstate, heq⟩ := Session.solveCold_eq hs hloaded
      rw [heq] at hanswer
      rw [hstate]
      apply ready_recordSolve hloaded
      · apply answer_basis
        rw [← Except.ok.inj hanswer] at hstatus
        exact hstatus
      · intro h hbasis
        exact serves_of_solvePrimal hi.sound hs.tolerance hbasis
  | @warm s i handle o r hi hs hanswer hstatus ih =>
      obtain ⟨h, hserves, rfl, hstate⟩ := ih.exists_handle hs hanswer
      rw [hstate]
      apply ready_recordSolve ih.loaded
      · exact hserves.solveDual_isSome hi.reachable.sound hs.tolerance hstatus
      · intro h' hbasis
        exact hserves.solveDual_serves hi.reachable.sound hs.tolerance hbasis
  | append op hop _ ih => exact ih.append hop

/-- An exact warm solve of an instance that is resumable answers by the dual method, from the basis
that the instance keeps; unless one of them stops at a limit, it agrees with every exact cold solve;
and where it is optimal, the instance is resumable again. -/
theorem Resumable.solveWarm_agrees (hi : i.Resumable) {s : Session ℚ}
    {o : Option (SolveOptions ℚ)} (hs : s.Exact o) :
    (∃ r, (Session.solveWarm none o (s, i)).answer = .ok r) ∧
      (∃ r, (Session.solveWarm i.basis o (s, i)).answer = .ok r) ∧
      ∀ handle r, (Session.solveWarm handle o (s, i)).answer = .ok r → r.method = .dual ∧
        (r.status = .optimal → Resumable (Session.solveWarm handle o (s, i)).state.2) ∧
        ∀ (s' : Session ℚ) (o' : Option (SolveOptions ℚ)), s'.Exact o' →
          ∃ r', (Session.solveCold o' (s', i)).answer = .ok r' ∧
            (r.status ≠ .unfinished → r'.status ≠ .unfinished → r.status = r'.status ∧
              (r.status = .optimal → ∃ z, r.objective = some z ∧ r'.objective = some z)) := by
  have hready := hi.ready
  have hsound := hi.reachable.sound
  obtain ⟨kept, hkept, hserves⟩ := hready.basis
  have hcheck := Session.checkWarm_ok hs hready.progress hkept hserves
  refine ⟨?_, ?_, ?_⟩
  · exact ⟨_, (Session.solveWarm_eq hs hready.loaded (by rw [hkept]; exact hcheck)).2⟩
  · exact ⟨_, (Session.solveWarm_eq hs hready.loaded (by rw [hkept]; exact hcheck)).2⟩
  · intro handle r hanswer
    obtain ⟨h, hserves, hr, -⟩ := hready.exists_handle hs hanswer
    refine ⟨?_, fun hstatus => .warm hi hs hanswer hstatus, fun s' o' hs' => ?_⟩
    · rw [hr]
      exact hserves.solveDual_method hsound hs.tolerance
    · have hagree := (hserves.solveDual_confirms hsound hs.tolerance).agree
        (solvePrimal_confirms hsound hs'.tolerance)
      refine ⟨_, (Session.solveCold_eq hs' hready.loaded).2, ?_⟩
      rw [hr]
      exact hagree

theorem Resumable.solveWarm_agrees_sample :
    ∃ i : Instance ℚ, ∃ r r', i.Resumable ∧
      (Session.solveWarm none none (Sample.session, i)).answer = .ok r ∧
      (Session.solveCold none (Sample.session, i)).answer = .ok r' ∧
      r.method = .dual ∧ r.status = .optimal ∧ r'.status = .optimal ∧
      ∃ z, r.objective = some z ∧ r'.objective = some z := by
  have hexact : Sample.session.Exact none := ⟨rfl, ⟨{}, rfl⟩, rfl⟩
  obtain ⟨-, hsolved⟩ := Session.solveCold_eq (i := Sample.ofParts .max Sample.parts) hexact rfl
  have hresumable : Resumable (Sample.cutting.after
      (Session.solveCold none (Sample.session, Sample.ofParts .max Sample.parts)).state.2) :=
    .append Sample.cutting rfl
      (.cold (Sample.ofParts_reachable .max Sample.parts) hexact hsolved (by decide +kernel))
  obtain ⟨⟨r, hr⟩, -, hlaw⟩ := hresumable.solveWarm_agrees hexact
  obtain ⟨hmethod, -, hagree⟩ := hlaw none r hr
  obtain ⟨r', hr', hsame⟩ := hagree Sample.session none hexact
  have hwarm : (Session.solveWarm none none (Sample.session, Sample.cutting.after
      (Session.solveCold none (Sample.session, Sample.ofParts .max Sample.parts)).state.2)
        ).answer.toOption.map (·.status) = some .optimal := by decide +kernel
  have hcold : (Session.solveCold none (Sample.session, Sample.cutting.after
      (Session.solveCold none (Sample.session, Sample.ofParts .max Sample.parts)).state.2)
        ).answer.toOption.map (·.status) = some .optimal := by decide +kernel
  rw [hr] at hwarm
  rw [hr'] at hcold
  have hwarm' : r.status = .optimal := Option.some.inj hwarm
  have hcold' : r'.status = .optimal := Option.some.inj hcold
  obtain ⟨-, hobjective⟩ := hsame (by rw [hwarm']; nofun) (by rw [hcold']; nofun)
  exact ⟨_, r, r', hresumable, hr, hr', hmethod, hwarm', hcold', hobjective hwarm'⟩

end Instance

end IncrementalLP
