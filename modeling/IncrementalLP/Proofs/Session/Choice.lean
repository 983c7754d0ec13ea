import IncrementalLP.Proofs.Session.Handles
import IncrementalLP.Proofs.Session.Highs
/-!
# Cold or warm

A session that is asked to solve an instance in the way it sees fit goes by the handle that the
instance keeps. Whether the handle serves is then left to the warm solve, which also compares the
engine that made the handle with the engine of the session.
-/
namespace IncrementalLP

variable {α : Type}

/-- The answer of a script brings no basis, or a new one of the instance that was solved. -/
def Reply.Faithful : Reply α → Prop
  | .result _ _ basis => basis = .absent ∨ basis = .ofInstance
  | _ => True

/-- Every basis that the engine is going to issue is one of the instance that was solved. -/
def Engine.Faithful : Engine α → Prop
  | .simplex _ | .highs _ => True
  | .replay e => ∀ reply ∈ e.script, reply.Faithful

/-- The handle is one of the instance as it is. -/
structure BasisHandle.Of (h : BasisHandle α) (i : Instance α) : Prop where
  owner : h.owner = i.token
  numRows : h.numRows = i.numRows
  numColumns : h.numColumns = i.numColumns

/-- A result of the engine for the instance: if the engine is faithful, its basis is one of the
instance. -/
def Engine.Issues (e : Engine α) (i : Instance α) (r : SolveResult α) : Prop :=
  ∀ h, r.basis = some h → e.Faithful → h.Of i

namespace Engine

variable {e : Engine α} {i : Instance α} {r : SolveResult α} {f : Fault α}

private theorem issues_of_bases (h : i.Bases r) : e.Issues i r := by
  intro kept hkept _
  rcases h with ⟨-, payload, hbasis⟩ | ⟨-, hnone⟩
  · rw [hbasis] at hkept
    obtain rfl := Option.some.inj hkept
    exact ⟨rfl, rfl, rfl⟩
  · rw [hnone] at hkept
    cases hkept

private theorem issues_of_solved {package : Highspy α} {method : SolveMethod} {o : SolveOptions α}
    {object : HighsObject α} (h : package.solved i method o object = .ok r) : e.Issues i r := by
  intro kept hkept _
  rw [Highspy.basis_of_solved h hkept]
  exact ⟨rfl, rfl, rfl⟩

private theorem issues_of_nextReply {e : ReplayEngine α} {method : SolveMethod} {call : EngineCall}
    (h : (nextReply e i method call).answer = .ok r) : (Engine.replay e).Issues i r := by
  intro kept hkept hfaithful
  unfold nextReply at h
  simp only at h
  split at h
  · cases h
  · next reply rest hscript =>
    have hreply : reply.Faithful := hfaithful reply (hscript ▸ List.mem_cons_self)
    split at h
    · cases h
    · cases h
    · next s given basis =>
      obtain rfl := Except.ok.inj h
      rcases hreply with rfl | rfl
      · cases hkept
      · obtain rfl := Option.some.inj hkept
        exact ⟨rfl, rfl, rfl⟩

/-- An engine fails with a report of its own. -/
theorem family_of_nextReply {e : ReplayEngine α} {method : SolveMethod} {call : EngineCall}
    (h : (nextReply e i method call).answer = .error f) : f.family ≠ .warmStartIneligible := by
  unfold nextReply at h
  simp only at h
  split at h
  · cases h
    nofun
  · split at h
    · cases h
      nofun
    · cases h
      nofun
    · cases h

private theorem faithful_register (h : e.Faithful) : (register i e).state.Faithful := by
  cases e with
  | replay e => exact h
  | simplex e | highs e =>
      unfold register
      simp only
      split <;> trivial

private theorem register_returns (hloaded : i.loaded = true) :
    ∃ e', register i e = ⟨e', [], .ok ()⟩ := by
  cases e with
  | simplex e => exact ⟨_, register_simplex hloaded e⟩
  | highs e => exact ⟨_, register_highs hloaded e⟩
  | replay e => exact ⟨_, rfl⟩

variable [Scalar α] {o : SolveOptions α}

/-- What an engine does to solve an instance: its results are issued for the instance, and it does
not speak of warm starts where it fails. -/
structure Solves (i : Instance α) (solve : Action (Engine α) α (SolveResult α)) : Prop where
  issues : ∀ {e r}, (solve e).answer = .ok r → e.Issues i r
  family : ∀ {e f}, (solve e).answer = .error f → f.family ≠ .warmStartIneligible

private theorem solves_solvePrimal (i : Instance α) (o : SolveOptions α) :
    Solves i (solvePrimal i o) where
  issues {e r} hanswer := by
    cases e with
    | replay e => exact issues_of_nextReply hanswer
    | simplex e =>
        obtain rfl := Except.ok.inj hanswer
        exact issues_of_bases (i.solvePrimal_bases o)
    | highs e =>
        obtain ⟨object, hsolved⟩ := HighsEngine.exists_solved_of_solvePrimal hanswer
        exact issues_of_solved hsolved
  family {e f} hanswer := by
    cases e with
    | replay e => exact family_of_nextReply hanswer
    | simplex e => cases hanswer
    | highs e =>
        obtain ⟨report, rfl⟩ := HighsEngine.solvePrimal_eq_error hanswer
        nofun

private theorem solves_solveDual (i : Instance α) (h : BasisHandle α) (o : SolveOptions α) :
    Solves i (solveDual i h o) where
  issues {e r} hanswer := by
    cases e with
    | replay e => exact issues_of_nextReply hanswer
    | simplex e =>
        obtain rfl := Except.ok.inj hanswer
        exact issues_of_bases (i.solveDual_bases o _)
    | highs e =>
        obtain ⟨method, object, hsolved⟩ := HighsEngine.exists_solved_of_solveDual hanswer
        exact issues_of_solved hsolved
  family {e f} hanswer := by
    cases e with
    | replay e => exact family_of_nextReply hanswer
    | simplex e => cases hanswer
    | highs e =>
        obtain ⟨report, rfl⟩ := HighsEngine.solveDual_eq_error hanswer
        nofun

end Engine

namespace Session

variable {s : Session α} {i : Instance α}

/-- A solve leaves the instance alone, or it records a result that was issued for it. -/
def Records (s : Session α) (i : Instance α) (a : Attempt (Solving α) α (SolveResult α)) : Prop :=
  a.state.2 = i ∨ ∃ r, s.engine.Issues i r ∧ a.state.2 = i.recordSolve r

private theorem perform_records {solve : Action (Engine α) α (SolveResult α)}
    (hsolve : Engine.Solves i solve) : s.Records i (perform solve (s, i)) := by
  unfold perform
  simp only
  split
  · exact Or.inl rfl
  · next r hr =>
    refine Or.inr ⟨r, fun h hbasis => ?_, rfl⟩
    obtain ⟨e, _, hregister, hanswer⟩ :=
      Action.returns_bind.mp (⟨rfl, hr⟩ : Action.Returns _ s.engine _ r)
    intro hfaithful
    refine hsolve.issues hanswer.2 h hbasis ?_
    rw [← hregister.1]
    exact Engine.faithful_register hfaithful

private theorem family_of_perform (hloaded : i.loaded = true)
    {solve : Action (Engine α) α (SolveResult α)} (hsolve : Engine.Solves i solve) {f : Fault α}
    (h : (perform solve (s, i)).answer = .error f) : f.family ≠ .warmStartIneligible := by
  obtain ⟨e, hregister⟩ := Engine.register_returns (e := s.engine) hloaded
  have hrun : (do Engine.register i; solve : Action (Engine α) α (SolveResult α)) s.engine =
      solve e := Action.bind_of_ok hregister
  unfold perform at h
  simp only [hrun] at h
  split at h
  · next f' hf' =>
    obtain rfl := Except.error.inj h
    exact hsolve.family hf'
  · cases h

/-- The handle that the instance keeps fits the instance and the engine of the session. -/
structure Takes (s : Session α) (i : Instance α) (h : BasisHandle α) : Prop where
  owner : h.owner = i.token
  numRows : h.numRows ≤ i.numRows
  numColumns : h.numColumns = i.numColumns
  engine : h.engine = s.engine.name

variable [Scalar α]

private theorem Course.records {o : SolveOptions α} {a : Attempt (Solving α) α (SolveResult α)}
    (h : s.Course i o a) : s.Records i a := by
  cases h with
  | refused f => exact Or.inl rfl
  | cold _ => exact perform_records (Engine.solves_solvePrimal i o)
  | @warm kept _ _ => exact perform_records (Engine.solves_solveDual i kept o)

end Session

namespace Instance

variable {i j : Instance α}

/-- The instance has been solved if it keeps a handle. -/
def Handled (i : Instance α) : Prop := ∀ h, i.basis = some h → i.progress ≠ .unsolved

/-- A handle that is kept is the instance's own, and nothing has been cut off since it was
issued. -/
def Fitted (i : Instance α) : Prop :=
  ∀ h, i.basis = some h →
    h.owner = i.token ∧ h.numRows ≤ i.numRows ∧ h.numColumns = i.numColumns

namespace Operation

/-- The engine of the call, if it is a solve, is a faithful one. -/
def Faithful (op : Operation α) : Prop := ∀ s ∈ op.session?, s.engine.Faithful

private theorem faithful_of_change {op : Operation α} (h : op.session? = none) : op.Faithful := by
  intro s hs
  rw [h] at hs
  cases hs

/-- Everything that a call, returned or failed, can do to the handle that is kept. -/
inductive Treats (op : Operation α) (i j : Instance α) : Prop
  | kept : j.token = i.token → j.basis = i.basis →
      (i.progress ≠ .unsolved → j.progress ≠ .unsolved) → i.numRows ≤ j.numRows →
      j.numColumns = i.numColumns → Treats op i j
  | dropped : j.basis = none → Treats op i j
  | renewed {s : Session α} {r : SolveResult α} : op.session? = some s → s.engine.Issues i r →
      j = i.recordSolve r → Treats op i j

private theorem treats_of_undisturbed {op : Operation α} (h : Undisturbed i j) : op.Treats i j :=
  .kept h.token h.basis h.progress h.numRows_le h.numColumns_eq

private theorem treats_of_records {op : Operation α} {s : Session α} (hop : op.session? = some s)
    {a : Attempt (Solving α) α (SolveResult α)} (h : s.Records i a) : op.Treats i a.state.2 := by
  rcases h with heq | ⟨r, hr, hstate⟩
  · rw [heq]
    exact treats_of_undisturbed (.refl i)
  · exact .renewed hop hr hstate

variable [Scalar α] {op : Operation α}

private theorem treats_after (hsound : i.Sound) (op : Operation α) : op.Treats i (op.after i) := by
  cases conduct i op with
  | kept h => exact treats_of_undisturbed h
  | dropped h => exact .dropped h
  | costs changes =>
      -- a failure halfway comes before the handle is dropped
      obtain ⟨columns, progress, basis, hnames, -, hbasis, hstate⟩ :=
        i.changeObjective_spec changes hsound.columns
      rw [after, hstate]
      rcases hbasis with rfl | ⟨rfl, rfl⟩
      · exact .dropped rfl
      · refine .kept rfl rfl id le_rfl ?_
        simpa [numColumns, columnNames] using congrArg List.length hnames
  | solved hsession _ hcourse hafter =>
      rw [hafter]
      exact treats_of_records hsession hcourse.records

end Operation

private theorem basis_recordSolve {r : SolveResult α} {h : BasisHandle α}
    (hbasis : (i.recordSolve r).basis = some h) :
    ∃ issued, r.basis = some issued ∧
      h = { issued with stamp := issued.stamp <|> some (i.token, i.solves) } := by
  obtain ⟨issued, hissued, rfl⟩ := Option.map_eq_some_iff.mp hbasis
  exact ⟨issued, hissued, rfl⟩

open Operation

private theorem Handled.treats {op : Operation α} (hi : i.Handled) (h : op.Treats i j) :
    j.Handled := by
  intro kept hkept
  cases h with
  | kept _ hbasis hprogress _ _ => exact hprogress (hi kept (hbasis.symm.trans hkept))
  | dropped hnone =>
      rw [hnone] at hkept
      cases hkept
  | renewed _ _ hj =>
      subst hj
      nofun

private theorem Fitted.treats {op : Operation α} (hi : i.Fitted) (hop : op.Faithful)
    (h : op.Treats i j) : j.Fitted := by
  intro kept hkept
  cases h with
  | kept htoken hbasis _ hrows hcolumns =>
      obtain ⟨howner, hnumRows, hnumColumns⟩ := hi kept (hbasis.symm.trans hkept)
      exact ⟨howner.trans htoken.symm, hnumRows.trans hrows, hnumColumns.trans hcolumns.symm⟩
  | dropped hnone =>
      rw [hnone] at hkept
      cases hkept
  | renewed hsession hr hj =>
      subst hj
      obtain ⟨issued, hissued, rfl⟩ := basis_recordSolve hkept
      have hof := hr issued hissued (hop _ hsession)
      exact ⟨hof.owner, hof.numRows.le, hof.numColumns⟩

variable {s : Session α} {h : BasisHandle α}

/-- Of the checks of a warm solve, those of the progress and of the stamp are void for the handle
that is kept. -/
theorem Handled.checkWarm_eq_ok (hi : i.Handled) (hopen : s.closed = false)
    (hbasis : i.basis = some h) {kept : BasisHandle α} :
    s.checkWarm i (none <|> i.basis) = .ok kept ↔ kept = h ∧ s.Takes i h := by
  rw [Session.checkWarm_eq_ok, hbasis]
  constructor
  · rintro ⟨-, heq, given, hgiven, howner, -, hcolumns, hrows, -, hengine⟩
    obtain rfl := Option.some.inj heq
    obtain rfl := Option.some.inj hgiven
    exact ⟨rfl, howner, hrows, hcolumns, hengine⟩
  · rintro ⟨rfl, htakes⟩
    exact ⟨hi kept hbasis, rfl, kept, rfl, htakes.owner, rfl, htakes.numColumns, htakes.numRows,
      hopen, htakes.engine⟩

variable [Scalar α]

private theorem handled_run (hsound : i.Sound) (hi : i.Handled) (ops : List (Operation α)) :
    (run i ops).Handled := by
  induction ops generalizing i with
  | nil => exact hi
  | cons op ops ih => exact ih (hsound.after op) (hi.treats (treats_after hsound op))

private theorem fitted_run (hsound : i.Sound) (hi : i.Fitted) {ops : List (Operation α)}
    (hops : ∀ op ∈ ops, op.Faithful) : (run i ops).Fitted := by
  induction ops generalizing i with
  | nil => exact hi
  | cons op ops ih =>
      obtain ⟨hop, hops⟩ := List.forall_mem_cons.mp hops
      exact ih (hsound.after op) (hi.treats hop (treats_after hsound op)) hops

variable (o : Option (SolveOptions α))

private theorem solve_eq_cold (hloaded : i.loaded = true) (hopen : s.closed = false)
    (hbasis : i.basis = none) : Session.solve o (s, i) =
      Session.perform (Engine.solvePrimal i (o.getD s.options)) (s, i) := by
  have heligible : i.warmStartEligible = false := by simp [warmStartEligible, hbasis]
  unfold Session.solve
  simp only [heligible, Bool.false_eq_true, if_false]
  exact Session.solveCold_eq_perform hloaded hopen

private theorem Handled.solve_eq_warm (hi : i.Handled) (hbasis : i.basis = some h) :
    Session.solve o (s, i) = Session.solveWarm none o (s, i) := by
  have heligible : i.warmStartEligible = true := by
    simp [warmStartEligible, hbasis, hi h hbasis]
  unfold Session.solve
  simp only [heligible, if_true]

private theorem Handled.solve_eq_dual (hi : i.Handled) (hloaded : i.loaded = true)
    (hopen : s.closed = false) (hbasis : i.basis = some h) (htakes : s.Takes i h) :
    Session.solve o (s, i) =
      Session.perform (Engine.solveDual i h (o.getD s.options)) (s, i) := by
  rw [hi.solve_eq_warm o hbasis]
  exact Session.solveWarm_eq_perform hloaded
    ((hi.checkWarm_eq_ok hopen hbasis).mpr ⟨rfl, htakes⟩)

private theorem Handled.solve_eq_refusal (hi : i.Handled) (hloaded : i.loaded = true)
    (hopen : s.closed = false) (hbasis : i.basis = some h) (htakes : ¬ s.Takes i h) :
    ∃ f, f.family = .warmStartIneligible ∧
      Session.solve o (s, i) = ⟨(s, i), [], .error f⟩ := by
  rw [hi.solve_eq_warm o hbasis]
  cases hcheck : s.checkWarm i (none <|> i.basis) with
  | ok kept => exact absurd ((hi.checkWarm_eq_ok hopen hbasis).mp hcheck).2 htakes
  | error f =>
      exact ⟨f, Session.family_of_checkWarm hopen hcheck,
        Session.solveWarm_eq_refusal hloaded hcheck⟩

/-- After every run of calls, returned or failed, in sessions on any engines: an open session solves
a loaded instance from scratch if no handle is kept, and from the handle if it fits. It refuses, as
a warm solve does, exactly if a handle is kept that does not fit; and where every engine issued
handles of what it solved, that is a handle of an engine of another name. -/
theorem solve_of_run (token : ℕ) (name : String) (ops : List (Operation α)) {s : Session α}
    (o : Option (SolveOptions α)) (hloaded : (run (declare token name) ops).loaded = true)
    (hopen : s.closed = false) :
    let i := run (declare token name) ops
    (i.basis = none → Session.solve o (s, i) =
        Session.perform (Engine.solvePrimal i (o.getD s.options)) (s, i)) ∧
      (∀ h, i.basis = some h → s.Takes i h → Session.solve o (s, i) =
        Session.perform (Engine.solveDual i h (o.getD s.options)) (s, i)) ∧
      ((∃ f, f.family = .warmStartIneligible ∧ (Session.solve o (s, i)).answer = .error f) ↔
        ∃ h, i.basis = some h ∧ ¬ s.Takes i h) ∧
      ((∀ op ∈ ops, op.Faithful) →
        ∀ h, i.basis = some h → (s.Takes i h ↔ h.engine = s.engine.name)) := by
  intro i
  have hi : i.Handled := handled_run (.declare token name) nofun ops
  refine ⟨solve_eq_cold o hloaded hopen,
    fun h hbasis => hi.solve_eq_dual o hloaded hopen hbasis, ⟨?_, ?_⟩, fun hops h hbasis => ?_⟩
  · rintro ⟨f, hfamily, hanswer⟩
    cases hbasis : i.basis with
    | none =>
        rw [solve_eq_cold o hloaded hopen hbasis] at hanswer
        exact absurd hfamily
          (Session.family_of_perform hloaded (Engine.solves_solvePrimal i _) hanswer)
    | some h =>
        refine ⟨h, rfl, fun htakes => ?_⟩
        rw [hi.solve_eq_dual o hloaded hopen hbasis htakes] at hanswer
        exact Session.family_of_perform hloaded (Engine.solves_solveDual i h _) hanswer hfamily
  · rintro ⟨h, hbasis, htakes⟩
    obtain ⟨f, hfamily, hsolve⟩ := hi.solve_eq_refusal o hloaded hopen hbasis htakes
    exact ⟨f, hfamily, congrArg Attempt.answer hsolve⟩
  · obtain ⟨howner, hrows, hcolumns⟩ := fitted_run (.declare token name) nofun hops h hbasis
    exact ⟨Session.Takes.engine, fun hengine => ⟨howner, hrows, hcolumns, hengine⟩⟩

/-- The sample problem, solved and then cut, is solved again from the handle that it keeps. -/
theorem solve_of_run_sample :
    let ops : List (Operation ℚ) :=
      [.load ⟨"sample", .ok .max, Sample.parts.rows, Sample.parts.columns,
        .held Sample.parts.matrix⟩, .solveCold Sample.session none, Sample.cutting]
    let i := run (declare 0 "sample") ops
    ∃ kept : BasisHandle ℚ, i.basis = some kept ∧
      Session.solve none (Sample.session, i) =
        Session.perform (Engine.solveDual i kept Sample.exact) (Sample.session, i) := by
  intro ops i
  have hengine : i.basis.map (·.engine) = some simplexName := by decide +kernel
  obtain ⟨kept, hkept, hsimplex⟩ := Option.map_eq_some_iff.mp hengine
  have hops : ∀ op ∈ ops, op.Faithful := by
    have hsolve : Faithful (.solveCold Sample.session none) := by
      rintro _ ⟨⟩
      trivial
    exact List.forall_mem_cons.mpr ⟨faithful_of_change rfl, List.forall_mem_cons.mpr
      ⟨hsolve, List.forall_mem_singleton.mpr (faithful_of_change rfl)⟩⟩
  obtain ⟨-, hwarm, -, hfaithful⟩ := solve_of_run 0 "sample" ops none (rfl : i.loaded = true)
    (rfl : Sample.session.closed = false)
  exact ⟨kept, hkept, hwarm kept hkept ((hfaithful hops kept hkept).mpr hsimplex)⟩

end Instance

/-- An open session on an engine of another name, which has an answer at hand. -/
def Sample.elsewhere : Session ℚ where
  options := Sample.exact
  engine := .replay
    { name := "other"
      script := [.result { status := .optimal, objective := some (29 / 2) } none .absent] }

namespace Instance

open Operation

/-- The sample problem, once solved by the simplex engine, is refused where a solve from scratch
returns. -/
theorem solve_refused_elsewhere :
    let i := run (declare 0 "sample")
      [.load ⟨"sample", .ok .max, Sample.parts.rows, Sample.parts.columns,
        .held Sample.parts.matrix⟩, .solveCold Sample.session none]
    (∃ f, f.family = .warmStartIneligible ∧
        (Session.solve none (Sample.elsewhere, i)).answer = .error f) ∧
      ∃ r, (Session.solveCold none (Sample.elsewhere, i)).answer = .ok r := by
  intro i
  have hi : i.Handled := handled_run (.declare 0 "sample") nofun _
  have hengine : i.basis.map (·.engine) = some simplexName := by decide +kernel
  obtain ⟨kept, hkept, hsimplex⟩ := Option.map_eq_some_iff.mp hengine
  have htakes : ¬ Sample.elsewhere.Takes i kept := by
    intro h
    have heq : simplexName = "other" := hsimplex.symm.trans h.engine
    exact absurd heq (by decide)
  obtain ⟨f, hfamily, hsolve⟩ := hi.solve_eq_refusal none (rfl : i.loaded = true)
    (rfl : Sample.elsewhere.closed = false) hkept htakes
  exact ⟨⟨f, hfamily, congrArg Attempt.answer hsolve⟩, _, rfl⟩

end Instance

end IncrementalLP
