import IncrementalLP.Proofs.Instance.Calls
import IncrementalLP.Session.Basic
/-!
# Solves by a session

What can come of a solve by a session, what a solve on the simplex engine does with the instance,
and from which basis a warm solve starts. The results of the simplex engine bring a basis exactly if
they are optimal.
-/
namespace IncrementalLP

variable {α : Type}

namespace Instance

variable {i : Instance α}

/-- The result brings a basis of the instance, as it is now, exactly if it is optimal. -/
def Bases (i : Instance α) (r : SolveResult α) : Prop :=
  r.status = .optimal ∧ (∃ payload, r.basis = some
      { owner := i.token
        numRows := i.numRows
        numColumns := i.numColumns
        engine := simplexName
        payload := payload }) ∨
    r.status ≠ .optimal ∧ r.basis = none

/-- What is left with an instance of a result. -/
def recorded (i : Instance α) (r : SolveResult α) : SolveResult α :=
  { r with basis := (i.recordSolve r).basis }

variable [Scalar α]

private theorem answer_bases (f : StandardForm α) (method : SolveMethod) (o : SolveOptions α)
    (outcome : Outcome α f.rows.length f.columns.length) :
    i.Bases (i.answer f method o outcome).result := by
  unfold answer
  split
  · exact Or.inl ⟨rfl, _, rfl⟩
  · next hverdict =>
    refine Or.inr ⟨?_, rfl⟩
    cases hending : outcome.ending with
    | optimal point => exact absurd hending (hverdict point)
    | _ => nofun

theorem solvePrimal_bases (i : Instance α) (o : SolveOptions α) :
    i.Bases (i.solvePrimal o).result := answer_bases _ _ _ _

theorem solveDual_bases (i : Instance α) (o : SolveOptions α) (stored : Option (BasisPayload α)) :
    i.Bases (i.solveDual o stored).result := by
  unfold solveDual
  simp only
  split
  · exact solvePrimal_bases i o
  · split
    · exact solvePrimal_bases i o
    · exact answer_bases _ _ _ _

/-- The results of the simplex engine: from scratch, and from the basis that the instance keeps. -/
inductive Results (i : Instance α) (o : SolveOptions α) : SolveResult α → Prop
  | cold : Results i o (i.solvePrimal o).result
  | warm {h : BasisHandle α} : i.basis = some h → Results i o (i.solveDual o h.payload).result

theorem Results.bases {o : SolveOptions α} {r : SolveResult α} (h : i.Results o r) : i.Bases r := by
  cases h with
  | cold => exact i.solvePrimal_bases o
  | warm _ => exact i.solveDual_bases o _

end Instance

namespace Engine

variable {i : Instance α}

theorem register_simplex (hi : i.loaded = true) (e : SimplexEngine α) :
    register i (.simplex e) = ⟨.simplex { registered := some i.token }, [], .ok ()⟩ := by
  simp only [register, Instance.requireLoaded, hi, if_true]

theorem register_highs (hi : i.loaded = true) (e : HighsEngine α) :
    register i (.highs e) = ⟨.highs { e with registered := some i.token }, [], .ok ()⟩ := by
  simp only [register, Instance.requireLoaded, hi, if_true]

end Engine

namespace Session

variable {s : Session α} {i : Instance α} {handle : Option (BasisHandle α)}
  {o : Option (SolveOptions α)}

/-- A session that is open, on the simplex engine. -/
structure OnSimplex (s : Session α) : Prop where
  notClosed : s.closed = false
  engine : ∃ e, s.engine = .simplex e

private theorem requireOpen_eq_ok {u : Unit} :
    (s.requireOpen : Except (Fault α) Unit) = .ok u ↔ s.closed = false := by
  unfold requireOpen
  cases s.closed <;> simp

/-- A basis that the instance keeps, that was asked for, and that fits the session. -/
theorem checkWarm_eq_ok {h : BasisHandle α} :
    s.checkWarm i handle = .ok h ↔
      i.progress ≠ .unsolved ∧ i.basis = some h ∧
        ∃ given, handle = some given ∧ given.owner = i.token ∧ given.stamp = h.stamp ∧
          h.numColumns = i.numColumns ∧ h.numRows ≤ i.numRows ∧ s.closed = false ∧
          h.engine = s.engine.name := by
  unfold checkWarm
  rw [guard_eq_ok]
  refine and_congr_right fun _ => ?_
  split
  · next given kept hkept =>
    simp only [guard_eq_ok, bind_eq_ok, pure_eq_ok, requireOpen_eq_ok, ne_eq, not_not, not_or,
      not_lt, hkept, Option.some.injEq]
    constructor
    · rintro ⟨howner, hstamp, ⟨hcolumns, hrows⟩, _, hclosed, hengine, rfl⟩
      exact ⟨rfl, given, rfl, howner, hstamp, hcolumns, hrows, hclosed, hengine⟩
    · rintro ⟨rfl, _, rfl, howner, hstamp, hcolumns, hrows, hclosed, hengine⟩
      exact ⟨howner, hstamp, ⟨hcolumns, hrows⟩, (), hclosed, hengine, rfl⟩
  · next hnot =>
    refine iff_of_false throw_ne_ok ?_
    rintro ⟨hbasis, given, hgiven, -⟩
    exact hnot given h hgiven hbasis

theorem family_of_checkWarm {f : Fault α} (hopen : s.closed = false)
    (h : s.checkWarm i handle = .error f) : f.family = .warmStartIneligible := by
  have hopened : s.requireOpen = (.ok () : Except (Fault α) Unit) := requireOpen_eq_ok.mpr hopen
  unfold checkWarm at h
  rcases guard_eq_error.mp h with ⟨-, rfl⟩ | ⟨-, h⟩
  · rfl
  · split at h
    · rcases guard_eq_error.mp h with ⟨-, rfl⟩ | ⟨-, h⟩
      · rfl
      rcases guard_eq_error.mp h with ⟨-, rfl⟩ | ⟨-, h⟩
      · rfl
      rcases guard_eq_error.mp h with ⟨-, rfl⟩ | ⟨-, h⟩
      · rfl
      rw [hopened] at h
      rcases guard_eq_error.mp h with ⟨-, rfl⟩ | ⟨-, h⟩
      · rfl
      · cases h
    · cases h
      rfl

theorem perform_simplex (hs : ∃ e, s.engine = .simplex e) (hloaded : i.loaded = true)
    {solve : Action (Engine α) α (SolveResult α)} {a : Answer α}
    (hsolve : ∀ e, solve (.simplex e) = Engine.answered e a) :
    (perform solve (s, i)).state.2 = i.recordSolve a.result ∧
      (perform solve (s, i)).answer = .ok (i.recorded a.result) := by
  obtain ⟨e, he⟩ := hs
  have hrun : (do Engine.register i; solve : Action (Engine α) α (SolveResult α)) s.engine =
      Engine.answered { registered := some i.token } a := by
    rw [he, Action.bind_of_ok (Engine.register_simplex hloaded e), hsolve]
  unfold perform
  simp only [hrun]
  exact ⟨rfl, rfl⟩

variable [Scalar α]

theorem solveCold_eq_perform (hloaded : i.loaded = true) (hopen : s.closed = false) :
    solveCold o (s, i) = perform (Engine.solvePrimal i (o.getD s.options)) (s, i) := by
  have hchecked : (do
      i.requireLoaded "solve"
      s.requireOpen : Except (Fault α) Unit) = .ok () :=
    bind_eq_ok.mpr ⟨(), Instance.requireLoaded_eq_ok.mpr hloaded, requireOpen_eq_ok.mpr hopen⟩
  unfold solveCold
  simp only [hchecked]

theorem OnSimplex.solveCold_eq (hs : s.OnSimplex) (hloaded : i.loaded = true) :
    (solveCold o (s, i)).state.2 = i.recordSolve (i.solvePrimal (o.getD s.options)).result ∧
      (solveCold o (s, i)).answer =
        .ok (i.recorded (i.solvePrimal (o.getD s.options)).result) := by
  rw [solveCold_eq_perform hloaded hs.notClosed]
  exact perform_simplex hs.engine hloaded fun _ => rfl

theorem solveWarm_eq_perform (hloaded : i.loaded = true) {h : BasisHandle α}
    (hcheck : s.checkWarm i (handle <|> i.basis) = .ok h) :
    solveWarm handle o (s, i) = perform (Engine.solveDual i h (o.getD s.options)) (s, i) := by
  have hchecked : (do
      i.requireLoaded "solve"
      s.checkWarm i (handle <|> i.basis) : Except (Fault α) (BasisHandle α)) = .ok h :=
    bind_eq_ok.mpr ⟨(), Instance.requireLoaded_eq_ok.mpr hloaded, hcheck⟩
  unfold solveWarm
  simp only [hchecked]

theorem solveWarm_eq_refusal (hloaded : i.loaded = true) {f : Fault α}
    (hcheck : s.checkWarm i (handle <|> i.basis) = .error f) :
    solveWarm handle o (s, i) = ⟨(s, i), [], .error f⟩ := by
  have hchecked : (do
      i.requireLoaded "solve"
      s.checkWarm i (handle <|> i.basis) : Except (Fault α) (BasisHandle α)) = .error f := by
    simp only [Instance.requireLoaded, hloaded, if_true]
    exact hcheck
  unfold solveWarm
  simp only [hchecked]

/-- What can come of a solve: it is refused before the engine is asked, or the engine solves the
instance, from scratch or from the basis that the instance keeps. -/
inductive Course (s : Session α) (i : Instance α) (o : SolveOptions α) :
    Attempt (Solving α) α (SolveResult α) → Prop
  | refused (f : Fault α) : Course s i o ⟨(s, i), [], .error f⟩
  | cold : i.loaded = true → Course s i o (perform (Engine.solvePrimal i o) (s, i))
  | warm {h : BasisHandle α} : i.loaded = true → i.basis = some h →
      Course s i o (perform (Engine.solveDual i h o) (s, i))

section

variable (s i o)

theorem solveCold_course : s.Course i (o.getD s.options) (solveCold o (s, i)) := by
  unfold solveCold
  simp only
  split
  · exact .refused _
  · next hchecked =>
    obtain ⟨_, hloaded, -⟩ := bind_eq_ok.mp hchecked
    exact .cold (Instance.requireLoaded_eq_ok.mp hloaded)

theorem solveWarm_course (handle : Option (BasisHandle α)) :
    s.Course i (o.getD s.options) (solveWarm handle o (s, i)) := by
  unfold solveWarm
  simp only
  split
  · exact .refused _
  · next hchecked =>
    obtain ⟨_, hloaded, hcheck⟩ := bind_eq_ok.mp hchecked
    exact .warm (Instance.requireLoaded_eq_ok.mp hloaded) (checkWarm_eq_ok.mp hcheck).2.1

theorem solve_course : s.Course i (o.getD s.options) (solve o (s, i)) := by
  unfold solve
  simp only
  split
  · exact solveWarm_course s i o none
  · exact solveCold_course s i o

end

variable {options : SolveOptions α} {a : Attempt (Solving α) α (SolveResult α)}

/-- A solve leaves an instance alone or records a result with it. -/
theorem Course.state (h : s.Course i options a) :
    a.state.2 = i ∨ ∃ r, a.state.2 = i.recordSolve r := by
  have hperform : ∀ solve, (perform solve (s, i)).state.2 = i ∨
      ∃ r, (perform solve (s, i)).state.2 = i.recordSolve r := by
    intro solve
    unfold perform
    simp only
    split
    · exact Or.inl rfl
    · next r _ => exact Or.inr ⟨r, rfl⟩
  cases h with
  | refused f => exact Or.inl rfl
  | cold _ => exact hperform _
  | warm _ _ => exact hperform _

theorem Course.state_of_error (h : s.Course i options a) {f : Fault α} (hf : a.answer = .error f) :
    a.state.2 = i := by
  have hperform : ∀ solve, (perform solve (s, i)).answer = .error f →
      (perform solve (s, i)).state.2 = i := by
    intro solve
    unfold perform
    simp only
    split
    · exact fun _ => rfl
    · nofun
  cases h with
  | refused e => rfl
  | cold _ => exact hperform _ hf
  | warm _ _ => exact hperform _ hf

theorem Course.results (h : s.Course i options a) (hs : ∃ e, s.engine = .simplex e) :
    (∃ f, a.answer = .error f) ∧ a.state.2 = i ∨
      i.loaded = true ∧ ∃ r, i.Results options r ∧ a.answer = .ok (i.recorded r) ∧
        a.state.2 = i.recordSolve r := by
  cases h with
  | refused f => exact Or.inl ⟨⟨f, rfl⟩, rfl⟩
  | cold hloaded =>
      obtain ⟨hstate, hanswer⟩ := perform_simplex hs hloaded
        fun _ => (rfl : Engine.solvePrimal i options _ = _)
      exact Or.inr ⟨hloaded, _, .cold, hanswer, hstate⟩
  | @warm kept hloaded hbasis =>
      obtain ⟨hstate, hanswer⟩ := perform_simplex hs hloaded
        fun _ => (rfl : Engine.solveDual i kept options _ = _)
      exact Or.inr ⟨hloaded, _, .warm hbasis, hanswer, hstate⟩

/-- A solve failed and left the instance alone, or its result was recorded with the instance. -/
def Settled (i : Instance α) (a : Attempt (Solving α) α (SolveResult α)) : Prop :=
  (∃ f, a.answer = .error f) ∧ a.state.2 = i ∨
    ∃ r, i.Bases r ∧ a.answer = .ok (i.recorded r) ∧ a.state.2 = i.recordSolve r

theorem Course.settled (h : s.Course i options a) (hs : ∃ e, s.engine = .simplex e) :
    Settled i a := by
  obtain hfailed | ⟨-, r, hr, hanswer, hstate⟩ := h.results hs
  · exact Or.inl hfailed
  · exact Or.inr ⟨r, hr.bases, hanswer, hstate⟩

end Session

end IncrementalLP
