import IncrementalLP.Proofs.Session.Assembly
/-!
# Tokens

An instance is told apart from others by its token, and the handle that it keeps by the token of
its owner. No call looks at a token other than to compare these two, so that instances which only
differ in their tokens answer every call alike and stay alike.
-/
namespace IncrementalLP

namespace Action

variable {σ α β γ : Type} {g : σ → σ}

/-- The operation does the same before and after a change of the state. -/
def Commutes (g : σ → σ) (x : Action σ α β) : Prop :=
  ∀ s, x (g s) = ⟨g (x s).state, (x s).journal, (x s).answer⟩

theorem commutes_pure (b : β) : Commutes g (pure b : Action σ α β) := fun _ => rfl

private theorem commutes_throw (f : Fault α) : Commutes g (throw f : Action σ α β) := fun _ => rfl

private theorem commutes_lift (r : Except (Fault α) β) :
    Commutes g (lift r : Action σ α β) := fun _ => rfl

private theorem commutes_report (e : Event α) :
    Commutes g (report e : Action σ α Unit) := fun _ => rfl

private theorem commutes_modify {h : σ → σ} (hh : ∀ s, h (g s) = g (h s)) :
    Commutes g (modify h : Action σ α PUnit) := by
  intro s
  show Attempt.mk (h (g s)) [] _ = _
  rw [hh]
  rfl

theorem Commutes.bind {x : Action σ α β} {f : β → Action σ α γ} (hx : Commutes g x)
    (hf : ∀ b, Commutes g (f b)) : Commutes g (x >>= f) := by
  intro s
  simp only [Bind.bind, hx s]
  cases (x s).answer with
  | error e => rfl
  | ok b => simp only [hf b (x s).state]

private theorem commutes_get_bind {f : σ → Action σ α β} (hg : ∀ s, f (g s) = f s)
    (hf : ∀ s, Commutes g (f s)) : Commutes g (get >>= f) := by
  intro s
  show f (g s) (g s) = _
  rw [hg, hf s s]
  rfl

private theorem Commutes.ite {p : Prop} [Decidable p] {x y : Action σ α β} (hx : Commutes g x)
    (hy : Commutes g y) : Commutes g (if p then x else y) := by
  split
  · exact hx
  · exact hy

private theorem Commutes.guard {τ : Type} {p : Prop} [Decidable p] {e : Fault α}
    {f : τ → Action σ α β} {x : Action σ α β} (hx : Commutes g x) :
    Commutes g (if p then throw e >>= f else x) := by
  split
  · exact fun s => rfl
  · exact hx

private theorem commutes_within {τ : Type} {part : σ → τ} {put : τ → σ → σ} {x : Action τ α β}
    (hpart : ∀ s, part (g s) = part s) (hput : ∀ t s, put t (g s) = g (put t s)) :
    Commutes g (within part put x) := by
  intro s
  simp only [within, hpart, hput]

end Action

namespace Instance

open IncrementalLP.Action

variable {α : Type}

/-- A handle after the token of an instance has become the least one. -/
def anonymousHandle (i : Instance α) (h : BasisHandle α) : BasisHandle α :=
  { h with
    owner := if h.owner = i.token then 0 else 1
    stamp := h.stamp.map fun s => (if s.1 = i.token then 0 else 1, s.2) }

/-- The instance with the least token, which owns its handle exactly if it did before. -/
def anonymous (i : Instance α) : Instance α :=
  { i with token := 0, basis := i.basis.map i.anonymousHandle }

@[simp] theorem anonymous_token (i : Instance α) : i.anonymous.token = 0 := rfl

@[simp] theorem anonymous_name (i : Instance α) : i.anonymous.name = i.name := rfl

@[simp] theorem anonymous_progress (i : Instance α) : i.anonymous.progress = i.progress := rfl

@[simp] theorem anonymous_numRows (i : Instance α) : i.anonymous.numRows = i.numRows := rfl

@[simp] theorem anonymous_numColumns (i : Instance α) :
    i.anonymous.numColumns = i.numColumns := rfl

theorem anonymous_basis (i : Instance α) :
    i.anonymous.basis = i.basis.map i.anonymousHandle := rfl

@[simp] theorem anonymous_declare (token : ℕ) (name : String) :
    (declare token name : Instance α).anonymous = declare 0 name := rfl

@[simp] theorem summary_anonymous (i : Instance α) : i.anonymous.summary = i.summary := by
  simp [summary, anonymous, warmStartEligible, numRows, numColumns]

theorem assignNames_commutes (kind : Except String EntityKind) (names : Offer (List Names.Given))
    (first last : ℤ) : Commutes anonymous (assignNames kind names first last :
      Action (Instance α) α Unit) := by
  have hset : ∀ f h : Instance α → Instance α, (∀ i, f i.anonymous = (f i).anonymous) →
      (∀ i, h i.anonymous = (h i).anonymous) →
        Commutes anonymous (do modify f; modify h : Action (Instance α) α Unit) :=
    fun f h hf hh => (commutes_modify hf).bind fun _ => commutes_modify hh
  apply commutes_get_bind
  · exact fun i => rfl
  intro i
  apply (commutes_lift _).bind
  intro _
  split
  · exact commutes_throw _
  · apply (commutes_lift _).bind
    intro given
    apply (commutes_lift _).bind
    exact fun _ => hset _ _ (fun _ => rfl) fun _ => rfl
  · apply (commutes_lift _).bind
    intro given
    apply (commutes_lift _).bind
    exact fun _ => hset _ _ (fun _ => rfl) fun _ => rfl

private theorem onMatrix_commutes {β : Type} (task : Action (SparseMatrix α) α β) :
    Commutes anonymous (onMatrix task) := commutes_within (fun _ => rfl) fun _ _ => rfl

theorem addRows_commutes (rows : List (Row α)) (entries : Offer (List (Offer (RowEntries α)))) :
    Commutes anonymous (addRows rows entries) := by
  apply commutes_get_bind
  · exact fun i => rfl
  intro i
  apply (commutes_lift _).bind
  intro _
  apply (commutes_lift _).bind
  intro lists
  apply Commutes.guard
  apply (commutes_lift _).bind
  intro _
  apply (commutes_lift _).bind
  intro table
  apply Commutes.guard
  apply (onMatrix_commutes _).bind
  intro _
  apply Commutes.bind
  · exact commutes_modify fun _ => rfl
  intro _
  apply Commutes.bind
  · exact commutes_modify fun _ => rfl
  intro _
  apply Commutes.ite
  · apply Commutes.bind
    · exact commutes_modify fun _ => rfl
    intro _
    apply (commutes_report _).bind
    exact fun _ => commutes_pure _
  · exact commutes_pure _

theorem load_commutes [Scalar α] (d : Description α) : Commutes anonymous (load d) := by
  apply (commutes_lift _).bind
  intro sense
  apply (commutes_lift _).bind
  intro matrix
  apply Commutes.guard
  apply Commutes.guard
  apply (commutes_lift _).bind
  intro _
  apply (commutes_lift _).bind
  intro _
  apply (commutes_lift _).bind
  intro rowTable
  apply (commutes_lift _).bind
  intro columnTable
  apply Commutes.bind
  · exact commutes_modify fun _ => rfl
  exact fun _ => commutes_report _

variable [Scalar α] {i : Instance α}

/-- The result of a solve, with a basis of the instance of the least token. -/
def anonymously (r : SolveResult α) : SolveResult α :=
  { r with basis := r.basis.map fun h => { h with owner := 0 } }

private theorem answer_anonymous (i : Instance α) (f : StandardForm α) (method : SolveMethod)
    (o : SolveOptions α) (outcome : Outcome α f.rows.length f.columns.length) :
    (i.anonymous.answer f method o outcome).result =
      anonymously (i.answer f method o outcome).result := by
  unfold answer
  split <;> rfl

private theorem solvePrimal_anonymous (i : Instance α) (o : SolveOptions α) :
    (i.anonymous.solvePrimal o).result = anonymously (i.solvePrimal o).result :=
  answer_anonymous i (i.standardForm none) _ _ _

private theorem solveDual_anonymous (i : Instance α) (o : SolveOptions α)
    (stored : Option (BasisPayload α)) :
    (i.anonymous.solveDual o stored).result = anonymously (i.solveDual o stored).result := by
  have hrefused : ∀ refusal, (i.anonymous.refused o refusal).result =
      anonymously (i.refused o refusal).result := by
    intro refusal
    unfold refused
    simp only [solvePrimal_anonymous]
    rfl
  have hform : i.anonymous.standardForm = i.standardForm := rfl
  unfold solveDual
  simp only
  rw [hform]
  cases (i.standardForm _).warmStart? _ with
  | none => exact hrefused _
  | some basis =>
      simp only
      cases (i.standardForm _).program.repair? o basis with
      | none => exact hrefused _
      | some outcome => exact answer_anonymous i _ _ _ _

/-- A basis that comes with the result is a new one of the instance. -/
def Owns (i : Instance α) (r : SolveResult α) : Prop :=
  ∀ h, r.basis = some h → h.owner = i.token ∧ h.stamp = none

omit [Scalar α] in
private theorem Bases.owns {r : SolveResult α} (h : i.Bases r) : i.Owns r := by
  intro kept hkept
  rcases h with ⟨-, payload, hsome⟩ | ⟨-, hnone⟩
  · rw [hsome] at hkept
    obtain rfl := Option.some.inj hkept
    exact ⟨rfl, rfl⟩
  · rw [hnone] at hkept
    cases hkept

omit [Scalar α] in
private theorem Owns.anonymous_recordSolve {r : SolveResult α} (hr : i.Owns r) :
    (i.recordSolve r).anonymous = i.anonymous.recordSolve (anonymously r) := by
  unfold recordSolve anonymous anonymously anonymousHandle
  cases hbasis : r.basis with
  | none => rfl
  | some h =>
      obtain ⟨howner, hstamp⟩ := hr h hbasis
      simp [howner, hstamp]

end Instance

namespace Engine

open Instance

variable {α : Type} {e : Engine α} {i : Instance α}
  {solve solve' : Action (Engine α) α (SolveResult α)}

/-- An engine that has no basis of an earlier solve to itself. -/
inductive Fresh : Engine α → Prop
  | simplex (e : SimplexEngine α) : Fresh (.simplex e)
  | highs {e : HighsEngine α} : e.owner = none → Fresh (.highs e)

theorem fresh_of_ofName {name : String} {highspy : Option (Highspy α)}
    (h : ofName name highspy = .ok e) : e.Fresh := by
  unfold ofName at h
  split at h
  · cases h
    exact .simplex _
  · split at h
    · cases h
      exact .highs rfl
    · cases h
  · cases h

/-- What an engine finds for an instance, and for the same one with the least token, differs in the
owner of the basis at most. -/
structure Blind (e : Engine α) (i : Instance α)
    (solve solve' : Action (Engine α) α (SolveResult α)) : Prop where
  answer : ((do register i.anonymous; solve' : Action (Engine α) α (SolveResult α)) e).answer =
    ((do register i; solve : Action (Engine α) α (SolveResult α)) e).answer.map anonymously
  owns : ∀ r, ((do register i; solve : Action (Engine α) α (SolveResult α)) e).answer = .ok r →
    i.Owns r

private theorem blind_simplex (hloaded : i.loaded = true) (e : SimplexEngine α) {a a' : Answer α}
    (hsolve : ∀ e, solve (.simplex e) = answered e a)
    (hsolve' : ∀ e, solve' (.simplex e) = answered e a') (hbases : i.Bases a.result)
    (ha' : a'.result = anonymously a.result) : Blind (.simplex e) i solve solve' := by
  have hregister := register_simplex hloaded e
  have hregister' := register_simplex (i := i.anonymous) hloaded e
  constructor
  · rw [Action.bind_of_ok hregister, Action.bind_of_ok hregister', hsolve, hsolve']
    exact congrArg Except.ok ha'
  · intro r hr
    rw [Action.bind_of_ok hregister, hsolve] at hr
    rw [← Except.ok.inj hr]
    exact hbases.owns

private theorem solved_anonymous (package : Highspy α) (method : SolveMethod) (o : SolveOptions α)
    (object : HighsObject α) : package.solved i.anonymous method o object =
      (package.solved i method o object).map anonymously := by
  have hresult : ∀ object status message,
      id (package.result i.anonymous method o object status message) =
        anonymously (package.result i method o object status message) := by
    intro object status message
    unfold Highspy.result
    split <;> rfl
  have h := Highspy.solved_congr hresult object
  rwa [Except.map_id] at h

variable [Scalar α]

private theorem blind_highs (hloaded : i.loaded = true) {e : HighsEngine α} {o : SolveOptions α}
    (hsolve : ∀ e, e.owner = none →
      (solve (.highs e)).answer = (HighsEngine.solvePrimal i o e).answer)
    (hsolve' : ∀ e, e.owner = none →
      (solve' (.highs e)).answer = (HighsEngine.solvePrimal i.anonymous o e).answer)
    (he : e.owner = none) : Blind (.highs e) i solve solve' := by
  have hregister := register_highs hloaded e
  have hregister' := register_highs (i := i.anonymous) hloaded e
  constructor
  · rw [Action.bind_of_ok hregister, Action.bind_of_ok hregister',
      hsolve { e with registered := some i.token } he,
      hsolve' { e with registered := some i.anonymous.token } he, HighsEngine.answer_solvePrimal,
      HighsEngine.answer_solvePrimal]
    have hfilled : ∀ object, e.package.filled i.anonymous object = e.package.filled i object :=
      Highspy.filled_congr rfl rfl rfl rfl
    simp only [hfilled]
    cases e.package.filled i ⟨e.made, [.silence]⟩ with
    | error f => rfl
    | ok object => exact solved_anonymous e.package .primal o object
  · intro r hr
    rw [Action.bind_of_ok hregister, hsolve { e with registered := some i.token } he] at hr
    obtain ⟨object, hsolved⟩ := HighsEngine.exists_solved_of_solvePrimal hr
    intro kept hkept
    rw [Highspy.basis_of_solved hsolved hkept]
    exact ⟨rfl, rfl⟩

private theorem answer_solveDual_highs {e : HighsEngine α} (he : e.owner = none) (i : Instance α)
    (h : BasisHandle α) (o : SolveOptions α) :
    (solveDual i h o (.highs e)).answer = (HighsEngine.solvePrimal i o e).answer := by
  have hready : e.ready? i = none := by
    unfold HighsEngine.ready?
    rw [he, if_neg]
    rintro ⟨h, -⟩
    cases h
  show (HighsEngine.solveDual i o e).answer = _
  unfold HighsEngine.solveDual
  rw [Action.bind_of_ok (t := e) (b := e) rfl, hready]
  rfl

private theorem Fresh.blind_solvePrimal (he : e.Fresh) (hloaded : i.loaded = true)
    (o : SolveOptions α) :
    e.Blind i (solvePrimal i o) (solvePrimal i.anonymous o) := by
  cases he with
  | simplex e =>
      exact blind_simplex hloaded e (fun _ => rfl) (fun _ => rfl) (i.solvePrimal_bases o)
        (i.solvePrimal_anonymous o)
  | highs he => exact blind_highs hloaded (fun _ _ => rfl) (fun _ _ => rfl) he

private theorem Fresh.blind_solveDual (he : e.Fresh) (hloaded : i.loaded = true)
    (o : SolveOptions α) {h h' : BasisHandle α} (hpayload : h'.payload = h.payload) :
    e.Blind i (solveDual i h o) (solveDual i.anonymous h' o) := by
  cases he with
  | simplex e =>
      refine blind_simplex hloaded e (fun _ => rfl) (fun _ => rfl)
        (i.solveDual_bases o h.payload) ?_
      rw [hpayload]
      exact i.solveDual_anonymous o h.payload
  | highs he =>
      exact blind_highs hloaded (fun _ he => answer_solveDual_highs he i h o)
        (fun _ he => answer_solveDual_highs he i.anonymous h' o) he

end Engine

namespace Session

open Instance

variable {α : Type} [Scalar α] {s : Session α} {i : Instance α}

/-- A solve of the instance finds the same, and leaves the same behind, whatever the tokens. -/
def Blind (s : Session α) (i : Instance α) (x : Action (Solving α) α (SolveResult α)) : Prop :=
  (x (s, i.anonymous)).answer.map SolveResult.bare = (x (s, i)).answer.map SolveResult.bare ∧
    (x (s, i.anonymous)).state.2 = (x (s, i)).state.2.anonymous

omit [Scalar α] in
private theorem perform_blind {solve solve' : Action (Engine α) α (SolveResult α)}
    (h : s.engine.Blind i solve solve') :
    (perform solve' (s, i.anonymous)).answer.map SolveResult.bare =
        (perform solve (s, i)).answer.map SolveResult.bare ∧
      (perform solve' (s, i.anonymous)).state.2 = (perform solve (s, i)).state.2.anonymous := by
  have howns := h.owns
  unfold perform
  simp only [h.answer]
  cases hanswer : ((do Engine.register i; solve : Action (Engine α) α (SolveResult α))
      s.engine).answer with
  | error f => exact ⟨rfl, rfl⟩
  | ok r => exact ⟨rfl, (howns r hanswer).anonymous_recordSolve.symm⟩

theorem solveCold_blind (hs : s.engine.Fresh) (o : Option (SolveOptions α)) :
    s.Blind i (solveCold o) := by
  unfold Blind solveCold
  simp only
  have hchecked : (do
      i.anonymous.requireLoaded "solve"
      s.requireOpen : Except (Fault α) Unit) = (do
      i.requireLoaded "solve"
      s.requireOpen) := rfl
  rw [hchecked]
  split
  · exact ⟨rfl, rfl⟩
  · next hok =>
    obtain ⟨_, hloaded, -⟩ := bind_eq_ok.mp hok
    exact perform_blind (hs.blind_solvePrimal (requireLoaded_eq_ok.mp hloaded) _)

omit [Scalar α] in
/-- The handle that is kept is the instance's own, or it is not, whatever the tokens. -/
theorem checkWarm_anonymous (s : Session α) (i : Instance α) :
    s.checkWarm i.anonymous i.anonymous.basis =
      (s.checkWarm i i.basis).map i.anonymousHandle := by
  unfold checkWarm
  by_cases hprogress : i.progress = .unsolved
  · simp only [anonymous_progress, hprogress, if_true]
    rfl
  · simp only [anonymous_progress, hprogress, if_false, anonymous_basis]
    cases i.basis with
    | none => rfl
    | some h =>
        by_cases howner : h.owner = i.token
        · by_cases hshape : h.numColumns ≠ i.numColumns ∨ i.numRows < h.numRows
          · simp [anonymousHandle, howner, hshape]
            rfl
          · by_cases hclosed : s.closed = true
            · simp [anonymousHandle, howner, hshape, requireOpen, hclosed]
              rfl
            · by_cases hengine : h.engine = s.engine.name
              · simp [anonymousHandle, howner, hshape, requireOpen, hclosed, ← hengine, Except.map]
              · simp [anonymousHandle, howner, hshape, requireOpen, hclosed, hengine]
                rfl
        · simp [anonymousHandle, howner]
          rfl

theorem solveWarm_blind (hs : s.engine.Fresh) (o : Option (SolveOptions α)) :
    s.Blind i (solveWarm none o) := by
  by_cases hloaded : i.loaded = true
  · cases hcheck : s.checkWarm i i.basis with
    | error f =>
        have hcheck' : s.checkWarm i.anonymous (none <|> i.anonymous.basis) = .error f := by
          show s.checkWarm i.anonymous i.anonymous.basis = _
          rw [checkWarm_anonymous, hcheck]
          rfl
        unfold Blind
        rw [solveWarm_eq_refusal hloaded hcheck,
          solveWarm_eq_refusal (i := i.anonymous) hloaded hcheck']
        exact ⟨rfl, rfl⟩
    | ok h =>
        have hcheck' : s.checkWarm i.anonymous (none <|> i.anonymous.basis) =
            .ok (i.anonymousHandle h) := by
          show s.checkWarm i.anonymous i.anonymous.basis = _
          rw [checkWarm_anonymous, hcheck]
          rfl
        unfold Blind
        rw [solveWarm_eq_perform hloaded hcheck,
          solveWarm_eq_perform (i := i.anonymous) hloaded hcheck']
        exact perform_blind (hs.blind_solveDual hloaded _ rfl)
  · have hrefused : ∀ j : Instance α, j.loaded = i.loaded →
        solveWarm none o (s, j) = ⟨(s, j), [], .error (.notLoaded "solve" j.name)⟩ := by
      intro j hj
      unfold solveWarm
      simp only [requireLoaded, hj, hloaded, Bool.false_eq_true, if_false]
      rfl
    unfold Blind
    rw [hrefused i rfl, hrefused i.anonymous rfl]
    exact ⟨rfl, rfl⟩

theorem solve_blind (hs : s.engine.Fresh) (o : Option (SolveOptions α)) :
    s.Blind i (solve o) := by
  have heligible : i.anonymous.warmStartEligible = i.warmStartEligible := by
    simp [warmStartEligible, anonymous]
  unfold Blind solve
  simp only [heligible]
  split
  · exact solveWarm_blind hs o
  · exact solveCold_blind hs o

end Session

end IncrementalLP
