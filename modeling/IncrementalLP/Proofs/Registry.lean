import IncrementalLP.Registry
import IncrementalLP.Problem.Sample
import IncrementalLP.Proofs.Instance.Tokens
import IncrementalLP.Proofs.Keyed
import IncrementalLP.Proofs.Session.Clocks
/-!
# Calls of a registry

What a call for a model tells depends on the calls that named the model before, and on no others. A
call that fails keeps all models, and the list of their names goes by the calls that load and drop.

Two things come from outside: a solve reads the clock if it has a time limit, and it may be left to
the package `highspy`. Both belong to the call that asks for the solve.
-/
namespace IncrementalLP

open IncrementalLP.Action

namespace Registry

/-- A call of a registry. One whose arguments cannot be read is refused before anything is done. -/
inductive Call (α : Type) where
  | load (d : Description α)
  | assignNames (name : String) (kind : Except String EntityKind)
      (names : Offer (List Names.Given)) (first last : ℤ)
  | addRows (name : String) (rows : List (Row α)) (entries : Offer (List (Offer (RowEntries α))))
  | solve (name : String) (way : SolveWay) (o : SolveOptions α) (highspy : Option (Highspy α))
  | describe (name : String)
  | drop (name : String)
  | unread (name : String) (f : Fault α)

/-- What a call tells. The basis of a solve stays with the model. -/
inductive Told (α : Type) where
  | figures (s : Summary)
  | extended (ordinals : List ℕ) (s : Summary)
  | solved (r : SolveResult α)
  | dropped (found : Bool) (models : List String)

variable {α : Type}

def Call.name : Call α → String
  | load d => d.name
  | assignNames name .. => name
  | addRows name .. => name
  | solve name .. => name
  | describe name => name
  | drop name => name
  | unread name _ => name

/-- What is told, without the names of the models that are left. -/
def Told.unlisted : Told α → Told α
  | dropped found _ => .dropped found []
  | t => t

/-- A call and what it told. -/
abbrev Exchange (α : Type) := Call α × Except (Fault α) (Told α)

/-- The answer of an exchange, without the names of the models that are left. -/
def Exchange.answer (e : Exchange α) : Except (Fault α) (Told α) := e.2.map Told.unlisted

/-- The names of the models that were loaded and not dropped since, one exchange later. -/
def Exchange.settle (held : Finset String) : Exchange α → Finset String
  | (.load d, .ok _) => insert d.name held
  | (.drop name, _) => held.erase name
  | _ => held

/-- The names of the models that were loaded successfully and not dropped since. -/
def standing (exchanges : List (Exchange α)) : Finset String := exchanges.foldl Exchange.settle ∅

section

variable {β γ : Type} {name : String}

/-- An operation does one thing with the model of a name, and nothing else. -/
structure Concerns (x : Action (Registry α) α β) (name : String) (task : Action (Instance α) α β) :
    Prop where
  unknown : ∀ r, r.models.get? name = none →
    (x r).state = r ∧ (x r).answer = .error (.unknownModel name)
  known : ∀ r i, r.models.get? name = some i →
    (x r).state = { r with models := r.models.put name (task i).state } ∧
      (x r).answer = (task i).answer

private theorem model_eq {r : Registry α} {i : Instance α} (h : r.models.get? name = some i) :
    (r.model name : Except (Fault α) (Instance α)) = .ok i := by
  rw [model, h]

private theorem model_eq_error {r : Registry α} (h : r.models.get? name = none) :
    (r.model name : Except (Fault α) (Instance α)) = .error (.unknownModel name) := by
  rw [model, h]

private theorem concerns_onModel (name : String) (task : Action (Instance α) α β) :
    Concerns (onModel name task) name task where
  unknown r h := by
    simp only [onModel, bind, get, getThe, MonadStateOf.get, Action.lift, model_eq_error h]
    exact ⟨trivial, trivial⟩
  known r i h := by
    simp only [onModel, bind, get, getThe, MonadStateOf.get, Action.lift, model_eq h]
    exact ⟨rfl, rfl⟩

def figures : Action (Instance α) α Summary := do return (← get).summary

private theorem concerns_describe (name : String) :
    Concerns (describe name : Action (Registry α) α Summary) name figures where
  unknown r h := by
    simp only [describe, bind, get, getThe, MonadStateOf.get, Action.lift, model_eq_error h]
    exact ⟨trivial, trivial⟩
  known r i h := by
    simp only [describe, bind, get, getThe, MonadStateOf.get, Action.lift, model_eq h]
    refine ⟨?_, rfl⟩
    show r = { r with models := r.models.put name i }
    rw [Keyed.put_of_get? h]

private theorem Concerns.bind {x : Action (Registry α) α β} {f : β → Action (Registry α) α γ}
    {task : Action (Instance α) α β} {g : β → Action (Instance α) α γ} (hx : Concerns x name task)
    (hf : ∀ b, Concerns (f b) name (g b)) : Concerns (x >>= f) name (task >>= g) where
  unknown r h := by
    obtain ⟨hstate, hanswer⟩ := hx.unknown r h
    simp only [Bind.bind, hanswer]
    exact ⟨hstate, trivial⟩
  known r i h := by
    obtain ⟨hstate, hanswer⟩ := hx.known r i h
    simp only [Bind.bind, hanswer]
    cases (task i).answer with
    | error e => exact ⟨hstate, rfl⟩
    | ok b =>
        obtain ⟨hnext, htold⟩ := (hf b).known (x r).state (task i).state
          (by rw [hstate, Keyed.get?_put_self])
        refine ⟨hnext.trans ?_, htold⟩
        rw [hstate, Keyed.put_put]

private theorem Concerns.map {x : Action (Registry α) α β} {task : Action (Instance α) α β}
    (hx : Concerns x name task) (f : β → γ) :
    Concerns (x >>= fun b => pure (f b)) name (task >>= fun b => pure (f b)) where
  unknown r h := by
    obtain ⟨hstate, hanswer⟩ := hx.unknown r h
    simp only [Bind.bind, hanswer]
    exact ⟨hstate, trivial⟩
  known r i h := by
    obtain ⟨hstate, hanswer⟩ := hx.known r i h
    simp only [Bind.bind, hanswer]
    cases (task i).answer with
    | error e => exact ⟨hstate, rfl⟩
    | ok b => exact ⟨hstate, rfl⟩

private theorem figures_commutes :
    Action.Commutes Instance.anonymous (figures : Action _ α Summary) := by
  intro i
  show Attempt.mk i.anonymous [] (Except.ok i.anonymous.summary) = _
  rw [Instance.summary_anonymous]
  rfl

private theorem figures_sure :
    Action.Sure (figures : Action _ α Summary) := fun i => ⟨i.summary, rfl⟩

/-- What is done with a model does not depend on its token, and nothing is left half done. -/
structure Fair (task : Action (Instance α) α β) : Prop where
  answer : ∀ i, (task i.anonymous).answer = (task i).answer
  state : ∀ i, (task i.anonymous).state = (task i).state.anonymous
  atomic : task.Atomic

private theorem Fair.of_commutes {task : Action (Instance α) α β}
    (h : task.Commutes Instance.anonymous) (hatomic : task.Atomic) : Fair task where
  answer i := by rw [h i]
  state i := by rw [h i]
  atomic := hatomic

end

/-- The registry holds models under the given names, one for each. -/
structure Holds (r : Registry α) (held : Finset String) : Prop where
  nodup : r.models.names.Nodup
  mem_iff : ∀ name, name ∈ r.models.names ↔ name ∈ held

namespace Holds

variable {r : Registry α} {held : Finset String}

private theorem names_eq (h : r.Holds held) : r.names = held.sort (· ≤ ·) := by
  have hperm : r.names.Perm r.models.names := List.mergeSort_perm _ _
  have htrans : ∀ a b c : String, decide (a ≤ b) → decide (b ≤ c) → decide (a ≤ c) := by
    simp only [decide_eq_true_eq]
    exact fun _ _ _ => le_trans
  have htotal : ∀ a b : String, decide (a ≤ b) || decide (b ≤ a) := by
    simp only [Bool.or_eq_true, decide_eq_true_eq]
    exact le_total
  have hsorted : r.names.Pairwise (· ≤ ·) :=
    (List.pairwise_mergeSort htrans htotal r.models.names).imp of_decide_eq_true
  have hheld : r.names.toFinset = held := by
    ext name
    rw [List.mem_toFinset, hperm.mem_iff, h.mem_iff]
  rw [← hheld, (List.toFinset_sort _ (hperm.nodup_iff.mpr h.nodup)).mpr hsorted]

private theorem put (h : r.Holds held) (name : String) (i : Instance α) (next : ℕ) :
    Holds ⟨r.models.put name i, next⟩ (insert name held) where
  nodup := Keyed.nodup_names_put h.nodup name i
  mem_iff other := by
    rw [Keyed.mem_names_put, h.mem_iff, Finset.mem_insert]

private theorem drop (h : r.Holds held) (name : String) (next : ℕ) :
    Holds ⟨r.models.drop name, next⟩ (held.erase name) where
  nodup := Keyed.nodup_names_drop h.nodup name
  mem_iff other := by
    rw [Keyed.mem_names_drop, h.mem_iff, Finset.mem_erase]

end Holds

private theorem create_eq_ok {o : SolveOptions α} {highspy : Option (Highspy α)} {s : Session α} :
    Session.create o none highspy = .ok s ↔
      ∃ e, Engine.ofName o.engine.name highspy = .ok e ∧ s = ⟨o, e, false⟩ := by
  unfold Session.create
  cases Engine.ofName o.engine.name highspy with
  | error f => exact iff_of_false nofun fun ⟨_, h, _⟩ => nomatch h
  | ok e =>
      constructor
      · intro h
        exact ⟨e, rfl, (Except.ok.inj h).symm⟩
      · rintro ⟨_, ⟨⟩, rfl⟩
        rfl

variable [Scalar α]

def Call.run : Call α → Action (Registry α) α (Told α)
  | load d => do return .figures (← Registry.load d)
  | assignNames name kind names first last => do
    return .figures (← Registry.assignNames name kind names first last)
  | addRows name rows entries => do
    let (ordinals, s) ← Registry.addRows name rows entries
    return .extended ordinals s
  | solve name way o highspy => do return .solved (← Registry.solve name way o highspy).bare
  | describe name => do return .figures (← Registry.describe name)
  | drop name => do
    let found ← Registry.drop name
    return .dropped found (← get).names
  | unread _ f => throw f

/-- The registry after calls, whether they succeed or fail. -/
def after (r : Registry α) (calls : List (Call α)) : Registry α :=
  calls.foldl (fun r c => (c.run r).state) r

/-- What calls are told one after the other. -/
def transcript (r : Registry α) : List (Call α) → List (Exchange α)
  | [] => []
  | c :: rest => (c, (c.run r).answer) :: transcript (c.run r).state rest

def task : SolveWay → Action (Solving α) α (SolveResult α)
  | .auto => Session.solve none
  | .primal => Session.solveCold none
  | .dual => Session.solveWarm none none

private theorem task_blind {s : Session α} (hs : s.engine.Fresh) (way : SolveWay) (i : Instance α) :
    s.Blind i (task way) := by
  cases way with
  | auto => exact Session.solve_blind hs none
  | primal => exact Session.solveCold_blind hs none
  | dual => exact Session.solveWarm_blind hs none

private theorem task_course (s : Session α) (way : SolveWay) (i : Instance α) :
    s.Course i s.options (task way (s, i)) := by
  cases way with
  | auto => exact Session.solve_course s i none
  | primal => exact Session.solveCold_course s i none
  | dual => exact Session.solveWarm_course s i none none

private theorem task_inStep {s : Session α} {o : SolveOptions α} (h : s.options.InStep o)
    (way : SolveWay) (i : Instance α) : Session.aftermath (task way ({ s with options := o }, i)) =
      Session.aftermath (task way (s, i)) := by
  cases way with
  | auto => exact Session.solve_inStep h i
  | primal => exact Session.solveCold_inStep h i
  | dual => exact Session.solveWarm_inStep h i none

/-- The solve of a model in a session of its own. -/
def solving (way : SolveWay) (o : SolveOptions α) (highspy : Option (Highspy α)) :
    Action (Instance α) α (SolveResult α) := do
  let s ← Action.lift (Session.create o none highspy)
  fun i => Session.aftermath (task way (s, i))

private theorem concerns_solve (name : String) (way : SolveWay) (o : SolveOptions α)
    (highspy : Option (Highspy α)) :
    Concerns (solve name way o highspy) name (solving way o highspy) where
  unknown r h := by
    simp only [solve, bind, get, getThe, MonadStateOf.get, Action.lift, model_eq_error h]
    exact ⟨trivial, trivial⟩
  known r i h := by
    simp only [solve, solving, bind, get, getThe, MonadStateOf.get, Action.lift, model_eq h]
    cases Session.create o none highspy with
    | error f =>
        refine ⟨?_, rfl⟩
        show r = { r with models := r.models.put name i }
        rw [Keyed.put_of_get? h]
    | ok s => exact ⟨rfl, rfl⟩

private theorem solving_eq {way : SolveWay} {o : SolveOptions α} {highspy : Option (Highspy α)}
    {s : Session α} (h : Session.create o none highspy = .ok s) (i : Instance α) :
    solving way o highspy i = Session.aftermath (task way (s, i)) := by
  unfold solving
  rw [h]
  rfl

private theorem fair_solving (way : SolveWay) (o : SolveOptions α) (highspy : Option (Highspy α)) :
    Fair (do return .solved (← solving way o highspy).bare : Action (Instance α) α (Told α)) := by
  cases hcreate : Session.create o none highspy with
  | error f =>
      unfold solving
      rw [hcreate]
      exact .of_commutes (fun _ => rfl) fun _ _ _ => rfl
  | ok s =>
      obtain ⟨e, he, hs⟩ := create_eq_ok.mp hcreate
      have hfresh : s.engine.Fresh := hs ▸ Engine.fresh_of_ofName he
      constructor
      · intro i
        rw [Action.answer_bind_pure, Action.answer_bind_pure, solving_eq hcreate,
          solving_eq hcreate]
        have hmap : ∀ answer : Except (Fault α) (SolveResult α),
            answer.map (fun r => Told.solved r.bare) =
              (answer.map SolveResult.bare).map Told.solved := by
          intro answer
          cases answer <;> rfl
        rw [hmap, hmap]
        exact congrArg (Except.map Told.solved) (task_blind hfresh way i).1
      · intro i
        rw [Action.state_bind_pure, Action.state_bind_pure, solving_eq hcreate, solving_eq hcreate]
        exact (task_blind hfresh way i).2
      · intro i f h
        rw [Action.answer_bind_pure, solving_eq hcreate] at h
        rw [Action.state_bind_pure, solving_eq hcreate]
        cases htask : (task way (s, i)).answer with
        | error f' => exact (task_course s way i).state_of_error htask
        | ok r =>
            rw [Session.aftermath, htask] at h
            cases h

/-- A solve in a session of its own does the same under options that are in step. -/
theorem solve_inStep {o o' : SolveOptions α} (h : o.InStep o') (name : String) (way : SolveWay)
    (highspy : Option (Highspy α)) : solve name way o' highspy = solve name way o highspy := by
  have hcreate : Session.create o' none highspy =
      (Session.create o none highspy).map fun s => { s with options := o' } := by
    unfold Session.create
    simp only [h.engine]
    cases Engine.ofName o.engine.name highspy <;> rfl
  funext r
  simp only [solve, bind, get, getThe, MonadStateOf.get, Action.lift, hcreate]
  cases r.model name with
  | error f => rfl
  | ok i =>
      cases hs : Session.create o none highspy with
      | error f => rfl
      | ok s =>
          obtain ⟨e, -, rfl⟩ := create_eq_ok.mp hs
          show (let a := Session.aftermath (task way (⟨o', e, false⟩, i))
            Attempt.mk ({ r with models := r.models.put name a.state } : Registry α) a.journal
              a.answer) = _
          rw [task_inStep (s := ⟨o, e, false⟩) h]
          rfl

/-- Calls of two runs that ask for the same, of the same package. Under a time limit the clocks
may differ as long as the time has run out after the same numbers of pivots. -/
inductive Call.InStep : Call α → Call α → Prop
  | refl (c : Call α) : InStep c c
  | solve (name : String) (way : SolveWay) (highspy : Option (Highspy α)) {o o' : SolveOptions α} :
      o.InStep o' → InStep (.solve name way o highspy) (.solve name way o' highspy)

private theorem Call.InStep.run_eq {c c' : Call α} (h : c.InStep c') : c'.run = c.run := by
  cases h with
  | refl => rfl
  | solve name way highspy h =>
      unfold Call.run
      simp only [solve_inStep h]

private theorem answers_inStep {calls calls' : List (Call α)}
    (h : List.Forall₂ Call.InStep calls calls') (r : Registry α) :
    (r.transcript calls).map Exchange.answer = (r.transcript calls').map Exchange.answer := by
  induction h generalizing r with
  | nil => rfl
  | cons hc _ ih =>
      rw [transcript, transcript, List.map_cons, List.map_cons, hc.run_eq, ih]
      rfl

/-- Everything that a call can be: it loads, drops, is refused, or does one thing with the model
that it names. -/
inductive Call.Effect : Call α → Prop
  | load (d : Description α) : Effect (.load d)
  | drop (name : String) : Effect (.drop name)
  | unread (name : String) (f : Fault α) : Effect (.unread name f)
  | task {c : Call α} {task : Action (Instance α) α (Told α)}
      (concerns : Concerns c.run c.name task) (fair : Fair task)
      (settle : ∀ held answer, Exchange.settle held (c, answer) = held) : Effect c

private theorem Call.effect (c : Call α) : c.Effect := by
  cases c with
  | load d => exact .load d
  | drop name => exact .drop name
  | unread name f => exact .unread name f
  | assignNames name kind names first last =>
      refine .task (((concerns_onModel name _).bind fun _ => concerns_describe name).map _)
        (.of_commutes ?_ ?_) fun _ _ => rfl
      · apply Commutes.bind _ fun _ => commutes_pure _
        exact (Instance.assignNames_commutes kind names first last).bind fun _ => figures_commutes
      · apply Atomic.bind_sure _ fun _ => sure_pure _
        exact (Instance.assignNames_atomic kind names first last).bind_sure fun _ => figures_sure
  | addRows name rows entries =>
      refine .task (((concerns_onModel name _).bind fun _ => (concerns_describe name).map _).map _)
        (.of_commutes ?_ ?_) fun _ _ => rfl
      · apply Commutes.bind _ fun _ => commutes_pure _
        apply (Instance.addRows_commutes rows entries).bind
        exact fun _ => figures_commutes.bind fun _ => commutes_pure _
      · apply Atomic.bind_sure _ fun _ => sure_pure _
        apply (Instance.addRows_atomic rows entries).bind_sure
        exact fun _ => figures_sure.bind fun _ => sure_pure _
  | solve name way o highspy =>
      exact .task ((concerns_solve name way o highspy).map _) (fair_solving way o highspy)
        fun _ _ => rfl
  | describe name =>
      refine .task ((concerns_describe name).map _) (.of_commutes ?_ ?_) fun _ _ => rfl
      · exact figures_commutes.bind fun _ => commutes_pure _
      · exact (figures_sure.bind fun _ => sure_pure _).atomic

private theorem load_anonymous (d : Description α) (token : ℕ) :
    (Instance.load d (.declare token d.name)).answer =
        (Instance.load d (.declare 0 d.name)).answer ∧
      (Instance.load d (.declare token d.name)).state.anonymous =
        (Instance.load d (.declare 0 d.name)).state := by
  have h := Instance.load_commutes d (.declare token d.name)
  rw [Instance.anonymous_declare] at h
  rw [h]
  exact ⟨rfl, rfl⟩

private theorem run_load (d : Description α) (r : Registry α) :
    (∃ f, (Instance.load d (.declare 0 d.name)).answer = .error f ∧
        ((Call.load d).run r).answer = .error f ∧ ((Call.load d).run r).state = r) ∨
      ∃ i loaded, Action.Returns (Instance.load d) (.declare 0 d.name) loaded () ∧
        i.anonymous = loaded ∧ ((Call.load d).run r).answer = .ok (.figures loaded.summary) ∧
        ((Call.load d).run r).state = ⟨r.models.put d.name i, r.next + 1⟩ := by
  obtain ⟨hanswer, hstate⟩ := load_anonymous d r.next
  simp only [Call.run, load, bind]
  cases hload : (Instance.load d (.declare r.next d.name)).answer with
  | error f => exact Or.inl ⟨f, hanswer.symm.trans hload, rfl, rfl⟩
  | ok u =>
      refine Or.inr ⟨_, _, ⟨rfl, hanswer.symm.trans hload⟩, hstate, ?_, rfl⟩
      rw [← hstate, Instance.summary_anonymous]
      rfl

private theorem Call.run_atomic (c : Call α) : c.run.Atomic := by
  intro r f h
  cases c.effect with
  | load d =>
      rcases run_load d r with ⟨-, -, -, hkept⟩ | ⟨_, _, -, -, hok, -⟩
      · exact hkept
      · rw [hok] at h
        cases h
  | drop name => cases h
  | unread name e => rfl
  | task hc hfair _ =>
      cases hmodel : r.models.get? c.name with
      | none => exact (hc.unknown r hmodel).1
      | some i =>
          obtain ⟨hstate, hanswer⟩ := hc.known r i hmodel
          rw [hanswer] at h
          rw [hstate, hfair.atomic i f h, Keyed.put_of_get? hmodel]

/-- The model of a name, without its token. -/
def view (r : Registry α) (name : String) : Option (Instance α) :=
  (r.models.get? name).map Instance.anonymous

omit [Scalar α] in
private theorem view_put_self (models : Keyed (Instance α)) (name : String) (i : Instance α)
    (next : ℕ) : view ⟨models.put name i, next⟩ name = some i.anonymous := by
  rw [view, Keyed.get?_put_self, Option.map_some]

/-- A call leaves the models of other names as they are. -/
theorem view_of_ne (c : Call α) (r : Registry α) {name : String} (h : c.name ≠ name) :
    (c.run r).state.view name = r.view name := by
  have hput : ∀ (i : Instance α) next,
      view ⟨r.models.put c.name i, next⟩ name = r.view name := by
    intro i next
    rw [view, view, Keyed.get?_put_of_ne _ _ _ h.symm]
  cases c.effect with
  | load d =>
      rcases run_load d r with ⟨-, -, -, hkept⟩ | ⟨i, -, -, -, -, hloaded⟩
      · rw [hkept]
      · rw [hloaded]
        exact hput i _
  | drop dropped =>
      show ((r.models.drop dropped).get? name).map Instance.anonymous = _
      rw [Keyed.get?_drop_of_ne r.models dropped h.symm, view]
  | unread _ e => rfl
  | task hc _ _ =>
      cases hmodel : r.models.get? c.name with
      | none => rw [(hc.unknown r hmodel).1]
      | some i =>
          rw [(hc.known r i hmodel).1]
          exact hput _ _

private theorem view_congr (c : Call α) {r s : Registry α} (h : r.view c.name = s.view c.name) :
    (c.run r).answer.map Told.unlisted = (c.run s).answer.map Told.unlisted ∧
      (c.run r).state.view c.name = (c.run s).state.view c.name := by
  cases c.effect with
  | load d =>
      -- but for the token the model that is loaded does not depend on the registry
      rcases run_load d r with ⟨f, hf, hfailed, hkept⟩ | ⟨i, loaded, hi, hview, hok, hput⟩
      · rcases run_load d s with ⟨f', hf', hfailed', hkept'⟩ | ⟨_, _, ⟨-, hno⟩, -⟩
        · rw [hfailed, hfailed', hkept, hkept', Except.error.inj (hf.symm.trans hf')]
          exact ⟨rfl, h⟩
        · cases hf.symm.trans hno
      · rcases run_load d s with ⟨_, hno, -⟩ | ⟨j, loaded', hj, hview', hok', hput'⟩
        · cases hi.2.symm.trans hno
        · have hsame : loaded' = loaded := hj.1.symm.trans hi.1
          rw [hok, hok', hput, hput', hsame]
          refine ⟨rfl, ?_⟩
          show view ⟨r.models.put d.name i, _⟩ d.name = view ⟨s.models.put d.name j, _⟩ d.name
          rw [view_put_self, view_put_self, hview, hview', hsame]
  | drop name =>
      have hname : r.view name = s.view name := h
      have hsome : ∀ t : Registry α, (t.models.get? name).isSome = (t.view name).isSome :=
        fun t => Option.isSome_map.symm
      constructor
      · show Except.ok (Told.dropped (r.models.get? name).isSome []) =
          Except.ok (Told.dropped (s.models.get? name).isSome [])
        rw [hsome, hsome, hname]
      · show ((r.models.drop name).get? name).map Instance.anonymous =
          ((s.models.drop name).get? name).map Instance.anonymous
        rw [Keyed.get?_drop_self, Keyed.get?_drop_self]
  | unread name f => exact ⟨rfl, h⟩
  | task hc hfair _ =>
      cases hr : r.models.get? c.name with
      | none =>
          have hs : s.models.get? c.name = none := by
            rwa [view, view, hr, Option.map_none, eq_comm, Option.map_eq_none_iff] at h
          obtain ⟨hstate, hanswer⟩ := hc.unknown r hr
          obtain ⟨hstate', hanswer'⟩ := hc.unknown s hs
          rw [hstate, hstate', hanswer, hanswer']
          exact ⟨rfl, h⟩
      | some i =>
          obtain ⟨j, hs, hij⟩ : ∃ j, s.models.get? c.name = some j ∧ j.anonymous = i.anonymous := by
            rwa [view, view, hr, Option.map_some, eq_comm, Option.map_eq_some_iff] at h
          obtain ⟨hstate, hanswer⟩ := hc.known r i hr
          obtain ⟨hstate', hanswer'⟩ := hc.known s j hs
          rw [hstate, hstate', hanswer, hanswer', view_put_self, view_put_self, ← hfair.answer i,
            ← hfair.answer j, ← hfair.state i, ← hfair.state j, hij]
          exact ⟨rfl, rfl⟩

private theorem Holds.step {r : Registry α} {held : Finset String} (h : r.Holds held) (c : Call α) :
    (c.run r).state.Holds (Exchange.settle held (c, (c.run r).answer)) := by
  cases c.effect with
  | load d =>
      rcases run_load d r with ⟨f, -, hfailed, hkept⟩ | ⟨i, loaded, -, -, hok, hput⟩
      · rw [hfailed, hkept]
        exact h
      · rw [hok, hput]
        exact h.put d.name i _
  | drop name => exact h.drop name r.next
  | unread name f => exact h
  | task hc _ hsettle =>
      rw [hsettle]
      cases hmodel : r.models.get? c.name with
      | none =>
          rw [(hc.unknown r hmodel).1]
          exact h
      | some i =>
          have hmem : c.name ∈ held := (h.mem_iff _).mp (Keyed.mem_names.mpr (by simp [hmodel]))
          rw [(hc.known r i hmodel).1, ← Finset.insert_eq_of_mem hmem]
          exact h.put c.name _ r.next

private theorem Holds.run {r : Registry α} {held : Finset String} (h : r.Holds held)
    (calls : List (Call α)) :
    (r.after calls).Holds ((r.transcript calls).foldl Exchange.settle held) := by
  induction calls generalizing r held with
  | nil => exact h
  | cons c calls ih => exact ih (h.step c)

/-- The calls for a name are told the same if the calls for other names are left out. -/
theorem transcript_filter (name : String) {r s : Registry α} (h : r.view name = s.view name)
    (calls : List (Call α)) :
    ((r.transcript calls).filter (·.1.name = name)).map Exchange.answer =
      (s.transcript (calls.filter (·.name = name))).map Exchange.answer := by
  induction calls generalizing r s with
  | nil => rfl
  | cons c calls ih =>
      by_cases hc : c.name = name
      · subst hc
        obtain ⟨hanswer, hview⟩ := view_congr c h
        rw [List.filter_cons_of_pos (by simp), transcript, transcript,
          List.filter_cons_of_pos (by simp), List.map_cons, List.map_cons, ih hview]
        exact congrArg (· :: _) hanswer
      · rw [List.filter_cons_of_neg (by simpa using hc), transcript,
          List.filter_cons_of_neg (by simpa using hc)]
        exact ih ((view_of_ne c r hc).trans h)

end Registry

/-- A package that has the sample problem solved, whatever it is asked. -/
def Sample.highspy : Highspy ℚ where
  failed _ := false
  status _ := .optimal
  statusText _ := "Optimal"
  objective _ := 29 / 2
  iterations _ := 2
  columnValues _ := [11 / 2, 7 / 2]
  rowDuals _ := [0, 0, 1 / 2, 1 / 2]

namespace Registry

end Registry

end IncrementalLP
