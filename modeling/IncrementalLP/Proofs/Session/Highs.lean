import IncrementalLP.Proofs.Attempt
import IncrementalLP.Session.Highs
/-!
# Solves by HiGHS

A solve by the HiGHS engine tells what its object tells after a run, or it fails with a report of
the engine. What an object is filled with are the rows, the columns, the direction and the
compressed entries of an instance; neither its name nor its token comes to it.
-/
namespace IncrementalLP

variable {α : Type}

namespace Highspy

variable {h : Highspy α} {i j : Instance α} {method : SolveMethod} {o : SolveOptions α}
  {object : HighsObject α} {r : SolveResult α} {f : Fault α}

/-- The result of an instance that an object stands for after a run. -/
def solved (h : Highspy α) (i : Instance α) (method : SolveMethod) (o : SolveOptions α)
    (object : HighsObject α) : Except (Fault α) (SolveResult α) :=
  (h.ending (object.ran method o)).map fun e =>
    h.result i method o (object.ran method o) e.1 e.2

theorem basis_of_solved (hr : h.solved i method o object = .ok r) {kept : BasisHandle α}
    (hkept : r.basis = some kept) :
    kept =
      { owner := i.token
        numRows := i.numRows
        numColumns := i.numColumns
        engine := name } := by
  unfold solved result at hr
  cases hending : h.ending (object.ran method o) with
  | error f =>
      rw [hending] at hr
      cases hr
  | ok e =>
      rw [hending] at hr
      obtain rfl := Except.ok.inj hr
      by_cases hoptimal : e.1 = .optimal
      · simp only [hoptimal, if_true] at hkept
        exact (Option.some.inj hkept).symm
      · simp only [hoptimal, if_false] at hkept
        cases hkept

private theorem checked_eq_error {call : String} (hf : h.checked call object = .error f) :
    ∃ report, f = .engineFailed report := by
  unfold checked at hf
  split at hf
  · exact ⟨_, (Except.error.inj hf).symm⟩
  · cases hf

private theorem ending_eq_error (hf : h.ending object = .error f) :
    ∃ report, f = .engineFailed report := by
  unfold ending at hf
  rcases bind_eq_error.mp hf with hchecked | ⟨checked, -, hf⟩
  · exact checked_eq_error hchecked
  · rcases bind_eq_error.mp hf with houtcome | ⟨outcome, -, hf⟩
    · unfold outcome at houtcome
      split at houtcome <;> cases houtcome
      exact ⟨_, rfl⟩
    · cases outcome with
      | some ending => cases hf
      | none => exact ⟨_, (Except.error.inj hf).symm⟩

private theorem solved_eq_error (hf : h.solved i method o object = .error f) :
    ∃ report, f = .engineFailed report := by
  unfold solved at hf
  cases hending : h.ending (object.ran method o) with
  | error e =>
      rw [hending] at hf
      obtain rfl := Except.error.inj hf
      exact ending_eq_error hending
  | ok e =>
      rw [hending] at hf
      cases hf

/-- Two instances come to results that differ in no more than what the instances add to them. -/
theorem solved_congr {g g' : SolveResult α → SolveResult α}
    (hresult : ∀ object status message,
      g (h.result i method o object status message) =
        g' (h.result j method o object status message))
    (object : HighsObject α) :
    (h.solved i method o object).map g = (h.solved j method o object).map g' := by
  unfold solved
  cases h.ending (object.ran method o) with
  | error f => rfl
  | ok e => exact congrArg Except.ok (hresult _ _ _)

variable [Scalar α]

theorem filled_congr (hsense : i.sense = j.sense) (hrows : i.rows = j.rows)
    (hcolumns : i.columns = j.columns) (hentries : i.matrix.compressed = j.matrix.compressed)
    (object : HighsObject α) : h.filled i object = h.filled j object := by
  unfold filled rowsCall columnsCall Instance.numRows
  rw [hsense, hrows, hcolumns, hentries]

private theorem filled_eq_error (hf : h.filled i object = .error f) :
    ∃ report, f = .engineFailed report := by
  unfold filled at hf
  rcases bind_eq_error.mp hf with hrows | ⟨_, -, hf⟩
  · exact checked_eq_error hrows
  · rcases bind_eq_error.mp hf with hcolumns | ⟨_, -, hsense⟩
    · exact checked_eq_error hcolumns
    · exact checked_eq_error hsense

end Highspy

namespace HighsEngine

variable {i j : Instance α} {method : SolveMethod} {o : SolveOptions α} {object : HighsObject α}
  {r : SolveResult α} {f : Fault α}

private theorem answer_run (e : HighsEngine α) :
    (run i method o object e).answer = e.package.solved i method o object := by
  unfold run Highspy.solved
  simp only [bind, get, getThe, MonadStateOf.get, modify, modifyGet, MonadStateOf.modifyGet,
    Action.lift]
  cases e.package.ending (object.ran method o) <;> rfl

variable [Scalar α]

theorem answer_solvePrimal (e : HighsEngine α) :
    (solvePrimal i o e).answer =
      (e.package.filled i ⟨e.made, [.silence]⟩).bind (e.package.solved i .primal o) := by
  unfold solvePrimal load
  simp only [bind, get, getThe, MonadStateOf.get, set, MonadStateOf.set, modify, modifyGet,
    MonadStateOf.modifyGet, Action.lift]
  cases e.package.filled i ⟨e.made, [.silence]⟩ with
  | error f => rfl
  | ok object => exact answer_run _

private theorem appendRows_cases (i : Instance α) (object : HighsObject α) (e : HighsEngine α) :
    (∃ e' report, appendRows i object e = ⟨e', [], .error (.engineFailed report)⟩) ∨
      ∃ e' object', appendRows i object e = ⟨e', [], .ok object'⟩ ∧ e'.package = e.package := by
  by_cases hknown : i.numRows ≤ e.knownRows
  · refine Or.inr ⟨e, object, ?_, rfl⟩
    unfold appendRows
    rw [Action.bind_of_ok (t := e) (b := e) rfl, if_pos hknown]
    rfl
  · let entries :=
      (List.range' e.knownRows (i.numRows - e.knownRows)).map i.matrix.rowEntries
    let object' := object.after [Highspy.rowsCall i e.knownRows entries]
    have happended : appendRows i object e = (do
        let _ ← Action.lift (e.package.checked "addRows" object')
        modify fun e => { e with knownRows := i.numRows }
        return object' : Action (HighsEngine α) α (HighsObject α))
          { e with held := some object' } := by
      unfold appendRows
      rw [Action.bind_of_ok (t := e) (b := e) rfl, if_neg hknown]
      rfl
    rw [happended]
    cases hchecked : e.package.checked "addRows" object' with
    | error f =>
        obtain ⟨report, rfl⟩ := Highspy.checked_eq_error hchecked
        exact Or.inl ⟨_, report, rfl⟩
    | ok _ => exact Or.inr ⟨_, _, rfl, rfl⟩

/-- A warm solve is one from scratch, or it runs the object that is held with the rows that were
appended to it. -/
theorem solveDual_cases (i : Instance α) (o : SolveOptions α) (e : HighsEngine α) :
    (e.ready? i = none ∧ (solveDual i o e).answer = (solvePrimal i o e).answer) ∨
      (∃ report, (solveDual i o e).answer = .error (.engineFailed report)) ∨
        ∃ object, (solveDual i o e).answer = e.package.solved i .dual o object := by
  unfold solveDual
  rw [Action.bind_of_ok (t := e) (b := e) rfl]
  cases e.ready? i with
  | none => exact Or.inl ⟨rfl, rfl⟩
  | some object =>
      rcases appendRows_cases i object e with ⟨e', report, hfailed⟩ | ⟨e', object', hok, hpackage⟩
      · exact Or.inr (Or.inl ⟨report, congrArg Attempt.answer (Action.bind_of_error hfailed)⟩)
      · refine Or.inr (Or.inr ⟨object', ?_⟩)
        rw [← hpackage, ← answer_run]
        exact congrArg Attempt.answer (Action.bind_of_ok hok)

theorem exists_solved_of_solvePrimal {e : HighsEngine α} (h : (solvePrimal i o e).answer = .ok r) :
    ∃ object, e.package.solved i .primal o object = .ok r := by
  rw [answer_solvePrimal] at h
  obtain ⟨object, -, hsolved⟩ := bind_eq_ok.mp h
  exact ⟨object, hsolved⟩

theorem exists_solved_of_solveDual {e : HighsEngine α} (h : (solveDual i o e).answer = .ok r) :
    ∃ method object, e.package.solved i method o object = .ok r := by
  rcases solveDual_cases i o e with ⟨-, hcold⟩ | ⟨report, hfailed⟩ | ⟨object, hwarm⟩
  · exact ⟨_, exists_solved_of_solvePrimal (hcold.symm.trans h)⟩
  · cases hfailed.symm.trans h
  · exact ⟨_, object, hwarm.symm.trans h⟩

theorem solvePrimal_eq_error {e : HighsEngine α} (h : (solvePrimal i o e).answer = .error f) :
    ∃ report, f = .engineFailed report := by
  rw [answer_solvePrimal] at h
  rcases bind_eq_error.mp h with hfilled | ⟨object, -, hsolved⟩
  · exact Highspy.filled_eq_error hfilled
  · exact Highspy.solved_eq_error hsolved

theorem solveDual_eq_error {e : HighsEngine α} (h : (solveDual i o e).answer = .error f) :
    ∃ report, f = .engineFailed report := by
  rcases solveDual_cases i o e with ⟨-, hcold⟩ | ⟨report, hfailed⟩ | ⟨object, hwarm⟩
  · exact solvePrimal_eq_error (hcold.symm.trans h)
  · exact ⟨report, Except.error.inj (h.symm.trans hfailed)⟩
  · exact Highspy.solved_eq_error (hwarm.symm.trans h)

end HighsEngine

end IncrementalLP
