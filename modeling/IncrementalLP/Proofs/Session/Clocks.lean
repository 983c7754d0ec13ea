import IncrementalLP.Proofs.Simplex.Clocks
import IncrementalLP.Session.Basic
/-!
# Solves under two clocks

Two sessions whose options are in step get the same answers, report the same and leave the same
instance behind, on every engine.
-/
namespace IncrementalLP

variable {α : Type} [Scalar α] {o o' : SolveOptions α}

theorem HighsEngine.run_inStep (h : o.InStep o') (i : Instance α) (method : SolveMethod)
    (object : HighsObject α) : run i method o' object = run i method o object := by
  have hran : object.ran method o' = object.ran method o := by
    rw [HighsObject.ran, HighsObject.ran, h.maxIterations, h.timeLimit]
  have hresult : ∀ package : Highspy α, package.result i method o' = package.result i method o := by
    intro package
    funext object status message
    rw [Highspy.result, Highspy.result, h.wantDuals]
  unfold run
  simp only [hran, hresult]

namespace Engine

theorem solvePrimal_inStep (h : o.InStep o') (i : Instance α) :
    solvePrimal i o' = solvePrimal i o := by
  funext e
  cases e with
  | simplex e => exact congrArg (answered e) (Instance.solvePrimal_inStep h i)
  | highs e =>
      unfold solvePrimal HighsEngine.solvePrimal
      simp only [HighsEngine.run_inStep h]
  | replay e =>
      unfold solvePrimal
      rw [h.maxIterations]

theorem solveDual_inStep (h : o.InStep o') (i : Instance α) (kept : BasisHandle α) :
    solveDual i kept o' = solveDual i kept o := by
  funext e
  cases e with
  | simplex e => exact congrArg (answered e) (Instance.solveDual_inStep h i kept.payload)
  | highs e =>
      unfold solveDual HighsEngine.solveDual HighsEngine.solvePrimal
      simp only [HighsEngine.run_inStep h]
  | replay e =>
      unfold solveDual
      rw [h.maxIterations]

end Engine

namespace Session

/-- What is left of a solve when its session is gone. -/
def aftermath (a : Attempt (Solving α) α (SolveResult α)) :
    Attempt (Instance α) α (SolveResult α) := ⟨a.state.2, a.journal, a.answer⟩

variable {s : Session α} {i : Instance α}

omit [Scalar α] in
private theorem perform_options (o : SolveOptions α) (solve : Action (Engine α) α (SolveResult α)) :
    aftermath (perform solve ({ s with options := o }, i)) = aftermath (perform solve (s, i)) := by
  unfold perform
  simp only
  split <;> rfl

theorem solveCold_inStep (h : s.options.InStep o') (i : Instance α) :
    aftermath (solveCold none ({ s with options := o' }, i)) =
      aftermath (solveCold none (s, i)) := by
  have hopen : ({ s with options := o' }).requireOpen =
    (s.requireOpen : Except (Fault α) Unit) := rfl
  unfold solveCold
  simp only [hopen, Option.getD_none, Engine.solvePrimal_inStep h]
  split
  · rfl
  · exact perform_options o' _

theorem solveWarm_inStep (h : s.options.InStep o') (i : Instance α)
    (handle : Option (BasisHandle α)) :
    aftermath (solveWarm handle none ({ s with options := o' }, i)) =
      aftermath (solveWarm handle none (s, i)) := by
  have hcheck : ({ s with options := o' }).checkWarm i (handle <|> i.basis) =
    s.checkWarm i (handle <|> i.basis) := rfl
  unfold solveWarm
  simp only [hcheck, Option.getD_none, Engine.solveDual_inStep h]
  split
  · rfl
  · exact perform_options o' _

theorem solve_inStep (h : s.options.InStep o') (i : Instance α) :
    aftermath (solve none ({ s with options := o' }, i)) = aftermath (solve none (s, i)) := by
  unfold solve
  simp only
  split
  · exact solveWarm_inStep h i none
  · exact solveCold_inStep h i

end Session

end IncrementalLP
