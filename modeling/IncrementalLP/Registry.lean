import IncrementalLP.Keyed
import IncrementalLP.Instance.Change
import IncrementalLP.Session.Basic
/-!
# The registry

Models under names, each of them an instance that is solved in a session of its own. Loading
replaces the model of a name; a model that could not be loaded leaves the registry as it was.
-/
namespace IncrementalLP

structure Registry (α : Type) where
  models : Keyed (Instance α)
  /-- The token of the next model. -/
  next : Nat

/-- How a model is to be solved. -/
inductive SolveWay where
  | auto
  | primal
  | dual
  deriving Repr, DecidableEq

/-- Every word but those for a method leaves the choice open. -/
def SolveWay.ofName (s : String) : SolveWay :=
  if s = "primal" then .primal else if s = "dual" then .dual else .auto

namespace Registry

variable {α : Type}

def empty : Registry α := ⟨[], 0⟩

def model (r : Registry α) (name : String) : Except (Fault α) (Instance α) :=
  match r.models.get? name with
  | some i => .ok i
  | none => .error (.unknownModel name)

/-- Does something with the model of a name. -/
def onModel {β : Type} (name : String) (task : Action (Instance α) α β) :
    Action (Registry α) α β := do
  let i ← Action.lift ((← get).model name)
  Action.within (fun _ => i) (fun j r => { r with models := r.models.put name j }) task

/-- The figures of the model of a name. -/
def describe (name : String) : Action (Registry α) α Summary := do
  return (← Action.lift ((← get).model name)).summary

/-- Forgets the model of a name; tells whether there was one. -/
def drop (name : String) : Action (Registry α) α Bool := do
  let r ← get
  set { r with models := r.models.drop name }
  return (r.models.get? name).isSome

/-- The names of all models in order. -/
def names (r : Registry α) : List String :=
  r.models.names.mergeSort fun a b => decide (a ≤ b)

variable [Scalar α]

/-- Loads a model under the name of its description. -/
def load (d : Description α) : Action (Registry α) α Summary := fun r =>
  let a := Instance.load d (.declare r.next d.name)
  match a.answer with
  | .ok () =>
    ⟨{ models := r.models.put d.name a.state, next := r.next + 1 }, a.journal, .ok a.state.summary⟩
  | .error f => ⟨r, a.journal, .error f⟩

def assignNames (name : String) (kind : Except String EntityKind)
    (names : Offer (List Names.Given)) (first last : Int) : Action (Registry α) α Summary := do
  onModel name (Instance.assignNames kind names first last)
  describe name

/-- Appends rows to a model; answers with their ordinals and the figures after it. -/
def addRows (name : String) (rows : List (Row α))
    (entries : Offer (List (Offer (RowEntries α)))) :
    Action (Registry α) α (List Nat × Summary) := do
  let ordinals ← onModel name (Instance.addRows rows entries)
  return (ordinals, ← describe name)

/-- Solves a model in a session of its own. -/
def solve (name : String) (way : SolveWay) (o : SolveOptions α)
    (highspy : Option (Highspy α) := none) :
    Action (Registry α) α (SolveResult α) := do
  let i ← Action.lift ((← get).model name)
  let s ← Action.lift (Session.create o none highspy)
  let task := match way with
    | .auto => Session.solve none
    | .primal => Session.solveCold none
    | .dual => Session.solveWarm none none
  Action.within (fun _ => (s, i)) (fun (_, j) r => { r with models := r.models.put name j }) task

end Registry

end IncrementalLP
