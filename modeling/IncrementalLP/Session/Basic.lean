import IncrementalLP.Session.Engine
/-!
# Sessions

A session holds an engine and decides how an instance is solved. A warm solve needs the basis of
the last solve, which the instance keeps as long as only rows have been appended since; in every
other case a cold solve is due. A solve that fails leaves the instance as it was.
-/
namespace IncrementalLP

structure Session (α : Type) where
  options : SolveOptions α
  engine : Engine α
  closed : Bool := false

/-- A session and the instance that it works on. -/
abbrev Solving (α : Type) := Session α × Instance α

namespace Session

variable {α : Type}

/-- A session on a given engine, or on the engine that the options name. -/
def create (o : SolveOptions α) (engine : Option (Engine α))
    (highspy : Option (Highspy α) := none) : Except (Fault α) (Session α) :=
  match engine with
  | some e => .ok ⟨o, e, false⟩
  | none => (Engine.ofName o.engine.name highspy).map fun e => ⟨o, e, false⟩

/-- Closes the engine, once. As long as the engine refuses, the session stays open. -/
def close : Action (Session α) α Unit := do
  if !(← get).closed then
    Action.within (·.engine) (fun e s => { s with engine := e }) Engine.close
    modify fun s => { s with closed := true }

/-- The engine is at hand as long as the session is open. -/
def requireOpen (s : Session α) : Except (Fault α) Unit :=
  if s.closed then .error .sessionClosed else .ok ()

/-- Registers the instance and solves it; a result is recorded with the instance, whose handle of
the basis comes back with it. -/
def perform (solve : Action (Engine α) α (SolveResult α)) : Action (Solving α) α (SolveResult α) :=
  fun (s, i) =>
    let a := (do Engine.register i; solve : Action (Engine α) α (SolveResult α)) s.engine
    let s := { s with engine := a.state }
    match a.answer with
    | .error f => ⟨(s, i), a.journal, .error f⟩
    | .ok r =>
      let recorded := i.recordSolve r
      ⟨(s, recorded), a.journal, .ok { r with basis := recorded.basis }⟩

/-- May a warm solve of the instance start from a basis? Answers with the basis that the instance
keeps, which is the one that was asked for. -/
def checkWarm (s : Session α) (i : Instance α) (handle : Option (BasisHandle α)) :
    Except (Fault α) (BasisHandle α) := do
  if i.progress = .unsolved then throw (.neverSolved i.name)
  match handle, i.basis with
  | some h, some kept =>
    if h.owner ≠ i.token then throw (.foreignBasis i.name)
    if h.stamp ≠ kept.stamp then throw (.staleBasis i.name)
    if kept.numColumns ≠ i.numColumns ∨ i.numRows < kept.numRows then
      throw (.basisShape kept.numRows kept.numColumns i.numRows i.numColumns)
    s.requireOpen
    if kept.engine ≠ s.engine.name then throw (.basisEngine kept.engine s.engine.name)
    return kept
  | _, _ => throw (.noBasis i.name)

variable [Scalar α]

/-- Solves the instance from scratch. -/
def solveCold (options : Option (SolveOptions α)) : Action (Solving α) α (SolveResult α) :=
  fun (s, i) =>
    let checked : Except (Fault α) Unit := do
      i.requireLoaded "solve"
      s.requireOpen
    match checked with
    | .error f => ⟨(s, i), [], .error f⟩
    | .ok () => perform (Engine.solvePrimal i (options.getD s.options)) (s, i)

/-- Solves the instance from a basis: the one given, or else the one that the instance keeps. -/
def solveWarm (handle : Option (BasisHandle α)) (options : Option (SolveOptions α)) :
    Action (Solving α) α (SolveResult α) := fun (s, i) =>
  let checked : Except (Fault α) (BasisHandle α) := do
    i.requireLoaded "solve"
    s.checkWarm i (handle <|> i.basis)
  match checked with
  | .error f => ⟨(s, i), [], .error f⟩
  | .ok h => perform (Engine.solveDual i h (options.getD s.options)) (s, i)

/-- Solves the instance from the basis that it keeps, or from scratch if it keeps none. -/
def solve (options : Option (SolveOptions α)) : Action (Solving α) α (SolveResult α) :=
  fun (s, i) =>
    if i.warmStartEligible then solveWarm none options (s, i) else solveCold options (s, i)

end Session

end IncrementalLP
