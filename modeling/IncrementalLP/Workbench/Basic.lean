import IncrementalLP.Keyed
import IncrementalLP.Instance.Change
import IncrementalLP.Session.Basic
import IncrementalLP.Session.Log
/-!
# The workbench

Instances, sessions, engines and saved bases under names of their own, and one log for all of them.
A name stands for an instance, which may go on living in an engine after the name has been given
to another one.
-/
namespace IncrementalLP

/-- A session, and the log file that was attached for it. -/
structure OpenSession (α : Type) where
  session : Session α
  attachment : Option Attachment

structure Workbench (α : Type) where
  /-- All instances so far; each is at the position of its token. -/
  pool : List (Instance α)
  instances : Keyed Nat
  sessions : Keyed (OpenSession α)
  engines : Keyed (Engine α)
  bases : Keyed (Option (BasisHandle α))
  log : Log

namespace Workbench

variable {α : Type}

def empty (level : Option Level) : Workbench α := ⟨[], [], [], [], [], .quiet level⟩

/-- Does something on the workbench, and records what it reports. -/
def perform [Scalar α] {β : Type} (w : Workbench α) (task : Action (Workbench α) α β) :
    Workbench α × Except (Fault α) β :=
  let a := task w
  ({ a.state with log := a.state.log.record a.journal }, a.answer)

/-- What is under a name. -/
def find {β : Type} (entries : Keyed β) (name : String) : Except (Fault α) β :=
  match entries.get? name with
  | some b => .ok b
  | none => .error .unknownName

/-- The instance with a token. -/
def atToken (w : Workbench α) (token : Nat) : Except (Fault α) (Instance α) :=
  match w.pool[token]? with
  | some i => .ok i
  | none => .error .unknownName

def instance? (w : Workbench α) (name : String) : Option (Instance α) :=
  (w.instances.get? name).bind (w.pool[·]?)

def theInstance (w : Workbench α) (name : String) : Except (Fault α) (Instance α) := do
  w.atToken (← find w.instances name)

def putInstance (w : Workbench α) (i : Instance α) : Workbench α :=
  { w with pool := w.pool.set i.token i }

def session? (w : Workbench α) (name : String) : Option (OpenSession α) := w.sessions.get? name

/-- A new instance under a name. -/
def addInstance (w : Workbench α) (name : String) (i : Instance α) : Workbench α :=
  { w with pool := w.pool ++ [i], instances := w.instances.put name i.token }

/-- Declares an instance and puts it under a name. -/
def declare (name title : String) : Action (Workbench α) α Unit := do
  let w ← get
  set (w.addInstance name (.declare w.pool.length title))

/-- Does something with the instance under a name. -/
def onInstance {β : Type} (name : String) (task : Action (Instance α) α β) :
    Action (Workbench α) α β := do
  let i ← Action.lift ((← get).theInstance name)
  Action.within (fun _ => i) (fun j w => w.putInstance j) task

variable [Scalar α]

/-- Loads a new instance, which takes the name if it is loaded. -/
def load (name : String) (d : Description α) : Action (Workbench α) α Unit := fun w =>
  let a := Instance.load d (.declare w.pool.length d.name)
  ⟨match a.answer with
    | .ok () => w.addInstance name a.state
    | .error _ => w, a.journal, a.answer⟩

/-- Appends rows to the matrix of an instance without telling the instance. -/
def pokeMatrix (name : String) (rows : Offer (List (Offer (RowEntries α)))) :
    Action (Workbench α) α Nat := onInstance name (Instance.onMatrix (SparseMatrix.appendRows rows))

/-- Opens a session: bare, or with the log file that its options ask for. A session without an
engine of its own gets the one that its options name. -/
def openSession (around : Surroundings) (name : String) (bare : Bool) (o : SolveOptions α)
    (engine : Option (Engine α)) (highspy : Option (Highspy α) := none) :
    Action (Workbench α) α Unit := fun w =>
  match w.log.attach? around (if bare then none else o.logFile) with
  | .error f => ⟨w, [], .error f⟩
  | .ok (log, attachment) =>
    match Session.create o engine highspy with
    | .ok s => ⟨{ w with log := log, sessions := w.sessions.put name ⟨s, attachment⟩ }, [], .ok ()⟩
    | .error f => ⟨{ w with log := log.detach? attachment }, [], .error f⟩

/-- Closes a session; answers with the calls that its engine got, if it lists them. If the engine
refuses, the file of the session stays where it is. -/
def closeSession (name : String) : Action (Workbench α) α (Option (List EngineCall)) := do
  let s ← Action.lift (find (← get).sessions name)
  Action.within (fun _ => s.session)
    (fun t w => { w with sessions := w.sessions.put name ⟨t, none⟩ }) Session.close
  modify fun w => { w with log := w.log.detach? s.attachment }
  return ((← get).session? name).bind (·.session.engine.calls?)

/-- Solves the instance under a name in the session under another. -/
def solveIn (session name : String) (solve : Action (Solving α) α (SolveResult α)) :
    Action (Workbench α) α (SolveResult α) := do
  let w ← get
  let s ← Action.lift (find w.sessions session)
  let i ← Action.lift (w.theInstance name)
  Action.within (fun _ => (s.session, i))
    (fun (t, j) w =>
      { w.putInstance j with sessions := w.sessions.put session ⟨t, s.attachment⟩ }) solve

/-- Remembers the basis of an instance, if it has one. -/
def saveBasis (name saved : String) : Action (Workbench α) α Unit := do
  let w ← get
  let i ← Action.lift (w.theInstance name)
  set { w with bases := w.bases.put saved i.basis }

/-- Puts a new engine under a name. -/
def addEngine (name kind : String) (highspy : Option (Highspy α) := none) :
    Action (Workbench α) α Unit := do
  let e ← Action.lift (Engine.ofName kind highspy)
  modify fun w => { w with engines := w.engines.put name e }

/-- Does something with the engine under a name. -/
def onEngine {β : Type} (name : String) (task : Action (Engine α) α β) :
    Action (Workbench α) α β := do
  let e ← Action.lift (find (← get).engines name)
  Action.within (fun _ => e) (fun e w => { w with engines := w.engines.put name e }) task

def registerIn (engine name : String) : Action (Workbench α) α Unit := do
  let i ← Action.lift ((← get).theInstance name)
  onEngine engine (Engine.register i)

def closeEngine (name : String) : Action (Workbench α) α Unit :=
  onEngine name Engine.close

/-- Registers an instance with an engine, and closes the engine whatever comes of it. -/
def registerOnce (engine name : String) : Action (Workbench α) α Unit := do
  try registerIn engine name
  catch f =>
    closeEngine engine
    throw f
  closeEngine engine

/-- What an engine has found: a status and an objective. -/
def findings (name : String) : Action (Workbench α) α (Option SolveStatus × Option α) := do
  let e ← Action.lift (find (← get).engines name)
  return (← Action.lift e.status, e.objective)

/-- Solves the instance that is registered with an engine. -/
def solveRegistered (engine : String)
    (solve : Instance α → Action (Engine α) α (SolveResult α)) :
    Action (Workbench α) α (SolveResult α) := do
  let w ← get
  let e ← Action.lift (find w.engines engine)
  let i ← Action.lift (do w.atToken (← e.requireRegistered))
  onEngine engine (solve i)

end Workbench

end IncrementalLP
