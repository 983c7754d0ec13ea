import IncrementalLP.Session.Highs
/-!
# Engines

An engine solves the instance that is registered with it. There are three sorts: the simplex
engine, the HiGHS engine, and an engine that replays answers from a script and keeps a list of the
calls it got.
-/
namespace IncrementalLP

/-- The handle that comes with a scripted answer: one for the instance, at its size or at a given
one, or any other, perhaps one that has been recorded before. -/
inductive ReplyBasis where
  | absent
  | ofInstance
  | sized (rows columns : Nat)
  | given (owner rows columns : Nat) (engine : String) (stamp : Option (Nat × Nat))
  deriving Repr, DecidableEq

/-- A scripted answer. -/
inductive Reply (α : Type) where
  | failure (report : String)
  | malformed (problems : List Problem)
  /-- A result; where the method is left open it is that of the call. -/
  | result (r : SolveResult α) (method : Option SolveMethod) (basis : ReplyBasis)

/-- A call of an engine. -/
inductive EngineCall where
  | register (name : String)
  | primal (maxIterations : Int)
  | dual (basisRows : Nat) (maxIterations : Int)
  | close
  deriving Repr, DecidableEq

def EngineCall.text : EngineCall → String
  | .register name => "register " ++ name
  | .primal k => "primal " ++ toString k
  | .dual rows k => "dual " ++ toString rows ++ " " ++ toString k
  | .close => "close"

/-- The simplex engine between calls: the token of the registered instance, and what the last solve
since then has found. -/
structure SimplexEngine (α : Type) where
  registered : Option Nat := none
  status : Option SolveStatus := none
  objective : Option α := none

/-- An engine that answers each solve with the next item of its script. It may refuse to be
closed. -/
structure ReplayEngine (α : Type) where
  name : String
  script : List (Reply α)
  refusal : Option String := none
  registered : Option Nat := none
  calls : List EngineCall := []

inductive Engine (α : Type) where
  | simplex (e : SimplexEngine α)
  | highs (e : HighsEngine α)
  | replay (e : ReplayEngine α)

namespace Engine

variable {α : Type}

def name : Engine α → String
  | .simplex _ => Instance.simplexName
  | .highs _ => Highspy.name
  | .replay e => e.name

/-- The name by which messages call the engine. -/
def title : Engine α → String
  | .simplex _ => "simplex"
  | .highs _ => "HiGHS"
  | .replay e => e.name

/-- The engine of a name. There is a HiGHS engine only where its package is installed. -/
def ofName (name : String) (highspy : Option (Highspy α) := none) :
    Except (Fault α) (Engine α) :=
  match EngineChoice.ofName? name with
  | some .simplex => .ok (.simplex {})
  | some .highs =>
    match highspy with
    | some package => .ok (.highs { package := package })
    | none => .error .engineMissing
  | none => .error (.unknownEngine name)

def registered? : Engine α → Option Nat
  | .simplex e => e.registered
  | .highs e => e.registered
  | .replay e => e.registered

/-- The status that the last solve has found. -/
def status : Engine α → Except (Fault α) (Option SolveStatus)
  | .simplex e => .ok e.status
  | .highs e => e.status
  | .replay _ => .ok none

/-- The objective that the last solve has found. -/
def objective : Engine α → Option α
  | .simplex e => e.objective
  | .highs e => e.objective
  | .replay _ => none

/-- The calls that a scripted engine has got. -/
def calls? : Engine α → Option (List EngineCall)
  | .simplex _ | .highs _ => none
  | .replay e => some e.calls

def register (i : Instance α) : Action (Engine α) α Unit := fun e =>
  match e with
  | .simplex _ =>
    match i.requireLoaded "register with the engine" with
    | .ok () => ⟨.simplex { registered := some i.token }, [], .ok ()⟩
    | .error f => ⟨e, [], .error f⟩
  | .highs h =>
    match i.requireLoaded "register with the engine" with
    | .ok () => ⟨.highs { h with registered := some i.token }, [], .ok ()⟩
    | .error f => ⟨e, [], .error f⟩
  | .replay r =>
    ⟨.replay { r with registered := some i.token, calls := r.calls ++ [.register i.name] }, [],
      .ok ()⟩

/-- Takes the instance from the engine. What the simplex engine has found stays known. -/
def close : Action (Engine α) α Unit := fun e =>
  match e with
  | .simplex s => ⟨.simplex { s with registered := none }, [], .ok ()⟩
  | .highs h => ⟨.highs h.close, [], .ok ()⟩
  | .replay r =>
    let called : Engine α := .replay { r with calls := r.calls ++ [.close] }
    match r.refusal with
    | none => ⟨called, [], .ok ()⟩
    | some report => ⟨called, [], .error (.engineFailed report)⟩

/-- The token of the registered instance. -/
def requireRegistered (e : Engine α) : Except (Fault α) Nat :=
  match e.registered? with
  | some token => .ok token
  | none => .error (.nothingRegistered e.title)

/-- The handle that comes with a scripted answer. -/
def ReplyBasis.handle (engine : String) (i : Instance α) : ReplyBasis → Option (BasisHandle α)
  | .absent => none
  | .ofInstance =>
    some { owner := i.token, numRows := i.numRows, numColumns := i.numColumns, engine := engine }
  | .sized rows columns =>
    some { owner := i.token, numRows := rows, numColumns := columns, engine := engine }
  | .given owner rows columns engine stamp =>
    some
      { owner := owner
        numRows := rows
        numColumns := columns
        engine := engine
        stamp := stamp }

/-- The next answer of a script. -/
def nextReply (r : ReplayEngine α) (i : Instance α) (method : SolveMethod) (call : EngineCall) :
    Attempt (Engine α) α (SolveResult α) :=
  let called := { r with calls := r.calls ++ [call] }
  match r.script with
  | [] => ⟨.replay called, [], .error (.engineFailed "script exhausted")⟩
  | reply :: rest =>
    let next : Engine α := .replay { called with script := rest }
    match reply with
    | .failure report => ⟨next, [], .error (.engineFailed report)⟩
    | .malformed problems => ⟨next, [], .error (.rejected problems)⟩
    | .result s given basis =>
      ⟨next, [],
        .ok { s with method := given.getD method, basis := ReplyBasis.handle r.name i basis }⟩

variable [Scalar α]

/-- The simplex engine after an answer. -/
def answered (e : SimplexEngine α) (a : Answer α) : Attempt (Engine α) α (SolveResult α) :=
  ⟨.simplex { e with status := some a.result.status, objective := a.result.objective },
    a.journal, .ok a.result⟩

/-- Solves the registered instance from scratch. -/
def solvePrimal (i : Instance α) (o : SolveOptions α) : Action (Engine α) α (SolveResult α) :=
  fun e =>
    match e with
    | .simplex s => answered s (i.solvePrimal o)
    | .highs h => Action.within (fun _ => h) (fun h _ => .highs h) (HighsEngine.solvePrimal i o) e
    | .replay r => nextReply r i .primal (.primal o.maxIterations)

/-- Solves the registered instance from a basis. -/
def solveDual (i : Instance α) (h : BasisHandle α) (o : SolveOptions α) :
    Action (Engine α) α (SolveResult α) := fun e =>
  match e with
  | .simplex s => answered s (i.solveDual o h.payload)
  | .highs g => Action.within (fun _ => g) (fun g _ => .highs g) (HighsEngine.solveDual i o) e
  | .replay r => nextReply r i .dual (.dual h.numRows o.maxIterations)

end Engine

end IncrementalLP
