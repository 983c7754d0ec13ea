import IncrementalLP.Cli.Options
import IncrementalLP.Problem.Sample
import IncrementalLP.Random.Problem
import IncrementalLP.Workbench.Basic
/-!
# The program

Each command is a list of tasks on a workbench, which is run until one of them fails. A run leaves
behind what is printed, what is logged and what is written to files.
-/
namespace IncrementalLP.Cli

/-- A line that is printed. How long a solve took is for the outer layer to say. -/
inductive OutputLine where
  | text (s : String)
  | solve (name method status : String) (objective : Option Float) (iterations : Int)

/-- What comes of a task: printed lines, and a file that is written. -/
structure Report where
  lines : List OutputLine := []
  file : Option (String × String) := none

abbrev Task := Action (Workbench Float) Float Report

def printed (s : String) : Report := { lines := [.text s] }

def objectiveText (objective : Option Float) : String :=
  match objective with
  | some x => Scalar.text x
  | none => "None"

def sessionName : String := "session"

def openTask (around : Surroundings) (highspy : Option (Highspy Float))
    (o : SolveOptions Float) : Task := do
  Workbench.openSession around sessionName false o none highspy
  return {}

def closeTask : Task := do
  let _ ← Workbench.closeSession sessionName
  return {}

def solveCold (name : String) : Action (Workbench Float) Float (SolveResult Float) :=
  Workbench.solveIn sessionName name (Session.solveCold none)

def solveWarm (name : String) : Action (Workbench Float) Float (SolveResult Float) :=
  Workbench.solveIn sessionName name (Session.solveWarm none none)

def sampleName : String := "lp"

def giveNames (kind : EntityKind) (names : List String) (first : Int) :
    Action (Workbench Float) Float Unit :=
  Workbench.onInstance sampleName
    (Instance.assignNames (.ok kind) (.ok (names.map .ok)) first (first + names.length - 1))

def loadSample : Task := do
  let p : ProblemParts Float := Sample.parts
  Workbench.load sampleName ⟨sampleName, .ok .min, p.rows, p.columns, .held p.matrix⟩
  giveNames .row ["c1", "c2", "c3", "c4"] 0
  giveNames .column ["x", "y"] 0
  Workbench.onInstance sampleName (Instance.changeSense (.ok .max))
  return {}

def solveSample : Task := do
  let r ← solveCold sampleName
  return printed ("The optimal objective value is " ++ objectiveText r.objective)

def extendSample : Task := do
  let cut : Cut Float := Sample.cut
  let k ← Workbench.onInstance sampleName
    (Instance.addRow (.ok { cut.row with name := none }) (.ok cut.offered))
  giveNames .row cut.row.name.toList k
  return {}

def solveExtended : Task := do
  let r ← solveWarm sampleName
  return printed ("The revised optimal objective value is " ++ objectiveText r.objective)

/-- Solves the sample, cuts its optimum off, and solves it again. -/
def sampleTasks (around : Surroundings) (highspy : Option (Highspy Float))
    (o : SolveOptions Float) : List Task :=
  [loadSample, openTask around highspy o, solveSample, extendSample, solveExtended, closeTask]

def problemName (k : Int) : String := "random-" ++ toString k

/-- The documents of problems with consecutive seeds. -/
def documents (s : Sizes) (seed : Int) : Except (Fault Float) (List Value) :=
  (List.range s.count.toNat).mapM fun (k : Nat) => do
    let p ← RandomProblem.ofSeed s.rows s.columns s.density (seed + k)
    return p.document (problemName k) defaultLabel.2

/-- Prints documents of random problems, or writes them to a file. -/
def generateTask (around : Surroundings) (s : Sizes) (seed : Option Int) (out : Option String) :
    Task := do
  let docs ← Action.lift (documents s (seed.getD 0))
  let text := (Value.list docs).document 0
  match out with
  | none => return { lines := (text.splitOn "\n").map .text }
  | some path =>
    match around path with
    | some trouble => throw trouble.fault
    | none => return { file := some (path, text) }

def warmName : String := "warm"

def coldName : String := "cold"

/-- Loads a random problem twice, solves one of the two, and appends the same cuts to both. -/
def prepare (s : Sizes) (cuts seed : Int) : Task := do
  let p ← Action.lift (RandomProblem.ofSeed s.rows s.columns s.density seed)
  let d : Description Float := ⟨problemName seed, .ok .max, p.rows, p.columns, .held p.matrix⟩
  Workbench.load warmName d
  Workbench.load coldName d
  let _ ← solveCold warmName
  let cuts ← Action.lift (RandomProblem.cutsOfSeed s.columns s.density seed cuts.toNat)
  let extend := Instance.addRows (cuts.map (·.row))
    (.ok (cuts.map fun c => .ok c.offered))
  let _ ← Workbench.onInstance warmName extend
  let _ ← Workbench.onInstance coldName extend
  return {}

/-- Reports a solve under the method that was asked for. -/
def compared (seed : Int) (method : SolveMethod)
    (solve : Action (Workbench Float) Float (SolveResult Float)) : Task := do
  let r ← solve
  return { lines := [.solve (problemName seed) method.name r.status.name r.objective r.iterations] }

/-- Compares warm and cold solves of random problems. -/
def benchTasks (around : Surroundings) (highspy : Option (Highspy Float))
    (o : SolveOptions Float) (s : Sizes) (cuts : Int) : List Task :=
  [pure (printed "name,method,status,objective,iterations,time_ms"),
      openTask around highspy o] ++
    (List.range s.count.toNat).flatMap (fun (seed : Nat) =>
      [prepare s cuts seed, compared seed .dual (solveWarm warmName),
        compared seed .primal (solveCold coldName)]) ++
    [closeTask]

def tasks (around : Surroundings) (highspy : Option (Highspy Float)) (settings : Settings) :
    Command → List Task
  | .sample => sampleTasks around highspy settings.options
  | .generate s seed out => [generateTask around s seed out]
  | .bench s cuts => benchTasks around highspy settings.options s cuts

inductive Ending where
  | exit (code : Nat)
  | fault (f : Fault Float)

structure Transcript where
  output : List OutputLine := []
  errors : List String := []
  /-- The lines of the log files. -/
  logs : List (String × List String) := []
  /-- The texts of the other files. -/
  documents : List (String × String) := []
  ending : Ending

/-- A workbench whose log is shown from a level on. -/
def bench (level : Level) : Workbench Float :=
  let w : Workbench Float := .empty none
  { w with log := { w.log with outer := level } }

/-- Runs tasks until one fails. -/
def runTasks (w : Workbench Float) (reports : List Report) :
    List Task → Workbench Float × List Report × Option (Fault Float)
  | [] => (w, reports, none)
  | t :: rest =>
    match w.perform t with
    | (w, .ok r) => runTasks w (reports ++ [r]) rest
    | (w, .error f) => (w, reports, some f)

/-- The lines by which a wrong command line is answered. -/
def misuseLines (usage : List String) (program message : String) : List String :=
  usage ++ [program ++ ": error: " ++ message]

/-- Runs the program with arguments. -/
def run (around : Surroundings) (args : List String)
    (highspy : Option (Highspy Float) := none) : Transcript :=
  match request args with
  | .help lines => { output := lines.map .text, ending := .exit 0 }
  | .misuse usage program message =>
    { errors := misuseLines usage program message, ending := .exit 2 }
  | .run settings command =>
    match levelOf settings.logLevel with
    | .error f => { ending := .fault f }
    | .ok level =>
      let (w, reports, fault) := runTasks (bench level) [] (tasks around highspy settings command)
      { output := reports.flatMap (·.lines)
        errors := w.log.lines
        logs := w.log.files
        documents := reports.filterMap (·.file)
        ending := (fault.map .fault).getD (.exit 0) }

/-- The files that can be written when there is nothing but one directory. -/
def onlyDirectory (directory : String) : Surroundings := fun path =>
  if [directory, ".", "..", "/"].contains path then some .isDirectory
  else
    let parts := path.splitOn "/"
    if parts.length = 1 ∨ "/".intercalate parts.dropLast = directory then none
    else some .noSuchDirectory

end IncrementalLP.Cli
