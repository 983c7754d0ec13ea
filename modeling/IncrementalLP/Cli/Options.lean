import IncrementalLP.Cli.Help
import IncrementalLP.Problem.Solve
import IncrementalLP.Event
import IncrementalLP.Fault
/-!
# Options

The commands of the program and their options, and the settings that a command line stands for.
-/
namespace IncrementalLP.Cli

def programName : String := "lpdriver"

def programAbout : String := "Sparse LP loading and incremental re-solves."

/-- The options that stand before the command. -/
def mainOptions : List OptionSpec :=
  [helpOption,
   ⟨["--engine"], some (.choice ["simplex", "highs"]), ""⟩,
   ⟨["--log-level"], some .word, "Console log level"⟩,
   ⟨["--log-file"], some .path, "Write solver messages to this file"⟩,
   ⟨["--max-iters"], some .integer, ""⟩,
   ⟨["--time-limit"], some .decimal, "Seconds per solve"⟩]

def exampleCommand : CommandSpec :=
  ⟨"example", "Solve the loadlp example, add a row and re-solve warm", [helpOption]⟩

def generateCommand : CommandSpec :=
  ⟨"generate", "Generate random feasible LP instances as JSON",
    [helpOption,
     ⟨["--rows"], some .integer, "Number of constraints"⟩,
     ⟨["--columns"], some .integer, "Number of variables"⟩,
     ⟨["--density"], some .decimal, ""⟩,
     ⟨["--seed"], some .integer, "Random seed"⟩,
     ⟨["--count"], some .integer, "Number of instances"⟩,
     ⟨["--out"], some .path, "Optional output file"⟩]⟩

def benchCommand : CommandSpec :=
  ⟨"bench", "Compare warm dual and cold primal re-solves",
    [helpOption,
     ⟨["--rows"], some .integer, ""⟩,
     ⟨["--columns"], some .integer, ""⟩,
     ⟨["--density"], some .decimal, ""⟩,
     ⟨["--cuts"], some .integer, "Rows appended before re-solving"⟩,
     ⟨["--count"], some .integer, "Number of random instances"⟩]⟩

def commands : List CommandSpec := [exampleCommand, generateCommand, benchCommand]

/-- The settings that hold for every command. -/
structure Settings where
  logLevel : String
  options : SolveOptions Float

/-- The sizes of random problems. -/
structure Sizes where
  rows : Int
  columns : Int
  density : Float
  count : Int

inductive Command where
  | sample
  | generate (sizes : Sizes) (seed : Option Int) (out : Option String)
  | bench (sizes : Sizes) (cuts : Int)

def settings (vs : Values) : Settings where
  logLevel := (word? vs "--log-level").getD "WARNING"
  options :=
    { SolveOptions.standard with
      engine := ((word? vs "--engine").bind EngineChoice.ofName?).getD .simplex
      logFile := word? vs "--log-file"
      maxIterations := (integer? vs "--max-iters").getD 10000
      timeLimit := (decimal? vs "--time-limit").map (·.toScalar) }

/-- Sizes with defaults. -/
def sizes (vs : Values) (rows columns : Int) (density : Float) (count : Int) : Sizes where
  rows := (integer? vs "--rows").getD rows
  columns := (integer? vs "--columns").getD columns
  density := ((decimal? vs "--density").map (·.toScalar)).getD density
  count := (integer? vs "--count").getD count

def commandOf (name : String) (vs : Values) : Command :=
  if name = "generate" then
    .generate (sizes vs 3 3 0.5 1) (integer? vs "--seed") (word? vs "--out")
  else if name = "bench" then .bench (sizes vs 20 20 0.4 3) ((integer? vs "--cuts").getD 3)
  else .sample

/-- What a command line asks for: help, an error with a usage, or a command. -/
inductive Request where
  | help (lines : List String)
  | misuse (usage : List String) (program message : String)
  | run (settings : Settings) (command : Command)

/-- The end of reading the arguments of a program. -/
def stopped (program about : String) (options : List OptionSpec) (commands : List CommandSpec) :
    Stop → Request
  | .help => .help (helpLines program about options commands)
  | .misuse message => .misuse (usage program options commands) program message

def mainMisuse (message : String) : Request :=
  stopped programName programAbout mainOptions commands (.misuse message)

/-- Reads a command line. What is not recognized is told at the end. -/
def request (args : List String) : Request :=
  match parse mainOptions true args with
  | .error stop => stopped programName programAbout mainOptions commands stop
  | .ok p =>
    match p.command with
    | none | some [] => mainMisuse "the following arguments are required: command"
    | some (name :: rest) =>
      match commands.find? (·.name == name) with
      | none =>
        mainMisuse ("argument command: " ++ wrongChoice name (commands.map (·.name)))
      | some c =>
        match parse c.options false rest with
        | .error stop => stopped (programName ++ " " ++ name) "" c.options [] stop
        | .ok q =>
          match p.unknown ++ q.unknown with
          | [] => .run (settings p.values) (commandOf name q.values)
          | unknown => mainMisuse ("unrecognized arguments: " ++ " ".intercalate unknown)

/-- The level of a name in capital letters. -/
def levelOf {α : Type} (name : String) : Except (Fault α) Level :=
  let upper := String.ofList (name.toList.map Char.toUpper)
  match Level.ofName? upper with
  | some l => .ok l
  | none => .error (.unknownLevel (Text.quoted upper))

end IncrementalLP.Cli
