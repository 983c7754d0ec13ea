import IncrementalLP.Number.Instances
import IncrementalLP.Number.Texts
import IncrementalLP.Text.Path
import IncrementalLP.Text.Quoted
/-!
# Arguments

The arguments of a command line are options, each with at most one value, and a command whose own
arguments follow it. Names of options may be shortened as long as no doubt remains, and a value may
be joined to its option by an equals sign. What a reader of the command line gets wrong is told in
one sentence.
-/
namespace IncrementalLP.Cli

/-- What the value of an option is read as. -/
inductive ValueSort where
  | word
  | path
  | integer
  | decimal
  | choice (words : List String)

/-- A value that was read. -/
inductive OptionValue where
  | word (s : String)
  | integer (n : Int)
  | decimal (x : Extended Float)

structure OptionSpec where
  names : List String
  /-- The sort of the value; an option without a value asks for help. -/
  sort : Option ValueSort
  help : String := ""

structure CommandSpec where
  name : String
  help : String
  options : List OptionSpec

/-- Values under the first names of their options; of several the first counts. -/
abbrev Values := List (String × OptionValue)

/-- Why reading ends early. -/
inductive Stop where
  | help
  | misuse (message : String)

/-- A command line as it was read: the values of the options, what was not recognized, and the
command with what follows it. -/
structure Parsed where
  values : Values := []
  unknown : List String := []
  command : Option (List String) := none

namespace OptionSpec

/-- The name under which the value of an option is kept. -/
def key (o : OptionSpec) : String := o.names.headD ""

def title (o : OptionSpec) : String := "/".intercalate o.names

/-- A sentence about an option. -/
def complaint (o : OptionSpec) (text : String) : Stop :=
  .misuse ("argument " ++ o.title ++ ": " ++ text)

end OptionSpec

/-- Every command line has an option that asks for help. -/
def helpOption : OptionSpec := ⟨["-h", "--help"], none, "show this help message and exit"⟩

inductive Mark where
  | positional
  /-- Two dashes, after which all arguments are positional. -/
  | separator
  /-- An option by the name that was meant, with the value that was joined to it. -/
  | option (spec : OptionSpec) (name : String) (joined : Option String)
  /-- Something that looks like an option and is none. -/
  | unknown

/-- All names of options, in order. -/
def optionNames (options : List OptionSpec) : List (String × OptionSpec) :=
  options.flatMap fun o => o.names.map fun n => (n, o)

def startsWith (start s : List Char) : Bool := start.isPrefixOf s

/-- A text before and after its first equals sign. -/
def splitEquals (s : List Char) : List Char × Option (List Char) :=
  match s.dropWhile (· != '=') with
  | [] => (s, none)
  | _ :: after => (s.takeWhile (· != '='), some after)

/-- The options that a shortened name may mean. -/
def meant (options : List OptionSpec) (arg : List Char) : List (String × Mark) :=
  (optionNames options).filterMap fun (name, spec) =>
    match arg with
    | '-' :: '-' :: _ =>
      let (short, value) := splitEquals arg
      if startsWith short name.toList then
        some (name, .option spec name (value.map String.ofList))
      else none
    | _ =>
      if name.toList = arg.take 2 then
        some (name, .option spec name (some (String.ofList (arg.drop 2))))
      else if startsWith arg name.toList then some (name, .option spec name none)
      else none

/-- Digits after a minus sign, with at most one point among them that is not the last. -/
def isNegativeNumber (arg : List Char) : Bool :=
  match arg with
  | '-' :: body =>
    let digit := fun c => (Text.digit? c).isSome
    match body.dropWhile digit with
    | [] => !body.isEmpty
    | '.' :: after => !after.isEmpty && after.all digit
    | _ => false
  | _ => false

/-- What an argument is by itself. -/
def markOf (options : List OptionSpec) (arg : String) : Except Stop Mark :=
  let cs := arg.toList
  match cs with
  | '-' :: _ :: _ =>
    match (optionNames options).find? (·.1 == arg) with
    | some (name, spec) => .ok (.option spec name none)
    | none =>
      let (front, value) := splitEquals cs
      match value, (optionNames options).find? (·.1.toList == front) with
      | some v, some (name, spec) => .ok (.option spec name (some (String.ofList v)))
      | _, _ =>
        match meant options cs with
        | [] =>
          if isNegativeNumber cs || cs.contains ' ' then .ok .positional else .ok .unknown
        | [(_, mark)] => .ok mark
        | several =>
          .error (.misuse ("ambiguous option: " ++ arg ++ " could match " ++
            ", ".intercalate (several.map (·.1))))
  | _ => .ok .positional

/-- All arguments with their marks. -/
def marked (options : List OptionSpec) : List String → Except Stop (List (String × Mark))
  | [] => .ok []
  | arg :: rest =>
    if arg = "--" then .ok ((arg, .separator) :: rest.map fun a => (a, .positional))
    else do
      let mark ← markOf options arg
      return (arg, mark) :: (← marked options rest)

/-- The words of a choice, as a sentence lists them. -/
def choiceText (words : List String) : String := ", ".intercalate (words.map Text.quoted)

def wrongChoice (given : String) (words : List String) : String :=
  "invalid choice: " ++ Text.quoted given ++ " (choose from " ++ choiceText words ++ ")"

/-- The value of an option. -/
def readValue (o : OptionSpec) (sort : ValueSort) (given : String) : Except Stop OptionValue :=
  match sort with
  | .word => .ok (.word given)
  | .path => .ok (.word (Text.normalPath given))
  | .integer =>
    match NumberText.integer? given with
    | some n => .ok (.integer n)
    | none => .error (o.complaint ("invalid int value: " ++ Text.quoted given))
  | .decimal =>
    match NumberText.number? given with
    | some x => .ok (.decimal x)
    | none => .error (o.complaint ("invalid float value: " ++ Text.quoted given))
  | .choice words =>
    if words.contains given then .ok (.word given)
    else .error (o.complaint (wrongChoice given words))

/-- Letters joined to an option without a value have to be such options too. -/
def readJoined (options : List OptionSpec) (o : OptionSpec) (name : String) :
    List Char → Stop
  | [] => .help
  | cs@(c :: rest) =>
    let refused := o.complaint ("ignored explicit argument " ++ Text.quoted (String.ofList cs))
    if name.toList.take 2 = ['-', '-'] then refused
    else
      match (optionNames options).find? (·.1.toList == ['-', c]) with
      | some (next, spec) => readJoined options spec next rest
      | none => refused

/-- Does a command follow here? Two dashes may stand before it. -/
def commandHere : List (String × Mark) → Bool
  | (_, .positional) :: _ => true
  | (_, .separator) :: (_, .positional) :: _ => true
  | _ => false

/-- Reads marked arguments. -/
def readMarked (options : List OptionSpec) (takesCommand : Bool) (p : Parsed) :
    List (String × Mark) → Except Stop Parsed
  | [] => .ok p
  | (_, .option spec name joined) :: rest =>
    match spec.sort, joined with
    | none, none => .error .help
    | none, some value =>
      if value.isEmpty then .error (spec.complaint "ignored explicit argument ''")
      else .error (readJoined options spec name value.toList)
    | some sort, some value => do
      let v ← readValue spec sort value
      readMarked options takesCommand { p with values := (spec.key, v) :: p.values } rest
    | some sort, none =>
      match rest with
      | (value, .positional) :: rest => do
        let v ← readValue spec sort value
        readMarked options takesCommand { p with values := (spec.key, v) :: p.values } rest
      | _ => .error (spec.complaint "expected one argument")
  | (arg, .unknown) :: rest =>
    readMarked options takesCommand { p with unknown := p.unknown ++ [arg] } rest
  | (arg, mark) :: rest =>
    if takesCommand && commandHere ((arg, mark) :: rest) then
      .ok { p with command := some (arg :: rest.map (·.1)) }
    else readMarked options takesCommand { p with unknown := p.unknown ++ [arg] } rest

/-- Reads a command line. -/
def parse (options : List OptionSpec) (takesCommand : Bool) (args : List String) :
    Except Stop Parsed := do
  readMarked options takesCommand {} (← marked options args)

def value? (vs : Values) (name : String) : Option OptionValue :=
  (vs.find? fun v => v.1 == name).map fun v => v.2

/-- The integer under a name, if it was given. -/
def integer? (vs : Values) (name : String) : Option Int :=
  match value? vs name with
  | some (.integer n) => some n
  | _ => none

def decimal? (vs : Values) (name : String) : Option (Extended Float) :=
  match value? vs name with
  | some (.decimal x) => some x
  | _ => none

def word? (vs : Values) (name : String) : Option String :=
  match value? vs name with
  | some (.word s) => some s
  | _ => none

end IncrementalLP.Cli
