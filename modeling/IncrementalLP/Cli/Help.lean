import IncrementalLP.Cli.Arguments
/-!
# Help

The usage of a command line and the description of its options, laid out in lines of at most 78
characters. Descriptions stand in a column of their own, which starts two blanks after the longest
title but never after the 24th place.
-/
namespace IncrementalLP.Cli

/-- The number of characters of a line. -/
def lineWidth : Nat := 78

/-- The last place where descriptions may start. -/
def lastColumn : Nat := 24

def blanks (n : Nat) : String := String.ofList (List.replicate n ' ')

/-- A text filled with blanks to a width. -/
def padded (width : Nat) (s : String) : String := s ++ blanks (width - s.length)

/-- Words joined by blanks into lines of a width, starting with some words that are in a line
already. -/
def fillFrom (width : Nat) (line : String) : List String → List String
  | [] => [line]
  | w :: rest =>
    if line.length + 1 + w.length ≤ width then fillFrom width (line ++ " " ++ w) rest
    else line :: fillFrom width w rest

def fill (width : Nat) : List String → List String
  | [] => []
  | w :: rest => fillFrom width w rest

/-- The place of the value in the description of an option. -/
def placeholder (o : OptionSpec) : Option String :=
  o.sort.map fun sort => match sort with
    | .choice words => "\x7b" ++ ",".intercalate words ++ "\x7d"
    | _ =>
      let name := (o.key.toList.dropWhile (· == '-')).map fun c => if c = '-' then '_' else c.toUpper
      String.ofList name

def withPlaceholder (o : OptionSpec) (name : String) : String :=
  match placeholder o with
  | some p => name ++ " " ++ p
  | none => name

/-- The title under which an option is described. -/
def describedTitle (o : OptionSpec) : String :=
  ", ".intercalate (o.names.map (withPlaceholder o))

/-- An option as the usage shows it. -/
def usagePart (o : OptionSpec) : String := "[" ++ withPlaceholder o o.key ++ "]"

/-- The names of commands in braces. -/
def commandNames (commands : List CommandSpec) : String :=
  "\x7b" ++ ",".intercalate (commands.map (·.name)) ++ "\x7d"

/-- The usage of a program; parts that do not fit are put under the first part. -/
def usage (program : String) (options : List OptionSpec) (commands : List CommandSpec) :
    List String :=
  let start := "usage: " ++ program
  let parts := options.map usagePart
  let positional := if commands.isEmpty then [] else [commandNames commands, "..."]
  let whole := " ".intercalate (start :: parts ++ positional)
  if whole.length ≤ lineWidth then [whole]
  else
    let indent := blanks (start.length + 1)
    let lines := fun first parts =>
      match fill (lineWidth - indent.length) parts with
      | [] => [first]
      | l :: rest => (first ++ l) :: rest.map (indent ++ ·)
    lines (start ++ " ") parts ++ (if positional.isEmpty then [] else lines indent positional)

/-- A title with its description, at an indentation, with descriptions from a column on. -/
def entry (column indent : Nat) (title help : String) : List String :=
  let width := column - indent - 2
  if help.isEmpty then [blanks indent ++ title]
  else
    match fill (lineWidth - column) (help.splitOn " ") with
    | [] => [blanks indent ++ title]
    | first :: rest =>
      let others := rest.map (blanks column ++ ·)
      if title.length ≤ width then (blanks indent ++ padded width title ++ "  " ++ first) :: others
      else (blanks indent ++ title) :: (blanks column ++ first) :: others

/-- The help of a program. -/
def helpLines (program description : String) (options : List OptionSpec)
    (commands : List CommandSpec) : List String :=
  let titles := options.map fun o => (describedTitle o).length + 2
  let names := commands.map fun c => c.name.length + 4
  let all := if commands.isEmpty then titles
    else titles ++ names ++ [(commandNames commands).length + 2]
  let column := min (all.foldl max 0 + 2) lastColumn
  let about := if description.isEmpty then [] else "" :: fill lineWidth (description.splitOn " ")
  let commandLines := if commands.isEmpty then []
    else ["", "positional arguments:", "  " ++ commandNames commands] ++
      commands.flatMap fun c => entry column 4 c.name c.help
  usage program options commands ++ about ++ commandLines ++ ["", "options:"] ++
    options.flatMap fun o => entry column 2 (describedTitle o) o.help

end IncrementalLP.Cli
