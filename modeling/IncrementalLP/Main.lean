import IncrementalLP.Cli.Program
/-!
# The command line

The program as it is run: it asks the file system which of its files can be written, and prints and
writes what a run leaves behind.
-/
namespace IncrementalLP.Cli

/-- The paths of the files that a request writes. -/
def Request.paths : Request → List String
  | .run _ (.generate _ _ out) => out.toList
  | .run settings _ => settings.options.logFile.toList
  | _ => []

/-- Can a file be opened in a mode? -/
def canOpen (path : String) (mode : IO.FS.Mode) : IO (Except IO.Error Unit) := do
  try
    let _ ← IO.FS.Handle.mk path mode
    return .ok ()
  catch e => return .error e

/-- What keeps a file from being written, if anything. A file that this creates is removed. -/
def troubleWith (path : String) : IO (Option FileTrouble) := do
  let before ← canOpen path .read
  match ← canOpen path .append with
  | .ok () =>
    if before matches .error _ then IO.FS.removeFile path
    return none
  | .error (.noFileOrDirectory ..) => return some .noSuchDirectory
  | .error _ => return some .isDirectory

/-- What the file system says of some paths. -/
def surroundingsOf (paths : List String) : IO Surroundings := do
  let troubles ← paths.mapM fun path => do return (path, ← troubleWith path)
  return fun path => ((troubles.find? (·.1 == path)).map (·.2)).join

/-- A line as it is printed; a solve is followed by the milliseconds it took, which are not
measured. -/
def OutputLine.shown : OutputLine → String
  | .text s => s
  | .solve name method status objective iterations =>
    ",".intercalate [name, method, status, objectiveText objective, toString iterations, "0.00"]

def Transcript.play (t : Transcript) : IO UInt32 := do
  for (path, lines) in t.logs do
    IO.FS.writeFile path (String.join (lines.map (· ++ "\n")))
  for (path, text) in t.documents do
    IO.FS.writeFile path text
  for line in t.output do
    IO.println line.shown
  for line in t.errors do
    IO.eprintln line
  match t.ending with
  | .exit code => return UInt32.ofNat code
  | .fault f =>
    IO.eprintln (f.message?.getD "The command failed.")
    return 1

end IncrementalLP.Cli

def main (args : List String) : IO UInt32 := do
  let around ← IncrementalLP.Cli.surroundingsOf (IncrementalLP.Cli.request args).paths
  (IncrementalLP.Cli.run around args).play
