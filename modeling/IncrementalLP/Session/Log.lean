import IncrementalLP.Fault
import IncrementalLP.Event
/-!
# The log

Events are recorded if their level reaches that of the log. The log may have a level of its own;
otherwise that of its surroundings counts. A log file receives what is recorded while it is
attached, and attaching one makes sure that informative events are recorded. The level that was
found then is put back when the file is detached.
-/
namespace IncrementalLP

/-- Why a file cannot be written. -/
inductive FileTrouble where
  | noSuchDirectory
  | isDirectory
  deriving Repr, DecidableEq

def FileTrouble.fault {α : Type} : FileTrouble → Fault α
  | .noSuchDirectory => .noSuchFile
  | .isDirectory => .isDirectory

/-- What can be said beforehand of the files that could be written. -/
abbrev Surroundings := String → Option FileTrouble

/-- A file that is attached to the log. -/
structure Attachment where
  id : Nat
  path : String
  /-- The level that the log had before. -/
  previous : Level
  deriving Repr, DecidableEq

structure Log where
  /-- The level of the surroundings. -/
  outer : Level
  /-- The level of the log itself. -/
  level : Level
  /-- The attached files. -/
  attached : List Attachment
  /-- The contents of all files that have been attached. -/
  files : List (String × List String)
  /-- The recorded lines. -/
  lines : List String
  next : Nat

namespace Log

/-- A log without files, with a level of its own or without one. -/
def quiet (level : Option Level) : Log := ⟨.warning, level.getD .unset, [], [], [], 0⟩

/-- The level that counts. -/
def effective (l : Log) : Level := if l.level = .unset then l.outer else l.level

/-- A file with more lines, if it is one of some paths. -/
def appendTo (paths : List String) (lines : List String) (file : String × List String) :
    String × List String :=
  if paths.contains file.1 then (file.1, file.2 ++ lines) else file

/-- Records events. -/
def record {α : Type} [Scalar α] (l : Log) (events : List (Event α)) : Log :=
  let lines := (events.filter fun e => decide (l.effective.rank ≤ e.level.rank)).map (·.line)
  { l with
    files := l.files.map (appendTo (l.attached.map (·.path)) lines)
    lines := l.lines ++ lines }

/-- A file that starts empty. -/
def createFile (files : List (String × List String)) (path : String) :
    List (String × List String) :=
  files.filter (·.1 != path) ++ [(path, [])]

/-- Attaches a file and lowers the level to informative events. -/
def attach (l : Log) (path : String) : Log × Attachment :=
  let a : Attachment := ⟨l.next, path, l.level⟩
  ({ l with
      level := if Level.info.rank < l.effective.rank then .info else l.level
      attached := l.attached ++ [a]
      files := createFile l.files path
      next := l.next + 1 }, a)

/-- Detaches a file and puts the level back that was found when it was attached. -/
def detach (l : Log) (a : Attachment) : Log :=
  { l with level := a.previous, attached := l.attached.filter (·.id != a.id) }

/-- Attaches the file that is asked for, if any. -/
def attach? {α : Type} (l : Log) (around : Surroundings) :
    Option String → Except (Fault α) (Log × Option Attachment)
  | none => .ok (l, none)
  | some path =>
    match around path with
    | some trouble => .error trouble.fault
    | none =>
      let (l, a) := l.attach path
      .ok (l, some a)

/-- Detaches what was attached, if anything. -/
def detach? (l : Log) : Option Attachment → Log
  | none => l
  | some a => l.detach a

end Log

end IncrementalLP
