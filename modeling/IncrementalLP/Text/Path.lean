/-!
# Paths

File paths in a normal form: parts between single slashes, without empty parts and without parts
that stand for the same place. A path that starts with exactly two slashes keeps them.
-/
namespace IncrementalLP.Text

/-- The slashes in front of a path. -/
def pathRoot (s : List Char) : String :=
  match s with
  | '/' :: '/' :: '/' :: _ => "/"
  | '/' :: '/' :: _ => "//"
  | '/' :: _ => "/"
  | _ => ""

/-- The parts of a path. -/
def pathParts (path : String) : List String :=
  (path.splitOn "/").filter fun part => part != "" && part != "."

/-- The normal form of a path. The place itself is a single point. -/
def normalPath (path : String) : String :=
  let text := pathRoot path.toList ++ "/".intercalate (pathParts path)
  if text.isEmpty then "." else text

end IncrementalLP.Text
