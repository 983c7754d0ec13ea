import IncrementalLP.Number.Instances
import IncrementalLP.Text.Quoted
/-!
# Loose values

What a caller may hand in where a number, a text or a list is expected, and what documents are
made of. Integers of any size are kept apart from floats. A value has a text for messages and a
written form as an indented document.
-/
namespace IncrementalLP

inductive Value where
  | null
  | bool (b : Bool)
  | int (n : Int)
  | float (x : Float)
  | text (s : String)
  | list (items : List Value)
  | object (fields : List (String × Value))
  deriving Inhabited

namespace Value

/-- The field of an object. -/
def field? (v : Value) (name : String) : Option Value :=
  match v with
  | .object fields => (fields.find? (·.1 == name)).map (·.2)
  | _ => none

def boolText (b : Bool) : String := if b then "True" else "False"

mutual

/-- The text of a value in a message: texts are quoted. -/
def shown : Value → String
  | .null => "None"
  | .bool b => boolText b
  | .int n => toString n
  | .float x => Scalar.text x
  | .text s => Text.quoted s
  | .list items => "[" ++ ", ".intercalate (shownItems items) ++ "]"
  | .object fields => "\x7b" ++ ", ".intercalate (shownFields fields) ++ "\x7d"

def shownItems : List Value → List String
  | [] => []
  | v :: rest => shown v :: shownItems rest

def shownFields : List (String × Value) → List String
  | [] => []
  | (name, v) :: rest => (Text.quoted name ++ ": " ++ shown v) :: shownFields rest

end

/-- The text of a value that is inserted into a message: a text stands for itself. -/
def plain : Value → String
  | .text s => s
  | v => shown v

/-- The text of a float in a document. -/
def documentFloat (x : Float) : String :=
  match Extended.ofScalar x with
  | .finite x => Scalar.text x
  | .posInf => "Infinity"
  | .negInf => "-Infinity"
  | .nan => "NaN"

/-- The start of a line at a depth; each level is two blanks. -/
def indentation (depth : Nat) : String := String.ofList (List.replicate (2 * depth) ' ')

/-- Items between brackets, one a line. -/
def block (opening closing : String) (depth : Nat) (items : List String) : List String :=
  match items with
  | [] => [opening ++ closing]
  | _ => [opening ++ "\n" ++ ",\n".intercalate (items.map (indentation (depth + 1) ++ ·)) ++
      "\n" ++ indentation depth ++ closing]

mutual

/-- A value as an indented document that starts at a depth. -/
def document (depth : Nat) : Value → String
  | .null => "null"
  | .bool b => if b then "true" else "false"
  | .int n => toString n
  | .float x => documentFloat x
  | .text s => Text.documentQuoted s
  | .list items => String.join (block "[" "]" depth (documentItems (depth + 1) items))
  | .object fields =>
    String.join (block "\x7b" "\x7d" depth (documentFields (depth + 1) fields))

def documentItems (depth : Nat) : List Value → List String
  | [] => []
  | v :: rest => document depth v :: documentItems depth rest

def documentFields (depth : Nat) : List (String × Value) → List String
  | [] => []
  | (name, v) :: rest =>
    (Text.documentQuoted name ++ ": " ++ document depth v) :: documentFields depth rest

end

end Value

end IncrementalLP
