import IncrementalLP.Reading.Validated
import IncrementalLP.Number.Texts
import IncrementalLP.Problem.Solve
import IncrementalLP.Text.Path
import IncrementalLP.Value
/-!
# Records

The descriptions of rows, columns, matrices, options and results are read from loose values, and
written back. Reading is lax where no doubt is possible: numbers may come as texts or truth values,
whole numbers as floats, truth values as certain texts. Fields that are not known are skipped.
-/
namespace IncrementalLP

/-- A matrix as plain lists: where each column starts, the row of each entry, its value. -/
structure ColumnLayout where
  starts : List Int
  rows : List Int
  values : List (Extended Float)
  numRows : Option Int

namespace Reading

open Validated

/-- The float nearest to an integer, if the integer is not beyond every float. -/
def floatOfInt? (n : Int) : Option (Extended Float) :=
  match Extended.ofScalar (Scalar.nearest (n : Rat) : Float) with
  | .finite x => some (.finite x)
  | _ => none

def number : Value → Validated (Extended Float)
  | .float x => .ok (.ofScalar x)
  | .int n => ((floatOfInt? n).map .ok).getD (refuse .notANumber)
  | .bool b => .ok (.finite (if b then 1 else 0))
  | .text s => ((NumberText.laxNumber? s).map .ok).getD (refuse .unreadableNumber)
  | _ => refuse .notANumber

/-- The integer that a float is, within words of 64 bits. -/
def wholeFloat (x : Float) : Validated Int :=
  match Scalar.toRat? x with
  | none => refuse .notFiniteNumber
  | some q =>
    if q.den ≠ 1 then refuse .fractional
    else if Int64.minValue.toInt < q.num ∧ q.num ≤ Int64.maxValue.toInt then .ok q.num
    else refuse .integerTooLarge

/-- Texts with more digits than this are not read as integers. -/
def maxDigits : Nat := 4300

def integer : Value → Validated Int
  | .int n => .ok n
  | .bool b => .ok (if b then 1 else 0)
  | .float x => wholeFloat x
  | .text s =>
    if maxDigits < s.length then refuse .integerTooLarge
    else ((NumberText.laxInteger? s).map .ok).getD (refuse .unreadableInteger)
  | _ => refuse .notAnInteger

def truthOfInt (n : Int) : Validated Bool :=
  if n = 0 then .ok false else if n = 1 then .ok true else refuse .unreadableBool

def truth : Value → Validated Bool
  | .bool b => .ok b
  | .int n =>
    if Int64.minValue.toInt ≤ n ∧ n ≤ Int64.maxValue.toInt then truthOfInt n else refuse .notABool
  | .float x =>
    match wholeFloat x with
    | .ok n => truthOfInt n
    | .refused _ => refuse .notABool
  | .text s =>
    let w := String.ofList (Text.lower s.toList)
    if ["0", "off", "f", "false", "n", "no"].contains w then .ok false
    else if ["1", "on", "t", "true", "y", "yes"].contains w then .ok true
    else refuse .unreadableBool
  | _ => refuse .notABool

def text : Value → Validated String
  | .text s => .ok s
  | _ => refuse .notAText

def path : Value → Validated String
  | .text s => .ok (Text.normalPath s)
  | _ => refuse .notAPath

/-- One of some words. -/
def choice {β : Type} (words : List String) (ofName? : String → Option β) : Value → Validated β
  | .text s => ((ofName? s).map .ok).getD (refuse (.notAmong words))
  | _ => refuse (.notAmong words)

/-- A value that may be left out by writing nothing in its place. -/
def optional {β : Type} (read : Value → Validated β) : Value → Validated (Option β)
  | .null => .ok none
  | v => (read v).map some

def list {β : Type} (read : Value → Validated β) : Value → Validated (List β)
  | .list items => all (items.zipIdx.map fun (v, k) => (read v).within (toString k))
  | _ => refuse .notAList

/-- A field that must be there. -/
def required {β : Type} (v : Value) (name : String) (read : Value → Validated β) : Validated β :=
  match v.field? name with
  | some x => (read x).within name
  | none => (refuse .missing).within name

/-- A field that has a default. -/
def field {β : Type} (v : Value) (name : String) (read : Value → Validated β) (default : β) :
    Validated β :=
  match v.field? name with
  | some x => (read x).within name
  | none => .ok default

/-- A record of a type, from a value that is an object. -/
def record {β : Type} (type : String) (read : Value → Validated β) (v : Value) : Validated β :=
  match v with
  | .object _ => read v
  | _ => refuse (.notARecord type)

/-- The sense of a row by its symbol; the width is settled later. -/
def senseOfSymbol? (s : String) : Option (RowSense Float) :=
  [.atMost, .atLeast, .equal, .range (.finite 0)].find? (·.symbol == s)

def senseSymbols : List String := ["<=", ">=", "==", "range"]

/-- A row from its parts. A range row has a width that is not negative, other rows have none. -/
def rowOf (sense : RowSense Float) (rhs : Extended Float) (width : Option (Extended Float))
    (name : Option String) : Validated (Row Float) :=
  match sense, width with
  | .range _, none => refuse .rangeWithoutWidth
  | .range _, some w =>
    if w.isNan || w.less (.finite 0) then refuse (.badWidth w.text)
    else .ok ⟨.range w, rhs, name⟩
  | s, none => .ok ⟨s, rhs, name⟩
  | s, some _ => refuse (.widthWithoutRange s.symbol)

def row : Value → Validated (Row Float) := record "Row" fun v =>
  ((fun s b w n => (s, b, w, n)) <$> required v "sense" (choice senseSymbols senseOfSymbol?)
    <*> required v "rhs" number
    <*> field v "range_value" (optional number) none
    <*> field v "name" (optional text) none).andThen fun (s, b, w, n) => rowOf s b w n

def column : Value → Validated (Column Float) := record "Column" fun v =>
  Column.mk <$> field v "objective" number (.finite 0)
    <*> field v "lb" number (.finite 0)
    <*> field v "ub" number .posInf
    <*> field v "name" (optional text) none

def layout : Value → Validated ColumnLayout := record "MatrixData" fun v =>
  ColumnLayout.mk <$> required v "column_start" (list integer)
    <*> field v "row_index" (list integer) []
    <*> field v "coefficient" (list number) []
    <*> field v "num_rows" (optional integer) none

def ruleOfName? (s : String) : Option PivotRule := [.dantzig, .bland].find? (·.name == s)

def options : Value → Validated (SolveOptions Float) := record "SolveOptions" fun v =>
  let d : SolveOptions Float := .standard
  (fun k t r w l e f => ⟨k, t.toScalar, r, w, l.map (·.toScalar), e, f, d.clock⟩)
    <$> field v "max_iters" integer d.maxIterations
    <*> field v "tol" number (.finite d.tolerance)
    <*> field v "pivot_rule" (choice ["dantzig", "bland"] ruleOfName?) d.rule
    <*> field v "return_duals" truth d.wantDuals
    <*> field v "time_limit" (optional number) none
    <*> field v "engine" (choice ["simplex", "highs"] EngineChoice.ofName?) d.engine
    <*> field v "log_file" (optional path) none

def statusNames : List String := ["optimal", "infeasible", "unbounded", "unfinished"]

/-- A result without a basis, and the method if it is given. -/
def result : Value → Validated (SolveResult Float × Option SolveMethod) :=
  record "SolveResult" fun v =>
    (fun s o x d k m t =>
        (({ status := s
            objective := o.map (·.toScalar)
            x := x.map (·.map (·.toScalar))
            duals := d.map (·.map (·.toScalar))
            iterations := k
            method := m.getD .primal
            message := t } : SolveResult Float), m))
      <$> required v "status" (choice statusNames SolveStatus.ofName?)
      <*> field v "objective_value" (optional number) none
      <*> field v "x" (optional (list number)) none
      <*> field v "duals" (optional (list number)) none
      <*> field v "iterations" integer 0
      <*> field v "method"
        (fun m => (choice ["primal", "dual"] SolveMethod.ofName? m).map some) none
      <*> field v "message" text ""

end Reading

/-- A number as a value. -/
def Extended.toValue (x : Extended Float) : Value := .float x.toScalar

/-- An optional text as a value. -/
def Value.ofName (name : Option String) : Value := (name.map .text).getD .null

def Row.toValue (r : Row Float) : Value :=
  .object [("sense", .text r.sense.symbol), ("rhs", r.rhs.toValue),
    ("range_value", (r.sense.width?.map (·.toValue)).getD .null), ("name", .ofName r.name)]

def Column.toValue (c : Column Float) : Value :=
  .object [("objective", c.objective.toValue), ("lb", c.lower.toValue), ("ub", c.upper.toValue),
    ("name", .ofName c.name)]

def ColumnLayout.toValue (d : ColumnLayout) : Value :=
  .object [("column_start", .list (d.starts.map .int)), ("row_index", .list (d.rows.map .int)),
    ("coefficient", .list (d.values.map (·.toValue))),
    ("num_rows", (d.numRows.map .int).getD .null)]

def SolveOptions.toValue (o : SolveOptions Float) : Value :=
  .object [("max_iters", .int o.maxIterations), ("tol", .float o.tolerance),
    ("pivot_rule", .text o.rule.name), ("return_duals", .bool o.wantDuals),
    ("time_limit", (o.timeLimit.map .float).getD .null), ("engine", .text o.engine.name),
    ("log_file", .ofName o.logFile)]

end IncrementalLP
