import IncrementalLP.Reading.Arrays
import IncrementalLP.Session.Engine
/-!
# Models

Loose values as matrices, stored bases and scripts of answers.
-/
namespace IncrementalLP.Reading

variable {α : Type}

/-- The field of an object; nothing where there is no such field. -/
def part (v : Value) (name : String) : Value := (v.field? name).getD .null

/-- A matrix from a column layout, given field by field. -/
def builtMatrix (v : Value) : Except (Fault Float) (SparseMatrix Float) :=
  SparseMatrix.build (indexArray (part v "column_start")) (indexArray (part v "row_index"))
    (valueArray (part v "coefficient")) (rowCount (part v "num_rows"))

/-- A matrix without entries. -/
def blankMatrix (v : Value) : Except (Fault Float) (SparseMatrix Float) :=
  do SparseMatrix.blank? (← accept (place (part v "rows"))) (← accept (place (part v "columns")))

/-- A matrix from a table. -/
def tableMatrix (v : Value) : Except (Fault Float) (SparseMatrix Float) :=
  SparseMatrix.ofTable? (table (part v "array"))

/-- Compressed columns from coordinates. -/
def coordinates (v : Value) : Offer (Compressed (Extended Float)) := do
  let rows ← indexArray (part v "rows")
  let columns ← indexArray (part v "cols")
  let values ← valueArray (part v "values")
  let shape := (part v "shape")
  match rows, columns, values, shape with
  | .integers is, .integers js, .numbers xs, .list [m, n] =>
    if is.length = xs.length ∧ js.length = xs.length then
      Compressed.ofCoordinates (← place m) (← place n)
        ((is.zip (js.zip xs)).map fun e => (e.1.toInt, e.2.1.toInt, e.2.2))
    else throw .unusable
  | _, _, _, _ => throw .unusable

/-- A label; what is no text is a label of nothing. -/
def label : Value → Label
  | .text s => .ofText s
  | v => .foreign v.shown

def rowLabel : Value → RowLabel
  | .text s => .ofText s
  | v => .foreign v.shown

/-- Signs of artificial columns, under their labels. -/
def signs : Value → Offer (List (Label × Float))
  | .object fields => fields.mapM fun f => do
    return (Label.ofText f.1, (← float f.2).toScalar)
  | .null => return []
  | _ => throw .notIterable

/-- What is stored of a basis; missing parts are empty. -/
def payload (v : Value) : Offer (BasisPayload Float) := do
  let basis ← match part v "basis" with
    | .null => pure []
    | b => items b
  let rows ← match part v "row_labels" with
    | .null => pure []
    | b => items b
  return ⟨basis.map label, rows.map rowLabel, ← signs (part v "artificial_signs")⟩

/-- The basis that comes with a scripted answer. -/
def replyBasis : Value → ReplyBasis
  | .bool true => .ofInstance
  | .list [m, n] => .sized (intOf m).toNat (intOf n).toNat
  | _ => .absent

/-- A scripted answer: a failure, or a result. -/
def reply (v : Value) : Reply Float :=
  match v.field? "fail" with
  | some report => .failure report.plain
  | none =>
    match result v with
    | .ok (r, method) => .result r method (replyBasis (part v "handle"))
    | .refused problems => .malformed problems

/-- An engine with a script. -/
def scripted (v : Value) : Engine Float :=
  let script := match part v "script" with
    | .list replies => replies.map reply
    | _ => []
  .replay { name := (part v "name").plain, script := script }

/-- A lookup by a key that need not be of the right sort. -/
def nameKey : Value → Except (Fault α) String
  | .text s => .ok s
  | .list _ | .object _ => .error (.misread .notAPosition)
  | _ => .error .unknownName

def ordinalKey (v : Value) : Except (Fault α) Int := accept (place v)

end IncrementalLP.Reading
