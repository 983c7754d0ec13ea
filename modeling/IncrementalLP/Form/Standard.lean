import IncrementalLP.Instance.Basic
import IncrementalLP.Dense.Basic
/-!
# The standard form

An instance as the problem to maximise `c x` over `A x = b`, `x ≥ 0`. Variables are shifted to a
finite bound, reflected where only the upper bound is finite, and split in two where neither is.
Rows get a slack, range rows are written twice, and finite intervals get a row of their own. Free
rows vanish. All rows and columns of the form are known by their labels, and the entries of a
column are a function of the row label, so that a form which is built after rows were appended
extends the earlier one.
-/
namespace IncrementalLP

variable {α : Type}

/-- A column of the form that stands for a variable: `factor` times its value is added to the
variable. -/
structure Structural (α : Type) where
  label : Label
  column : Nat
  factor : α

structure FormColumn (α : Type) where
  label : Label
  cost : α
  entry : RowLabel → α

/-- A row of the form. Its natural column may start basic in it: the slack where there is one, and
the artificial otherwise. Where there is a slack, an artificial may come on top. -/
structure FormRow (α : Type) where
  label : RowLabel
  rhs : α
  natural : FormColumn α
  extra : Option (FormColumn α)

/-- The columns that belong to a row. -/
def FormRow.columns (r : FormRow α) : List (FormColumn α) := r.natural :: r.extra.toList

/-- The column that starts basic in a row of a cold form. -/
def FormRow.start (r : FormRow α) : FormColumn α := r.extra.getD r.natural

structure StandardForm (α : Type) where
  structurals : List (Structural α)
  structuralColumns : List (FormColumn α)
  /-- Where each variable is when its structural columns are zero. -/
  offsets : List α
  rows : List (FormRow α)
  /-- The signs of the artificial columns. -/
  signs : List (Label × α)
  /-- The number of rows of the instance. -/
  numRows : Nat
  /-- The objective at the offsets. -/
  constant : α

namespace StandardForm

def columns (f : StandardForm α) : List (FormColumn α) :=
  f.structuralColumns ++ f.rows.flatMap FormRow.columns

def labels (f : StandardForm α) : List Label := f.columns.map (·.label)

def rowLabels (f : StandardForm α) : List RowLabel := f.rows.map (·.label)

/-- The places of the structural columns of a variable, with their factors. -/
def components (f : StandardForm α) (j : Nat) : List (Nat × α) :=
  (f.structurals.zipIdx.filter fun s => s.1.column == j).map fun s => (s.2, s.1.factor)

/-- The places of the rows that stem from a row of the instance. -/
def slots (f : StandardForm α) (i : Nat) : List Nat :=
  (f.rows.zipIdx.filter fun r => r.1.label == .row i || r.1.label == .rowLow i).map (·.2)

/-- The places of the artificial columns. -/
def artificials (f : StandardForm α) : List Nat :=
  (f.columns.zipIdx.filter fun c => c.1.label.isArtificial).map (·.2)

end StandardForm

variable [Scalar α]

/-- The structural columns of a variable. -/
def Column.structurals (j : Nat) (c : Column α) : List (Structural α) :=
  match c.lower.finite?, c.upper.finite? with
  | some _, _ => [⟨.var j, j, 1⟩]
  | none, some _ => [⟨.var j, j, -1⟩]
  | none, none => [⟨.varPos j, j, 1⟩, ⟨.varNeg j, j, -1⟩]

/-- The finite bound to which a variable is shifted; zero if there is none. -/
def Column.offset (c : Column α) : α :=
  match c.lower.finite?, c.upper.finite? with
  | some lower, _ => lower
  | none, some upper => upper
  | none, none => 0

/-- The width of a finite interval of values. -/
def Column.width? (c : Column α) : Option α :=
  match c.lower.finite?, c.upper.finite? with
  | some lower, some upper => some (upper - lower)
  | _, _ => none

/-- A row of the form before its columns are chosen: its right-hand side, and the sign of its slack
where it has one. -/
structure RowPlan (α : Type) where
  label : RowLabel
  rhs : α
  slack : Option α

/-- The rows of the form that stem from a row of the instance whose activity at the offsets is
given. -/
def Row.plans (i : Nat) (r : Row α) (shift : α) : List (RowPlan α) :=
  match r.rhs.finite? with
  | none => []
  | some b =>
    let rhs := b - shift
    match r.sense with
    | .atMost => [⟨.row i, rhs, some 1⟩]
    | .atLeast => [⟨.row i, rhs, some (-1)⟩]
    | .equal => [⟨.row i, rhs, none⟩]
    | .range w => [⟨.row i, rhs, some 1⟩, ⟨.rowLow i, rhs - w.toScalar, some (-1)⟩]

/-- The row that keeps a variable within a finite interval. -/
def Column.plans (j : Nat) (c : Column α) : List (RowPlan α) :=
  match c.width? with
  | some width => [⟨.bound j, width, some 1⟩]
  | none => []

/-- The label of the slack of a row. -/
def RowLabel.slack : RowLabel → Label
  | .row i => .slack i
  | .rowLow i => .slackLow i
  | .bound j => .boundSlack j
  | .foreign s => .foreign s

/-- A column with an entry in one row only. -/
def FormColumn.single (label : Label) (cost : α) (row : RowLabel) (value : α) : FormColumn α :=
  ⟨label, cost, fun r => if r = row then value else 0⟩

/-- The sign that a list of signs gives to a label, if any. -/
def signOf? (signs : List (Label × α)) (l : Label) : Option α :=
  (signs.find? (·.1 == l)).map (·.2)

/-- Does a row get an artificial column, and with which sign? In a cold form one is added wherever
the slack cannot start basic. In a warm form, which is given signs, one is added where a sign is
given, and to every row without a slack. -/
def RowPlan.artificial? (p : RowPlan α) (signs : Option (List (Label × α))) : Option α :=
  match signs with
  | none =>
    match p.slack with
    | some s => if 0 ≤ p.rhs * s then none else some (if 0 ≤ p.rhs then 1 else -1)
    | none => some (if 0 ≤ p.rhs then 1 else -1)
  | some signs =>
    match p.slack, signOf? signs (.artificial p.label) with
    | some _, sign => sign
    | none, some sign => some sign
    | none, none => some 1

/-- The row with its columns; `zero` is the cost of a column that stands for no variable. -/
def RowPlan.row (p : RowPlan α) (zero : α) (signs : Option (List (Label × α))) : FormRow α :=
  let artificial := (p.artificial? signs).map
    (FormColumn.single (.artificial p.label) zero p.label)
  match p.slack with
  | some s =>
    ⟨p.label, p.rhs, .single p.label.slack zero p.label s, artificial⟩
  | none =>
    ⟨p.label, p.rhs,
      artificial.getD (.single (.artificial p.label) zero p.label 1), none⟩

/-- The signs of the artificial columns that a row gets. -/
def RowPlan.sign (p : RowPlan α) (signs : Option (List (Label × α))) : List (Label × α) :=
  match p.artificial? signs with
  | some s => [(.artificial p.label, s)]
  | none => []

/-- A value as it counts for maximisation. -/
def Sense.toMax (s : Sense) (v : α) : α :=
  match s with
  | .max => v
  | .min => -v

/-- The entry of a row of a dense matrix. -/
def denseEntry (dense : List (List α)) (i j : Nat) : α := (dense.getD i []).getD j 0

/-- The entry of a structural column in a row of the form. -/
def Structural.entry (dense : List (List α)) (s : Structural α) : RowLabel → α
  | .row i | .rowLow i => 0 + denseEntry dense i s.column * s.factor
  | .bound j => if j = s.column then 1 else 0
  | .foreign _ => 0

namespace Instance

/-- The activity of a row of a dense matrix at given values of the variables. It is assumed that the
activities of all rows are summed from left to right, each row for itself. On scalars whose addition
rounds, another order could give other sums. -/
def activity (row values : List α) : α :=
  (row.zip values).foldl (fun s e => s + e.1 * e.2) 0

def objectives (i : Instance α) : List α := i.columns.map (·.objective.toScalar)

/-- The standard form of an instance: cold, or warm with given signs of artificial columns. -/
def standardForm (i : Instance α) (signs : Option (List (Label × α))) : StandardForm α :=
  let dense := if i.rows.isEmpty then [] else i.matrix.dense
  let structurals := i.columns.zipIdx.flatMap fun (c, j) => c.structurals j
  let offsets := i.columns.map (·.offset)
  let objectives := i.objectives
  let plans := (i.rows.zipIdx.flatMap fun (r, k) =>
      r.plans k (activity (dense.getD k []) offsets)) ++
    i.columns.zipIdx.flatMap fun (c, j) => c.plans j
  { structurals := structurals
    structuralColumns := structurals.map fun s =>
      ⟨s.label, i.sense.toMax (0 + objectives.getD s.column 0 * s.factor), s.entry dense⟩
    offsets := offsets
    rows := plans.map (·.row (i.sense.toMax 0) signs)
    signs := plans.flatMap (·.sign signs)
    numRows := i.numRows
    constant := activity objectives offsets }

end Instance

end IncrementalLP
