import IncrementalLP.Form.Standard
import IncrementalLP.Dense.LeastSquares
import IncrementalLP.Event
/-!
# Programs

A standard form as the simplex method works on it: dense columns, and bases that list one column
for each row. A column may be barred from entering a basis; artificial columns are.
-/
namespace IncrementalLP

/-- To maximise `cost · x` over `A x = rhs`, `x ≥ 0`, with `m` rows and `n` columns. -/
structure Program (α : Type) (m n : Nat) where
  columns : Vector (Vector α m) n
  rhs : Vector α m
  cost : Vector α n
  /-- Which columns may never enter. -/
  barred : Vector Bool n
  /-- The sign of each artificial column; one for the others. -/
  signs : Vector α n

/-- The basic columns, one for each row. -/
abbrev Basis (m n : Nat) := Vector (Fin n) m

/-- An optimal point, with the objective and the prices of the rows. -/
structure Point (α : Type) (m n : Nat) where
  x : Vector α n
  objective : α
  prices : Vector α m

namespace Program

variable {α : Type} [Scalar α] {m n : Nat}

/-- The basic columns of a program. -/
def basic (p : Program α m n) (basis : Basis m n) : Vector (Vector α m) m :=
  basis.map fun j => p.columns.get j

/-- The combination of the basic columns that gives a vector. -/
def inBasis (p : Program α m n) (basis : Basis m n) (v : Vector α m) : Vector α m :=
  Dense.solve (Dense.transpose (p.basic basis)) v

/-- The values of the basic variables. -/
def basicValues (p : Program α m n) (basis : Basis m n) : Vector α m := p.inBasis basis p.rhs

def basicCosts (p : Program α m n) (basis : Basis m n) : Vector α m :=
  basis.map fun j => p.cost.get j

/-- The prices of the rows at which every basic column is worth its cost. -/
def prices (p : Program α m n) (basis : Basis m n) : Vector α m :=
  Dense.solve (p.basic basis) (p.basicCosts basis)

/-- What each column costs less than its worth at given prices; zero for basic columns. -/
def reducedCosts (p : Program α m n) (tolerance : α) (basis : Basis m n) (prices : Vector α m) :
    Vector α n :=
  .ofFn fun j =>
    if basis.contains j then 0
    else Scalar.snap tolerance (p.cost.get j - Dense.dot (p.columns.get j) prices)

/-- The columns that may enter a basis and satisfy a test, in order. -/
def enterable (p : Program α m n) (basis : Basis m n) (test : Fin n → Bool) : List (Fin n) :=
  (List.finRange n).filter fun j => !basis.contains j && !p.barred.get j && test j

/-- The point at which the basic variables have given values. -/
def pointAt (p : Program α m n) (basis : Basis m n) (values prices : Vector α m) :
    Point α m n where
  x := Dense.scatter basis values
  objective := Dense.dot (p.basicCosts basis) values
  prices := prices

end Program

namespace StandardForm

variable {α : Type}

private theorem natural_mem_columns {f : StandardForm α} {r : FormRow α} (h : r ∈ f.rows) :
    r.natural ∈ f.columns :=
  List.mem_append_right _ (List.mem_flatMap.2 ⟨r, h, List.mem_cons_self⟩)

private theorem start_mem_columns {f : StandardForm α} {r : FormRow α} (h : r ∈ f.rows) :
    r.start ∈ f.columns := by
  refine List.mem_append_right _ (List.mem_flatMap.2 ⟨r, h, ?_⟩)
  unfold FormRow.start FormRow.columns
  cases r.extra <;> simp

/-- The place of a column, which is the first place of its label. -/
def placeOf (f : StandardForm α) (c : FormColumn α) (h : c ∈ f.columns) : Fin f.columns.length :=
  ⟨f.columns.findIdx (·.label == c.label),
    List.findIdx_lt_length_of_exists ⟨c, h, by simp⟩⟩

/-- The place of a column label, if the form has it. -/
def place? (f : StandardForm α) (l : Label) : Option (Fin f.columns.length) :=
  f.columns.findFinIdx? (·.label == l)

/-- The basis that a cold form starts from. -/
def start (f : StandardForm α) : Basis f.rows.length f.columns.length :=
  .ofFn fun k => f.placeOf (f.rows.get k).start (start_mem_columns (List.get_mem f.rows k))

/-- The place of the column that may start basic in a row. -/
def naturalPlace (f : StandardForm α) (k : Fin f.rows.length) : Fin f.columns.length :=
  f.placeOf (f.rows.get k).natural (natural_mem_columns (List.get_mem f.rows k))

/-- The columns that a stored basis stands for: its own, and the natural columns of the rows that
it does not know. A basis with a label that the form does not have stands for none. -/
def warmPlaces? (f : StandardForm α) (payload : BasisPayload α) :
    Option (List (Fin f.columns.length)) :=
  let added := (List.finRange f.rows.length).filter fun k =>
    !payload.rows.contains (f.rows.get k).label
  (payload.basis.mapM f.place?).map (· ++ added.map f.naturalPlace)

/-- A stored basis as a basis of the form, if it has one column for each row. -/
def warmStart? (f : StandardForm α) (payload : BasisPayload α) :
    Option (Basis f.rows.length f.columns.length) :=
  match f.warmPlaces? payload with
  | some places =>
    if h : places.length = f.rows.length then some ⟨places.toArray, h⟩ else none
  | none => none

/-- The program of a standard form. -/
def program [Scalar α] (f : StandardForm α) : Program α f.rows.length f.columns.length where
  columns := .ofFn fun j => .ofFn fun i => (f.columns.get j).entry (f.rows.get i).label
  rhs := .ofFn fun i => (f.rows.get i).rhs
  cost := .ofFn fun j => (f.columns.get j).cost
  barred := .ofFn fun j => (f.columns.get j).label.isArtificial
  signs := .ofFn fun j => (signOf? f.signs (f.columns.get j).label).getD 1

end StandardForm

end IncrementalLP
