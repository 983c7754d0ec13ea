import IncrementalLP.Fault
/-!
# Offered arrays

Positions and values as a caller hands them in: any array-like thing, which is read as a list of
integers or of finite numbers, or refused by the name of the array.
-/
namespace IncrementalLP

/-- What was handed in as an array of positions. Positions are words of 64 bits. -/
inductive IndexArray where
  | integers (values : List Int64)
  /-- A list that holds something else than integers. -/
  | notIntegers
  /-- Nested lists, or no list at all. -/
  | shaped (lengths : List Nat)

/-- What was handed in as an array of values. -/
inductive ValueArray (α : Type) where
  | numbers (values : List (Extended α))
  | shaped (lengths : List Nat)

/-- The entries of a row to be appended: column numbers, and a value for each of them. -/
structure RowEntries (α : Type) where
  columns : Offer IndexArray
  values : Offer (List (Extended α))

section

variable {α β : Type}

/-- An offer whose refusal is a fault. -/
def accept : Offer β → Except (Fault α) β
  | .ok b => .ok b
  | .error cause => .error (.misread cause)

/-- The positions of an array. -/
def IndexArray.read (array : ArrayName) : IndexArray → Except (Fault α) (List Int64)
  | .integers values => .ok values
  | .notIntegers => .error (.notIntegers array)
  | .shaped lengths => .error (.notOneDimensional array lengths)

/-- Values that are all finite; the first that is not is told by its position, counted from `k`. -/
def finiteValues (k : Nat) : List (Extended α) → Except (Fault α) (List α)
  | [] => .ok []
  | v :: rest =>
    match v.finite? with
    | some x => (finiteValues (k + 1) rest).map (x :: ·)
    | none => .error (.valueNotFinite k v)

/-- The values of an array. -/
def ValueArray.read : ValueArray α → Except (Fault α) (List α)
  | .numbers values => finiteValues 0 values
  | .shaped lengths => .error (.notOneDimensional .coefficient lengths)

def readPositions (array : ArrayName) (offer : Offer IndexArray) :
    Except (Fault α) (List Int64) := do
  (← accept offer).read array

def readValues (offer : Offer (ValueArray α)) : Except (Fault α) (List α) := do
  (← accept offer).read

end

end IncrementalLP
