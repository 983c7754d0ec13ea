import IncrementalLP.Instance.Change
import IncrementalLP.Reading.Records
/-!
# Arrays

Loose values as the arrays, entries and changes that an instance is offered. What cannot be read is
not refused here; the offer says why, and whoever needs the value decides when that matters.
-/
namespace IncrementalLP.Reading

mutual

/-- The lengths of nested lists, outermost first; none if the lists differ in length or depth. -/
def shape? : Value → Option (List Nat)
  | .list items => match shapes items with
    | [] => some [0]
    | first :: rest =>
      if rest.all (· == first) then first.map ((rest.length + 1) :: ·) else none
  | _ => some []

def shapes : List Value → List (Option (List Nat))
  | [] => []
  | v :: rest => shape? v :: shapes rest

end

mutual

/-- The values at the ends of nested lists. -/
def leaves : Value → List Value
  | .list items => allLeaves items
  | v => [v]

def allLeaves : List Value → List Value
  | [] => []
  | v :: rest => leaves v ++ allLeaves rest

end

/-- The float that a value converts to. -/
def float : Value → Offer (Extended Float)
  | .float x => .ok (.ofScalar x)
  | .int n => ((floatOfInt? n).map .ok).getD (.error .tooLarge)
  | .bool b => .ok (.finite (if b then 1 else 0))
  | .text s => ((NumberText.number? s).map .ok).getD (.error .notANumber)
  | _ => .error .notNumeric

/-- The number that a value already is. Texts are none. -/
def real : Value → Offer (Extended Float)
  | .text _ => .error .notNumeric
  | v => float v

/-- The float of an array element, where nothing stands for what is not a number. -/
def element : Value → Offer (Extended Float)
  | .null => .ok .nan
  | v => float v

/-- An array of values; a single value is an array of one. -/
def valueArray : Value → Offer (ValueArray Float)
  | .null => .ok (.numbers [])
  | v =>
    match shape? v with
    | none => .error .ragged
    | some lengths => do
      let numbers ← (leaves v).mapM element
      return if lengths.length ≤ 1 then .numbers numbers else .shaped lengths

/-- A table of values; a list is a table with one row, and a number one with one entry. -/
def table (v : Value) : Offer (Table Float) :=
  match shape? v with
  | none => .error .ragged
  | some lengths => do
    let numbers ← (leaves v).mapM element
    match lengths with
    | [] => return ⟨1, [numbers]⟩
    | [k] => return ⟨k, [numbers]⟩
    | [m, k] => return ⟨k, Runs.cut (List.replicate m k) numbers⟩
    | _ => throw .unusable

/-- What kind of number a position is given as. -/
inductive PositionKind where
  | truth
  /-- An integer in a signed word. -/
  | signed
  /-- An integer that needs an unsigned word. -/
  | unsigned
  | real
  | other
  deriving DecidableEq

def positionKind : Value → PositionKind
  | .bool _ => .truth
  | .int n =>
    if Int64.minValue.toInt ≤ n ∧ n ≤ Int64.maxValue.toInt then .signed
    else if 0 ≤ n ∧ n < UInt64.size then .unsigned
    else .other
  | .float _ => .real
  | _ => .other

/-- The word of a whole float. One that fits no word becomes the least word. -/
def wordOfWhole (q : Int) : Int64 :=
  if Int64.minValue.toInt ≤ q ∧ q ≤ Int64.maxValue.toInt then Int64.ofInt q else Int64.minValue

/-- The word of a float that is whole. -/
def wholeWord? (x : Extended Float) : Option Int64 := do
  let q ← Scalar.toRat? (← x.finite?)
  if q.den = 1 then some (wordOfWhole q.num) else none

/-- The integer of a value that is one. -/
def intOf : Value → Int
  | .int n => n
  | .bool true => 1
  | _ => 0

/-- A list of positions. If one of them is a float, or if no one sort of word holds them all, they
are taken as floats. -/
def positions (items : List Value) : IndexArray :=
  let kinds := items.map positionKind
  if items.isEmpty then .integers []
  else if kinds.contains .other then .notIntegers
  else if kinds.contains .real || (kinds.contains .signed && kinds.contains .unsigned) then
    match items.mapM fun v => (real v).toOption.bind wholeWord? with
    | some words => .integers words
    | none => .notIntegers
  else if kinds.all (· == .truth) then .notIntegers
  else .integers (items.map fun v => Int64.ofInt (intOf v))

/-- An array of positions. -/
def indexArray : Value → Offer IndexArray
  | .null => .ok (.integers [])
  | v =>
    match shape? v with
    | none => .error .ragged
    | some [_] => .ok (positions (leaves v))
    | some lengths => .ok (.shaped lengths)

/-- The items of a collection: of a list, the characters of a text, the names of an object. -/
def items : Value → Offer (List Value)
  | .list vs => .ok vs
  | .text s => .ok (s.toList.map fun c => .text (String.ofList [c]))
  | .object fields => .ok (fields.map fun f => .text f.1)
  | _ => .error .notIterable

/-- A collection of two parts. -/
def pair (v : Value) : Offer (Value × Value) := do
  match ← items v with
  | [a, b] => return (a, b)
  | _ => throw .wrongLength

/-- A collection of three parts. -/
def triple (v : Value) : Offer (Value × Value × Value) := do
  match ← items v with
  | [a, b, c] => return (a, b, c)
  | _ => throw .wrongLength

/-- The entries of a row, given as pairs of a column and a value. -/
def entries (v : Value) : Offer (RowEntries Float) := do
  let pairs ← (← items v).mapM pair
  return ⟨indexArray (.list (pairs.map (·.1))), pairs.mapM fun p => float p.2⟩

/-- The entries of several rows. -/
def entryLists (v : Value) : Offer (List (Offer (RowEntries Float))) := do
  return (← items v).map entries

/-- An integer that is a position or a count. A float is none, even if it is whole. -/
def place : Value → Offer Int
  | .int n => .ok n
  | .bool b => .ok (if b then 1 else 0)
  | .float _ => .error .notAPosition
  | _ => .error .notComparable

/-- What is given as the number of a column. -/
def ordinal : Value → Offer (Ordinal Float)
  | .int n => .ok (.whole n)
  | .bool b => .ok (.truth b)
  | .float x => .ok (.real (.ofScalar x))
  | _ => .error .notComparable

/-- What is given as the number of rows. -/
def rowCount : Value → Offer (Option (Ordinal Float))
  | .null => .ok none
  | v => (ordinal v).map some

def boundChange (v : Value) : Offer (BoundChange Float) := do
  let (j, lower, upper) ← triple v
  return ⟨ordinal j, float lower, float upper⟩

def costChange (v : Value) : Offer (CostChange Float) := do
  let (j, cost) ← pair v
  return ⟨ordinal j, real cost⟩

/-- Changes, one for each item of a collection. -/
def changes {β : Type} (read : Value → Offer β) (v : Value) : Offer (List (Offer β)) := do
  return (← items v).map read

/-- A name; anything but a text is told by how it is shown. -/
def name : Value → Names.Given
  | .text s => .ok s
  | v => .error v.shown

def names (v : Value) : Offer (List Names.Given) := do
  return (← items v).map name

/-- A direction of the objective, or the text of what is given instead. -/
def sense (v : Value) : Except String Sense :=
  match v with
  | .text s => ((Sense.ofName? s).map .ok).getD (.error s)
  | v => .error v.plain

/-- A sort of named entities, or the text of what is given instead. -/
def kind (v : Value) : Except String EntityKind :=
  match v with
  | .text s => ((EntityKind.ofName? s).map .ok).getD (.error s)
  | v => .error v.plain

/-- How many parts a collection has. -/
def length (v : Value) : Offer Nat := (items v).map (·.length)

end IncrementalLP.Reading

namespace IncrementalLP

/-- A layout that was read, as a source of a matrix. -/
def ColumnLayout.source (d : ColumnLayout) : MatrixSource Float :=
  .layout (.ok (Reading.positions (d.starts.map .int)))
    (.ok (Reading.positions (d.rows.map .int))) (.ok (.numbers d.values))
    (.ok (d.numRows.map .whole))

end IncrementalLP
