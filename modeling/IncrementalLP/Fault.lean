import IncrementalLP.Problem.Row
/-!
# Faults

Everything that can go wrong, as causes: why a value could not be read, why a matrix, a row or a
column is refused, and why an instance, a session or an engine cannot do what it is asked to. The
family of a fault and its wording are functions of the cause.
-/
namespace IncrementalLP

/-- Why a loose value could not be turned into what was expected. -/
inductive Misread where
  /-- Not the sort of value that stands for a number. -/
  | notNumeric
  /-- A text that stands for no number. -/
  | notANumber
  /-- An integer beyond every float. -/
  | tooLarge
  /-- Not a collection. -/
  | notIterable
  /-- A collection with another number of parts. -/
  | wrongLength
  /-- Nested lists of different lengths or depths. -/
  | ragged
  /-- A number that cannot be a position. -/
  | notAPosition
  /-- Values that have no order. -/
  | notComparable
  /-- An empty range to draw from, an array of too many dimensions, a position outside a shape. -/
  | unusable
  deriving Repr, DecidableEq

/-- A value as offered by a caller: read, or the reason why it could not be. -/
abbrev Offer (β : Type) := Except Misread β

/-- The arrays of a sparse layout. -/
inductive ArrayName where
  | columnStart
  | rowIndex
  | coefficient
  /-- The column numbers of the row with this ordinal. -/
  | columnsOfRow (row : Nat)
  deriving Repr, DecidableEq

def ArrayName.text : ArrayName → String
  | .columnStart => "column_start"
  | .rowIndex => "row_index"
  | .coefficient => "coefficient"
  | .columnsOfRow row => "row " ++ toString row ++ " column indices"

/-- The lengths of the dimensions of an array, as messages show them. -/
def shapeText : List Nat → String
  | [] => "()"
  | [n] => "(" ++ toString n ++ ",)"
  | dims => "(" ++ ", ".intercalate (dims.map toString) ++ ")"

/-- What a caller may give as the number of a column: an integer, a truth value, which counts as
zero or one, or a real number, which is comparable to positions without being one. -/
inductive Ordinal (α : Type) where
  | whole (n : Int)
  | truth (b : Bool)
  | real (x : Extended α)
  deriving Repr, DecidableEq

namespace Ordinal

def text {α : Type} [Scalar α] : Ordinal α → String
  | .whole n => toString n
  | .truth b => if b then "True" else "False"
  | .real x => x.text

/-- The ordinal as a number. -/
def number {α : Type} [Scalar α] : Ordinal α → Extended α
  | .whole n => .finite (Scalar.nearest n)
  | .truth b => .finite (if b then 1 else 0)
  | .real x => x

/-- The number before. -/
def pred {α : Type} [Scalar α] : Ordinal α → Ordinal α
  | .whole n => .whole (n - 1)
  | .truth b => .whole (if b then 0 else -1)
  | .real x => .real (x.minus (.finite 1))

/-- Is the ordinal negative? -/
def isNegative {α : Type} [Scalar α] : Ordinal α → Bool
  | .whole n => decide (n < 0)
  | .truth _ => false
  | .real x => x.less (.finite 0)

/-- Is the ordinal at most an integer? What is not a number never is. -/
def atMost {α : Type} [Scalar α] (o : Ordinal α) (n : Int) : Bool :=
  match o with
  | .whole m => decide (m ≤ n)
  | .truth b => decide ((if b then 1 else 0) ≤ n)
  | .real x => !x.isNan && !(Extended.finite (Scalar.nearest (n : Rat))).less x

/-- Is the ordinal a position below a count? Real numbers may be. -/
def isBelow {α : Type} [Scalar α] (o : Ordinal α) (count : Nat) : Bool :=
  match o with
  | .whole n => decide (0 ≤ n) && decide (n < count)
  | .truth b => decide ((if b then 1 else 0) < count)
  | .real x => !x.isNan && !x.less (.finite 0) && x.less (.finite (Scalar.nearest (count : Nat)))

/-- The ordinal without its fraction, as a count. -/
def count {α : Type} [Scalar α] : Ordinal α → Offer Nat
  | .whole n => .ok n.toNat
  | .truth b => .ok (if b then 1 else 0)
  | .real .nan => .error .unusable
  | .real (.finite x) => .ok (((Scalar.toRat? x).map (·.floor.toNat)).getD 0)
  | .real _ => .error .tooLarge

/-- The integer of an ordinal that is one. -/
def whole? {α : Type} : Ordinal α → Option Int
  | .whole n => some n
  | .truth b => some (if b then 1 else 0)
  | .real _ => none

end Ordinal

/-- A row or column that a fault points at. -/
structure Entity (α : Type) where
  kind : EntityKind
  ordinal : Ordinal α
  name : Option String
  deriving Repr, DecidableEq

/-- An entity is called by its ordinal, and by its name where that is not empty. -/
def Entity.text {α : Type} [Scalar α] (e : Entity α) : String :=
  let base := e.kind.name ++ " " ++ e.ordinal.text
  match e.name with
  | some n => if n.isEmpty then base else base ++ " ('" ++ n ++ "')"
  | none => base

/-- What is wrong with a part of a description, and where. -/
inductive Complaint where
  | missing
  | notARecord (type : String)
  | notANumber
  | unreadableNumber
  | notAnInteger
  | unreadableInteger
  | fractional
  | notFiniteNumber
  | integerTooLarge
  | notABool
  | unreadableBool
  | notAText
  | notAList
  | notAPath
  | notAmong (choices : List String)
  | rangeWithoutWidth
  | badWidth (shown : String)
  | widthWithoutRange (sense : String)
  deriving Repr, DecidableEq

/-- Choices in single quotes, the last one after an "or". -/
def choicesText : List String → String
  | [] => ""
  | [a] => "'" ++ a ++ "'"
  | [a, b] => "'" ++ a ++ "' or '" ++ b ++ "'"
  | a :: rest => "'" ++ a ++ "', " ++ choicesText rest

def Complaint.message : Complaint → String
  | .missing => "Field required"
  | .notARecord type => "Input should be a valid dictionary or instance of " ++ type
  | .notANumber => "Input should be a valid number"
  | .unreadableNumber => "Input should be a valid number, unable to parse string as a number"
  | .notAnInteger => "Input should be a valid integer"
  | .unreadableInteger => "Input should be a valid integer, unable to parse string as an integer"
  | .fractional => "Input should be a valid integer, got a number with a fractional part"
  | .notFiniteNumber => "Input should be a finite number"
  | .integerTooLarge => "Unable to parse input string as an integer, exceeded maximum size"
  | .notABool => "Input should be a valid boolean"
  | .unreadableBool => "Input should be a valid boolean, unable to interpret input"
  | .notAText => "Input should be a valid string"
  | .notAList => "Input should be a valid list"
  | .notAPath => "Input is not a valid path for <class 'pathlib.Path'>"
  | .notAmong choices => "Input should be " ++ choicesText choices
  | .rangeWithoutWidth => "Value error, Range rows need a range_value."
  | .badWidth shown => "Value error, range_value must be non-negative, got " ++ shown ++ "."
  | .widthWithoutRange sense =>
    "Value error, range_value is only allowed on range rows, not '" ++ sense ++ "'."

structure Problem where
  /-- Field names and list positions, outermost first; empty for the record as a whole. -/
  location : List String
  complaint : Complaint
  deriving Repr, DecidableEq

def Problem.text (p : Problem) : String :=
  ".".intercalate p.location ++ ": " ++ p.complaint.message

inductive Fault (α : Type) where
  -- the layout of a matrix
  | notOneDimensional (array : ArrayName) (shape : List Nat)
  | notIntegers (array : ArrayName)
  | valueNotFinite (position : Nat) (value : Extended α)
  | noColumnStart
  | firstStartNotZero (start : Int)
  | startsDecrease (column : Nat) (before after : Int)
  | entryCounts (declared : Int) (rows values : Nat)
  /-- Nothing comes back: the columns are laid out beyond the memory that there is. -/
  | lengthsOverflow
  | rowOutside (column : Nat) (row : Int) (numRows : Ordinal α)
  | rowRepeated (column : Nat) (row : Int)
  | negativeRowCount (count : Ordinal α)
  | columnRepeated (row : Nat) (column : Int)
  | entryNotFinite (row : Nat)
  -- counts that disagree
  | negativeShape (rows columns : Int)
  | columnOutside (row : Nat) (column : Int) (numColumns : Nat)
  | shrinking (held wanted : Int)
  | columnCount (held described : Nat)
  | rowCount (declared described : Nat)
  | entryListCount (rows lists : Nat)
  | rowsOutOfStep (matrix described : Nat)
  | columnStartCount (starts columns : Nat)
  | noSuchColumn (ordinal : Ordinal α) (count : Nat)
  | rowPosition (row : Int) (count : Nat)
  | columnPosition (column : Int) (count : Nat)
  -- limits and coefficients
  | boundNan (column : Entity α)
  | unattainableBounds (column : Entity α) (lower upper : Extended α)
  | crossedBounds (column : Entity α) (lower upper : Extended α)
  | costNotFinite (column : Entity α) (value : Extended α)
  | rhsNan (row : Entity α)
  | neverSatisfied (row : Entity α) (symbol : String) (rhs : Extended α)
  | rhsNotFinite (row : Entity α) (rhs : Extended α)
  | widthNotFinite (row : Entity α) (width : Extended α)
  | newCostNotFinite (ordinal : Ordinal α)
  -- names
  | duplicateName (kind : EntityKind) (name : String) (first second : Nat)
  | nameTaken (kind : EntityKind) (name : String) (ordinal holder : Nat)
  | nameRange (kind : EntityKind) (first last : Int) (count : Nat)
  | nameCount (kind : EntityKind) (given : Nat) (first last : Int)
  | notAName (kind : EntityKind) (ordinal : Nat) (shown : String)
  | unknownKind (kind : String)
  | unknownSense (shown : String)
  -- descriptions
  | rowRejected (ordinal : Nat) (complaint : Complaint)
  | rejected (problems : List Problem)
  | notAMatrix
  | misread (cause : Misread)
  -- instances, sessions and engines
  | notLoaded (operation name : String)
  | sessionClosed
  | nothingRegistered (engine : String)
  | neverSolved (name : String)
  | noBasis (name : String)
  | foreignBasis (name : String)
  | staleBasis (name : String)
  | basisShape (rows columns nowRows nowColumns : Nat)
  | basisEngine (engine session : String)
  | engineFailed (report : String)
  | unknownEngine (name : String)
  | engineMissing
  -- lookups and files
  | unknownModel (name : String)
  | unknownName
  | positionOutside
  | unknownLevel (shown : String)
  | noSuchFile
  | isDirectory
  deriving Repr

/-- The sorts of faults that callers tell apart. -/
inductive FaultFamily where
  | malformedMatrix
  | dimensionMismatch
  | invalidBound
  | duplicateName
  | nameRange
  | construction
  | instanceState
  | warmStartIneligible
  | solverEngine
  | validation
  | badValue
  | badType
  | overflow
  | badKey
  | badIndex
  | missingPart
  | missingFile
  | directory
  deriving Repr, DecidableEq

def Misread.family : Misread → FaultFamily
  | .notNumeric | .notIterable | .notAPosition | .notComparable => .badType
  | .notANumber | .wrongLength | .ragged | .unusable => .badValue
  | .tooLarge => .overflow

namespace Fault

variable {α : Type}

def family : Fault α → FaultFamily
  | .notOneDimensional .. | .notIntegers .. | .valueNotFinite .. | .noColumnStart
  | .firstStartNotZero .. | .startsDecrease .. | .entryCounts .. | .rowOutside ..
  | .rowRepeated .. | .negativeRowCount .. | .columnRepeated .. | .entryNotFinite .. =>
    .malformedMatrix
  | .negativeShape .. | .columnOutside .. | .shrinking .. | .columnCount .. | .rowCount ..
  | .entryListCount .. | .rowsOutOfStep .. | .columnStartCount .. | .noSuchColumn .. =>
    .dimensionMismatch
  | .rowPosition .. | .columnPosition .. | .positionOutside => .badIndex
  | .boundNan .. | .unattainableBounds .. | .crossedBounds .. | .rhsNan .. | .neverSatisfied ..
  | .rhsNotFinite .. | .widthNotFinite .. => .invalidBound
  | .costNotFinite .. | .notAName .. | .rowRejected .. => .construction
  | .newCostNotFinite .. | .unknownKind .. | .unknownSense .. | .unknownEngine ..
  | .unknownLevel .. => .badValue
  | .duplicateName .. | .nameTaken .. => .duplicateName
  | .nameRange .. | .nameCount .. => .nameRange
  | .rejected .. => .validation
  | .notAMatrix => .badType
  | .misread cause => cause.family
  | .notLoaded .. | .sessionClosed | .nothingRegistered .. => .instanceState
  | .neverSolved .. | .noBasis .. | .foreignBasis .. | .staleBasis .. | .basisShape ..
  | .basisEngine .. => .warmStartIneligible
  | .engineFailed .. => .solverEngine
  | .engineMissing => .missingPart
  | .lengthsOverflow => .overflow
  | .unknownModel .. | .unknownName => .badKey
  | .noSuchFile => .missingFile
  | .isDirectory => .directory

/-- The row or column that is to blame, where one is known. -/
def ordinal? : Fault α → Option (Ordinal α)
  | .notOneDimensional (.columnsOfRow row) _ | .notIntegers (.columnsOfRow row) =>
    some (.whole row)
  | .startsDecrease column .. | .rowOutside column .. | .rowRepeated column .. =>
    some (.whole column)
  | .columnRepeated row .. | .entryNotFinite row | .columnOutside row .. => some (.whole row)
  | .rowCount _ described => some (.whole described)
  | .noSuchColumn ordinal _ => some ordinal
  | .boundNan e | .unattainableBounds e .. | .crossedBounds e .. | .costNotFinite e _ | .rhsNan e
  | .neverSatisfied e .. | .rhsNotFinite e _ | .widthNotFinite e _ => some e.ordinal
  | .duplicateName _ _ _ second => some (.whole second)
  | .nameTaken _ _ ordinal _ => some (.whole ordinal)
  | .nameRange _ first last _ => some (.whole (if first < 0 ∨ last < first then first else last))
  | .nameCount _ _ first _ => some (.whole first)
  | .notAName _ ordinal _ => some (.whole ordinal)
  | .rowRejected ordinal _ => some (.whole ordinal)
  | _ => none

/-- The name that is to blame, where one is known. -/
def name? : Fault α → Option String
  | .boundNan e | .unattainableBounds e .. | .crossedBounds e .. | .costNotFinite e _ | .rhsNan e
  | .neverSatisfied e .. | .rhsNotFinite e _ | .widthNotFinite e _ => e.name
  | .duplicateName _ name .. | .nameTaken _ name .. => some name
  | _ => none

/-- A range of positions from zero to below a count. -/
def positions (count : Int) : String := "0.." ++ toString (count - 1)

/-- Two counts of rows and columns. -/
def sizes (rows columns : Nat) : String := toString rows ++ "x" ++ toString columns

/-- The wording of a fault; none for faults that are told by their family alone. -/
def message? [Scalar α] : Fault α → Option String
  | .notOneDimensional array shape =>
    some (array.text ++ " must be one-dimensional, got shape " ++ shapeText shape ++ ".")
  | .notIntegers array => some (array.text ++ " must hold integers.")
  | .valueNotFinite k v =>
    some (ArrayName.coefficient.text ++ "[" ++ toString k ++ "] is not finite (" ++ v.text ++ ").")
  | .noColumnStart => some "column_start needs at least one element."
  | .firstStartNotZero v => some ("column_start must begin at 0, got " ++ toString v ++ ".")
  | .startsDecrease j a b =>
    some ("column_start decreases at column " ++ toString j ++ " (" ++ toString a ++ " -> " ++
      toString b ++ ").")
  | .entryCounts n r v =>
    some ("column_start declares " ++ toString n ++ " entries but row_index has " ++ toString r ++
      " and coefficient has " ++ toString v ++ ".")
  | .rowOutside j i count =>
    some ("column " ++ toString j ++ " references row " ++ toString i ++ ", outside " ++
      "0.." ++ count.pred.text ++ ".")
  | .rowRepeated j i =>
    some ("column " ++ toString j ++ " lists row " ++ toString i ++ " more than once.")
  | .negativeRowCount n => some ("num_rows must be non-negative, got " ++ n.text ++ ".")
  | .columnRepeated i j =>
    some ("row " ++ toString i ++ " lists column " ++ toString j ++ " more than once.")
  | .entryNotFinite i => some ("row " ++ toString i ++ " has a non-finite coefficient.")
  | .negativeShape r c =>
    some ("Matrix shape must be non-negative, got (" ++ toString r ++ ", " ++ toString c ++ ").")
  | .columnOutside i j count =>
    some ("row " ++ toString i ++ " references column " ++ toString j ++ ", but the matrix has " ++
      toString count ++ " columns.")
  | .shrinking a b =>
    some ("Cannot shrink matrix from " ++ toString a ++ " to " ++ toString b ++ " rows.")
  | .columnCount held described =>
    some ("Matrix has " ++ toString held ++ " columns but " ++ toString described ++
      " columns were described.")
  | .rowCount declared described =>
    some ("Matrix declares " ++ toString declared ++ " rows but only " ++ toString described ++
      " rows were described.")
  | .entryListCount rows lists =>
    some (toString rows ++ " rows given with " ++ toString lists ++ " coefficient lists.")
  | .rowsOutOfStep matrix described =>
    some ("Matrix holds " ++ toString matrix ++ " rows but the instance has " ++
      toString described ++ ".")
  | .columnStartCount starts columns =>
    some ("column_start has " ++ toString starts ++ " entries for " ++ toString columns ++
      " new columns.")
  | .noSuchColumn ordinal count =>
    some ("column " ++ ordinal.text ++ " out of range " ++ positions count ++ ".")
  | .rowPosition i count => some ("Row " ++ toString i ++ " out of range " ++ positions count ++ ".")
  | .columnPosition j count =>
    some ("Column " ++ toString j ++ " out of range " ++ positions count ++ ".")
  | .boundNan e => some (e.text ++ " has a NaN bound.")
  | .unattainableBounds e lb ub =>
    some (e.text ++ " has an unattainable bound pair [" ++ lb.text ++ ", " ++ ub.text ++ "].")
  | .crossedBounds e lb ub => some (e.text ++ " has lb " ++ lb.text ++ " > ub " ++ ub.text ++ ".")
  | .costNotFinite e v =>
    some (e.text ++ " has a non-finite objective coefficient (" ++ v.text ++ ").")
  | .rhsNan e => some (e.text ++ " has a NaN rhs.")
  | .neverSatisfied e symbol rhs =>
    some (e.text ++ " can never be satisfied (" ++ symbol ++ " " ++ rhs.text ++ ").")
  | .rhsNotFinite e rhs => some (e.text ++ " needs a finite rhs, got " ++ rhs.text ++ ".")
  | .widthNotFinite e w => some (e.text ++ " needs a finite range_value, got " ++ w.text ++ ".")
  | .newCostNotFinite ordinal =>
    some ("Objective coefficient for column " ++ ordinal.text ++ " must be finite.")
  | .duplicateName kind name a b =>
    some (kind.name ++ " name '" ++ name ++ "' used by " ++ kind.name ++ "s " ++ toString a ++
      " and " ++ toString b ++ ".")
  | .nameTaken kind name ordinal holder =>
    some (kind.name ++ " name '" ++ name ++ "' for " ++ kind.name ++ " " ++ toString ordinal ++
      " is already used by " ++ kind.name ++ " " ++ toString holder ++ ".")
  | .nameRange kind first last count =>
    some (kind.name ++ " range " ++ toString first ++ ".." ++ toString last ++ " is outside " ++
      positions count ++ ".")
  | .nameCount kind given first last =>
    some (toString given ++ " names given for " ++ kind.name ++ "s " ++ toString first ++ ".." ++
      toString last ++ " (" ++ toString (last - first + 1) ++ " expected).")
  | .notAName kind ordinal shown =>
    some (kind.name ++ " " ++ toString ordinal ++ " needs a non-empty string name, got " ++ shown ++
      ".")
  | .unknownKind kind =>
    some ("Unknown name kind '" ++ kind ++ "', expected 'row' or 'column'.")
  | .unknownSense shown =>
    some ("Objective sense must be 'min' or 'max', got '" ++ shown ++ "'.")
  | .rowRejected ordinal complaint =>
    some ("row " ++ toString ordinal ++ ": " ++ complaint.message)
  | .notAMatrix => some "matrix must be a SparseMatrix, MatrixData or scipy sparse matrix"
  | .notLoaded operation name =>
    some ("Cannot " ++ operation ++ ": instance '" ++ name ++ "' has not been loaded.")
  | .sessionClosed => some "Solve session has been closed."
  | .nothingRegistered engine =>
    some ("No instance registered with the " ++ engine ++ " engine.")
  | .neverSolved name => some ("Instance '" ++ name ++ "' has not been solved yet.")
  | .noBasis name =>
    some ("Instance '" ++ name ++ "' has no usable basis: the last solve was not optimal or the " ++
      "instance changed in ways other than row additions.")
  | .foreignBasis name => some ("Basis does not belong to instance '" ++ name ++ "'.")
  | .staleBasis name => some ("Basis is not the current basis of instance '" ++ name ++ "'.")
  | .basisShape r c nowR nowC =>
    some ("Basis was taken on " ++ sizes r c ++ ", instance is now " ++ sizes nowR nowC ++ ".")
  | .basisEngine engine session =>
    some ("Basis comes from engine '" ++ engine ++ "', session uses '" ++ session ++ "'.")
  | .engineFailed report => some report
  | .unknownEngine name =>
    some ("Unknown engine '" ++ name ++ "', expected 'simplex' or 'highs'.")
  | .engineMissing => some "highspy is not installed; install lpdriver[highs]."
  | .unknownModel name => some ("No model named '" ++ name ++ "'.")
  | .unknownLevel shown => some ("Unknown level: " ++ shown)
  | .lengthsOverflow | .rejected _ | .misread _ | .unknownName | .positionOutside | .noSuchFile
  | .isDirectory => none

end Fault

end IncrementalLP
