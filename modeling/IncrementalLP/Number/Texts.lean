import IncrementalLP.Number.Extended
import IncrementalLP.Number.Decimal
import IncrementalLP.Text.Classes
/-!
# Reading numbers

The texts that are read as a number: a decimal with an optional sign, fraction and exponent, or a
word for an infinity or for what is not a number. Blanks around are dropped. Two conventions for
underscores among the digits are in use, and so there is a reader for each.
-/
namespace IncrementalLP.NumberText

open Text

/-- Does the text start with a digit? -/
def startsWithDigit (digit? : Char → Option Nat) : List Char → Bool
  | c :: _ => (digit? c).isSome
  | [] => false

/-- The digits in front, with single underscores between them, and what follows. The flag says
whether the character before was a digit. -/
def digitRunFrom (digit? : Char → Option Nat) : Bool → List Char → List Nat × List Char
  | _, [] => ([], [])
  | afterDigit, c :: rest =>
    match digit? c with
    | some d =>
      let (ds, left) := digitRunFrom digit? true rest
      (d :: ds, left)
    | none =>
      if afterDigit && c == '_' && startsWithDigit digit? rest then digitRunFrom digit? false rest
      else ([], c :: rest)

def digitRun (digit? : Char → Option Nat) : List Char → List Nat × List Char :=
  digitRunFrom digit? false

/-- The natural number that digits stand for. -/
def natural (digits : List Nat) : Nat := digits.foldl (fun n d => 10 * n + d) 0

/-- A sign in front, if there is one. -/
def sign : List Char → Bool × List Char
  | '-' :: rest => (true, rest)
  | '+' :: rest => (false, rest)
  | s => (false, s)

/-- An exponent that takes up the rest of the text; a text without one has exponent zero. -/
def exponent? (digit? : Char → Option Nat) : List Char → Option Int
  | [] => some 0
  | c :: rest =>
    if c = 'e' ∨ c = 'E' then
      let (negative, body) := sign rest
      match digitRun digit? body with
      | ([], _) => none
      | (ds, []) => some (if negative then -(natural ds : Int) else natural ds)
      | _ => none
    else none

/-- A decimal without sign. -/
def decimal? (digit? : Char → Option Nat) (s : List Char) : Option Decimal :=
  let (whole, rest) := digitRun digit? s
  let (fraction, rest) := match rest with
    | '.' :: after => digitRun digit? after
    | _ => ([], rest)
  if whole.isEmpty && fraction.isEmpty then none
  else (exponent? digit? rest).map fun e => ⟨natural (whole ++ fraction), e - fraction.length⟩

/-- The words for what is not an ordinary number. -/
def word? {α : Type} (s : List Char) : Option (Extended α) :=
  let w := String.ofList (lower s)
  if w = "inf" ∨ w = "infinity" then some .posInf
  else if w = "nan" then some .nan
  else none

variable {α : Type} [Scalar α]

/-- The number nearest to a decimal. Decimals far outside every number format are not expanded. -/
def ofDecimal (negative : Bool) (d : Decimal) : Extended α :=
  let magnitude : Int := Decimal.digitCount d.digits + d.exponent
  if d.digits = 0 ∨ magnitude < -400 then .finite (if negative then -0 else 0)
  else if 400 < magnitude then if negative then .negInf else .posInf
  else
    let x : α := Scalar.nearest d.value
    Extended.ofScalar (if negative then -x else x)

def signed? (digit? : Char → Option Nat) (s : List Char) : Option (Extended α) :=
  let (negative, body) := sign s
  match word? body with
  | some .posInf => some (if negative then .negInf else .posInf)
  | some w => some w
  | none => (decimal? digit? body).map (ofDecimal negative)

/-- The number a text stands for where underscores may stand between digits only, and digits may
be those of any script. -/
def number? (s : String) : Option (Extended α) :=
  signed? digit? (trim isBlank s.toList)

/-- May the underscores of a text be dropped? Not where one stands at an end or next to another. -/
def droppableUnderscores (s : List Char) : Bool :=
  s.contains '_' && s.head? != some '_' && s.getLast? != some '_' &&
    !(s.zip s.tail).contains ('_', '_')

/-- The number a text stands for where single underscores may stand anywhere inside it, and digits
are those of ASCII. A text with underscores may not have blanks around. -/
def laxNumber? (s : String) : Option (Extended α) :=
  let cs := s.toList
  if !cs.contains '_' then signed? asciiDigit? (trim isWhite cs)
  else if droppableUnderscores cs then signed? asciiDigit? (cs.filter (· != '_'))
  else none

/-- The integer that digits with a sign stand for. -/
def signedInteger? (digit? : Char → Option Nat) (s : List Char) : Option Int :=
  let (negative, body) := sign s
  match digitRun digit? body with
  | ([], _) => none
  | (ds, []) => some (if negative then -(natural ds : Int) else natural ds)
  | _ => none

/-- The integer a text stands for. -/
def integer? (s : String) : Option Int := signedInteger? digit? (trim isBlank s.toList)

/-- A text without a fraction that is zero. -/
def dropZeroFraction (s : List Char) : List Char :=
  match s.dropWhile (· != '.') with
  | '.' :: zeros => if zeros.all (· == '0') then s.takeWhile (· != '.') else s
  | _ => s

/-- The integer a text stands for, where a fraction that is zero may follow. -/
def laxInteger? (s : String) : Option Int :=
  signedInteger? asciiDigit? (dropZeroFraction (trim isWhite s.toList))

end IncrementalLP.NumberText
