/-!
# Labels

Stable names for the rows and columns of the standard form. Positions shift when rows are
appended; labels do not, and so a basis is carried from one form to the next by its labels.
-/
namespace IncrementalLP

/-- A row of the standard form: a row of the instance, the lower side of a range row, or the row
that keeps a variable below a finite upper bound. -/
inductive RowLabel where
  | row (i : Nat)
  | rowLow (i : Nat)
  | bound (j : Nat)
  | foreign (text : String)
  deriving Repr, DecidableEq

/-- A column of the standard form: a variable (in two halves where it is free), the slack of a row
or of its lower side, the slack below an upper bound, or the artificial of a row. A foreign label
names no column of any form. -/
inductive Label where
  | var (j : Nat)
  | varPos (j : Nat)
  | varNeg (j : Nat)
  | slack (i : Nat)
  | slackLow (i : Nat)
  | boundSlack (j : Nat)
  | artificial (row : RowLabel)
  | foreign (text : String)
  deriving Repr, DecidableEq

def RowLabel.text : RowLabel → String
  | .row i => "row:" ++ toString i
  | .rowLow i => "row_lo:" ++ toString i
  | .bound j => "ub_row:" ++ toString j
  | .foreign s => s

namespace Label

def isArtificial : Label → Bool
  | .artificial _ => true
  | _ => false

def text : Label → String
  | .var j => "x:" ++ toString j
  | .varPos j => "x+:" ++ toString j
  | .varNeg j => "x-:" ++ toString j
  | .slack i => "slack:" ++ toString i
  | .slackLow i => "slack_lo:" ++ toString i
  | .boundSlack j => "ub:" ++ toString j
  | .artificial r => "art:" ++ r.text
  | .foreign s => s

end Label

/-- A number in decimal digits. -/
def ordinalOfText? (s : String) : Option Nat := if s.all Char.isDigit then s.toNat? else none

/-- The row label of a text; a text that is none names a foreign row. -/
def RowLabel.ofParts : List String → RowLabel
  | [kind, number] =>
    match kind, ordinalOfText? number with
    | "row", some i => .row i
    | "row_lo", some i => .rowLow i
    | "ub_row", some j => .bound j
    | _, _ => .foreign (kind ++ ":" ++ number)
  | parts => .foreign (":".intercalate parts)

def RowLabel.ofText (s : String) : RowLabel := .ofParts (s.splitOn ":")

/-- The label of a text; a text that is none names a foreign column. -/
def Label.ofText (s : String) : Label :=
  match s.splitOn ":" with
  | ["x", n] => ((ordinalOfText? n).map .var).getD (.foreign s)
  | ["x+", n] => ((ordinalOfText? n).map .varPos).getD (.foreign s)
  | ["x-", n] => ((ordinalOfText? n).map .varNeg).getD (.foreign s)
  | ["slack", n] => ((ordinalOfText? n).map .slack).getD (.foreign s)
  | ["slack_lo", n] => ((ordinalOfText? n).map .slackLow).getD (.foreign s)
  | ["ub", n] => ((ordinalOfText? n).map .boundSlack).getD (.foreign s)
  | "art" :: row => .artificial (.ofParts row)
  | _ => .foreign s

end IncrementalLP
