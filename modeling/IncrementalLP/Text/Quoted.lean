import IncrementalLP.Text.Unprintable
/-!
# Quoted text

Two written forms of a text. In messages a text stands in single quotes, or in double quotes where
it holds single ones only. In documents it stands in double quotes and is written in ASCII, with
characters beyond the basic plane as two units.
-/
namespace IncrementalLP.Text

/-- A number in hexadecimal, filled with zeros to a width. -/
def hex (width n : Nat) : List Char :=
  let digits := Nat.toDigits 16 n
  List.replicate (width - digits.length) '0' ++ digits

/-- The form of a character inside quotes in a message. -/
def escaped (quote c : Char) : List Char :=
  if c = quote ∨ c = '\\' then ['\\', c]
  else if c = '\n' then ['\\', 'n']
  else if c = '\r' then ['\\', 'r']
  else if c = '\t' then ['\\', 't']
  else if isPrintable c then [c]
  else if c.toNat < 0x100 then '\\' :: 'x' :: hex 2 c.toNat
  else if c.toNat < 0x10000 then '\\' :: 'u' :: hex 4 c.toNat
  else '\\' :: 'U' :: hex 8 c.toNat

/-- A text in quotes, as messages show it. -/
def quoted (s : String) : String :=
  let cs := s.toList
  let quote := if cs.contains '\'' && !cs.contains '"' then '"' else '\''
  String.ofList (quote :: cs.flatMap (escaped quote) ++ [quote])

/-- The form of a character in a document. -/
def documentEscaped (c : Char) : List Char :=
  if c = '"' ∨ c = '\\' then ['\\', c]
  else if c = '\n' then ['\\', 'n']
  else if c = '\r' then ['\\', 'r']
  else if c = '\t' then ['\\', 't']
  else if c.toNat = 8 then ['\\', 'b']
  else if c.toNat = 12 then ['\\', 'f']
  else if 0x20 ≤ c.toNat ∧ c.toNat < 0x7F then [c]
  else if c.toNat < 0x10000 then '\\' :: 'u' :: hex 4 c.toNat
  else
    let rest := c.toNat - 0x10000
    ('\\' :: 'u' :: hex 4 (0xD800 + rest / 0x400)) ++ ('\\' :: 'u' :: hex 4 (0xDC00 + rest % 0x400))

/-- A text in double quotes, as documents hold it. -/
def documentQuoted (s : String) : String :=
  String.ofList ('"' :: s.toList.flatMap documentEscaped ++ ['"'])

end IncrementalLP.Text
