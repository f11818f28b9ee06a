import LiveDiagram.Text.Printable

/-! Texts as quoted literals, the form in which messages and reports show them. -/
namespace LiveDiagram.Text

/-- The lowest `width` hexadecimal digits of a number. -/
def hex (width number : Nat) : List Char :=
  let digits := Nat.toDigits 16 number
  List.replicate (width - digits.length) '0' ++ digits

/-- One character inside a literal delimited by `mark`. -/
def literalChar (mark c : Char) : List Char :=
  if c == mark || c == '\\' then ['\\', c]
  else if c == '\n' then ['\\', 'n']
  else if c == '\r' then ['\\', 'r']
  else if c == '\t' then ['\\', 't']
  else if isPrintable c then [c]
  else if c.toNat < 0x100 then '\\' :: 'x' :: hex 2 c.toNat
  else if c.toNat < 0x10000 then '\\' :: 'u' :: hex 4 c.toNat
  else '\\' :: 'U' :: hex 8 c.toNat

/-- The mark around a literal: single, unless the text holds single marks and no double ones. -/
def literalMark (text : List Char) : Char :=
  if text.contains '\'' && !text.contains '"' then '"' else '\''

/-- The text between marks, with escapes for the mark, the backslash and all that is not printable. -/
def literal (text : String) : String :=
  let mark := literalMark text.toList
  String.ofList (mark :: text.toList.flatMap (literalChar mark) ++ [mark])

end LiveDiagram.Text
