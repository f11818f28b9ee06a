import LiveDiagram.Number.Decimal
import LiveDiagram.Text.Digit

/-! Numerals: how numbers are written, with digits of any script. -/
namespace LiveDiagram

/-- A sign, digits, perhaps a point with more digits, perhaps a signed exponent. -/
structure Numeral where
  negative : Bool
  whole : List Char
  fraction : Option (List Char)
  exponent : Option (Bool × List Char)
deriving Repr

namespace Numeral
open Text

/-- The exponent mark with its sign and digits, if that is all there is. -/
def readExponent? : List Char → Option (Option (Bool × List Char))
  | [] => some none
  | mark :: rest =>
    if mark == 'e' || mark == 'E' then
      let (negative, digits) := match rest with
        | '-' :: more => (true, more)
        | '+' :: more => (false, more)
        | more => (false, more)
      if digits.isEmpty || !digits.all isDigit then none else some (some (negative, digits))
    else none

/-- Reads a whole text as a numeral with at least one digit. -/
def read? (text : List Char) : Option Numeral :=
  let (negative, unsigned) := match text with
    | '-' :: rest => (true, rest)
    | rest => (false, rest)
  let whole := unsigned.takeWhile isDigit
  match unsigned.dropWhile isDigit with
  | '.' :: rest =>
    let fraction := rest.takeWhile isDigit
    if whole.isEmpty && fraction.isEmpty then none
    else (readExponent? (rest.dropWhile isDigit)).map fun exponent => ⟨negative, whole, some fraction, exponent⟩
  | rest =>
    if whole.isEmpty then none
    else (readExponent? rest).map fun exponent => ⟨negative, whole, none, exponent⟩

/-- Digits alone, perhaps with a minus sign. -/
def isInteger (n : Numeral) : Bool :=
  n.fraction.isNone && n.exponent.isNone

/-- A numeral with a decimal point. -/
def isPointed (n : Numeral) : Bool :=
  n.fraction.isSome

/-- The integer that the digits before any point write. -/
def integer (n : Numeral) : Int :=
  let size : Int := digitsValue n.whole
  if n.negative then -size else size

def decimal (n : Numeral) : Decimal :=
  let fraction := n.fraction.getD []
  let exponent : Int := match n.exponent with
    | none => 0
    | some (negative, digits) => if negative then -(digitsValue digits : Int) else digitsValue digits
  ⟨n.negative, digitsValue (n.whole ++ fraction), exponent - fraction.length⟩

end Numeral

/-- Reads the text of a binary number: a numeral, an infinity or `nan`. -/
def Binary64.ofText? (text : String) : Option Binary64 :=
  if text == "nan" then some .nan
  else if text == "inf" then some (.infinite false)
  else if text == "-inf" then some (.infinite true)
  else (Numeral.read? text.toList).map (·.decimal.nearest)

end LiveDiagram
