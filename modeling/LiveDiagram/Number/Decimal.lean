import LiveDiagram.Number.Binary64

/-! Decimal numbers: the binary number nearest to one, and the shortest one that reads back as a given
binary number. -/
namespace LiveDiagram

/-- The number `± digits * 10 ^ exponent`. -/
structure Decimal where
  negative : Bool
  digits : Nat
  exponent : Int
deriving DecidableEq, Repr

namespace Decimal

/-- How many decimal digits a number has; zero has one. -/
def width (n : Nat) : Nat :=
  (Nat.toDigits 10 n).length

/-- The nearest binary number. Beyond `10 ^ 310` everything is infinite and below `10 ^ -330` zero, so
the powers that are computed stay small. -/
def nearest (d : Decimal) : Binary64 :=
  let lead := (width d.digits : Int) + d.exponent
  if d.digits = 0 || lead < -330 then .zero d.negative
  else if 310 < lead then .infinite d.negative
  else
    let (num, den) := Binary64.scaled 10 d.digits 1 (-d.exponent)
    Binary64.nearest d.negative num den

/-- The decimal exponent of the first digit of `num / den`, which is not zero. -/
def leading (num den : Nat) : Int :=
  if den ≤ num then (width (num / den) : Int) - 1
  else
    let ceiling := (den + num - 1) / num
    Int.negOfNat (width (ceiling - 1))

/-- The decimal with `count` digits nearest to `x = num / den` among the two neighbours of `x` that read
back as `x`; a tie goes to the even last digit. -/
def neighbour? (x : Binary64) (num den count : Nat) : Option Decimal :=
  let exponent := leading num den - count + 1
  let (top, bottom) := Binary64.scaled 10 num den exponent
  let low := top / bottom
  let reads (digits : Nat) := (Decimal.mk false digits exponent).nearest == x
  let rest := 2 * (top % bottom)
  let lowFirst := rest < bottom || (rest == bottom && low % 2 == 0)
  let order := if lowFirst then [low, low + 1] else [low + 1, low]
  (order.find? reads).map (Decimal.mk false · exponent)

/-- The shortest decimal that reads back as the positive number `mantissa * 2 ^ exponent`. -/
def shortest (mantissa : Nat) (exponent : Int) : Decimal :=
  let (num, den) := Binary64.fraction mantissa exponent
  let x := Binary64.finite false mantissa exponent
  let counts := (List.range 17).map (· + 1)
  (counts.findSome? (neighbour? x num den)).getD ⟨false, mantissa, exponent⟩

end Decimal

namespace Binary64

/-- Which decimal exponents are written without an exponent mark, and how wide the written exponent is. -/
structure Layout where
  least : Int
  below : Int
  exponentWidth : Nat

/-- Numbers from `0.0001` up to `10 ^ 16` are positional; an exponent has two digits at least. -/
def layout : Layout := ⟨-4, 16, 2⟩

/-- The text of the positive number whose digits are given, the first of them worth `10 ^ lead`. -/
def place (layout : Layout) (digits : List Char) (lead : Int) : List Char :=
  if layout.least ≤ lead && lead < layout.below then
    if lead < 0 then '0' :: '.' :: List.replicate (lead.natAbs - 1) '0' ++ digits
    else
      let count := lead.natAbs + 1
      let rest := digits.drop count
      digits.take count ++ List.replicate (count - digits.length) '0' ++ '.' ::
        (if rest.isEmpty then ['0'] else rest)
  else
    let rest := digits.drop 1
    let size := Nat.toDigits 10 lead.natAbs
    digits.take 1 ++ (if rest.isEmpty then [] else '.' :: rest) ++ 'e' :: (if lead < 0 then '-' else '+') ::
      List.replicate (layout.exponentWidth - size.length) '0' ++ size

/-- The shortest text that reads back as the number. -/
def text : Binary64 → String
  | .nan => "nan"
  | .infinite negative => if negative then "-inf" else "inf"
  | .finite negative mantissa exponent =>
    let body :=
      if mantissa = 0 then ['0', '.', '0']
      else
        let d := Decimal.shortest mantissa exponent
        let all := Nat.toDigits 10 d.digits
        let digits := (all.reverse.dropWhile (· == '0')).reverse
        place layout digits (d.exponent + (all.length : Int) - 1)
    String.ofList (if negative then '-' :: body else body)

end Binary64
end LiveDiagram
