/-! Binary floating point with 53 bits of precision, kept as exact integers. A finite number is
`± mantissa * 2 ^ exponent` with the mantissa below `2 ^ 53` and the exponent at least `-1074`; `nearest` gives
the representation with the smallest exponent that holds it, so equal numbers are equal data. -/
namespace LiveDiagram

inductive Binary64
  | finite (negative : Bool) (mantissa : Nat) (exponent : Int)
  | infinite (negative : Bool)
  | nan
deriving DecidableEq, Repr, Inhabited

namespace Binary64

def zero (negative : Bool) : Binary64 :=
  .finite negative 0 (-1074)

/-- The quotient rounded to the nearest integer, a half to the even neighbour. -/
def roundedQuotient (num den : Nat) : Nat :=
  let quotient := num / den
  let rest := num % den
  if 2 * rest < den then quotient
  else if den < 2 * rest then quotient + 1
  else quotient + quotient % 2

/-- The fraction `num / (den * base ^ exponent)`, written with natural numbers. -/
def scaled (base num den : Nat) (exponent : Int) : Nat × Nat :=
  let power := Nat.pow base exponent.natAbs
  if exponent < 0 then (num * power, den) else (num, den * power)

/-- The exponent of the highest power of two that is at most `num / den`. -/
def magnitude (num den : Nat) : Int :=
  let guess : Int := (num.log2 : Int) - den.log2
  let (top, bottom) := scaled 2 num den guess
  if bottom ≤ top then guess else guess - 1

/-- The number nearest to `± num / den`, a half going to the even mantissa; `den` is not zero. -/
def nearest (negative : Bool) (num den : Nat) : Binary64 :=
  if num = 0 then zero negative
  else
    let exponent := max (magnitude num den - 52) (-1074)
    let (top, bottom) := scaled 2 num den exponent
    let mantissa := roundedQuotient top bottom
    let (mantissa, exponent) :=
      if mantissa = Nat.pow 2 53 then (Nat.pow 2 52, exponent + 1) else (mantissa, exponent)
    if 971 < exponent then .infinite negative else .finite negative mantissa exponent

/-- The nearest number to an integer. -/
def ofInt (n : Int) : Binary64 :=
  nearest (n < 0) n.natAbs 1

/-- The size of `mantissa * 2 ^ exponent` as a fraction. -/
def fraction (mantissa : Nat) (exponent : Int) : Nat × Nat :=
  scaled 2 mantissa 1 (-exponent)

def signed (negative : Bool) (mantissa : Nat) : Int :=
  if negative then -(mantissa : Int) else mantissa

/-- Two dyadic numbers `m * 2 ^ e` over the lesser of their exponents. -/
def aligned (m₁ e₁ m₂ e₂ : Int) : Int × Int :=
  let common := min e₁ e₂
  (m₁ * Nat.pow 2 (e₁ - common).natAbs, m₂ * Nat.pow 2 (e₂ - common).natAbs)

def neg : Binary64 → Binary64
  | .finite s m e => .finite (!s) m e
  | .infinite s => .infinite (!s)
  | .nan => .nan

/-- The rounded sum. A zero sum is negative only when both terms are. -/
def add : Binary64 → Binary64 → Binary64
  | .finite s₁ m₁ e₁, .finite s₂ m₂ e₂ =>
    let (a, b) := aligned (signed s₁ m₁) e₁ (signed s₂ m₂) e₂
    if a + b = 0 then zero (s₁ && s₂)
    else
      let (num, den) := fraction (a + b).natAbs (min e₁ e₂)
      nearest (a + b < 0) num den
  | .infinite s₁, .infinite s₂ => if s₁ = s₂ then .infinite s₁ else .nan
  | .nan, _ | _, .nan => .nan
  | .infinite s, .finite .. | .finite .., .infinite s => .infinite s

/-- The rounded product. -/
def mul : Binary64 → Binary64 → Binary64
  | .finite s₁ m₁ e₁, .finite s₂ m₂ e₂ =>
    let (num, den) := fraction (m₁ * m₂) (e₁ + e₂)
    nearest (s₁ != s₂) num den
  | .nan, _ | _, .nan => .nan
  | .infinite s₁, .infinite s₂ => .infinite (s₁ != s₂)
  | .infinite s₁, .finite s₂ m _ | .finite s₁ m _, .infinite s₂ =>
    if m = 0 then .nan else .infinite (s₁ != s₂)

def half (x : Binary64) : Binary64 :=
  mul x (nearest false 1 2)

instance : Add Binary64 := ⟨add⟩
instance : Neg Binary64 := ⟨neg⟩
instance : Sub Binary64 := ⟨fun x y => add x (neg y)⟩
instance : Mul Binary64 := ⟨mul⟩

end Binary64
end LiveDiagram
