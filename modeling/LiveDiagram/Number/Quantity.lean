import LiveDiagram.Number.Decimal

/-! Quantities: whole numbers of any size and binary floating point numbers, compared exactly and mixed
freely in arithmetic. -/
namespace LiveDiagram

inductive Quantity
  | int (n : Int)
  | float (x : Binary64)
deriving DecidableEq, Repr, Inhabited

namespace Quantity

def toBinary64 : Quantity → Binary64
  | .int n => .ofInt n
  | .float x => x

/-- Applies the exact operation to two whole numbers and the rounded one when either is a float. -/
def combine (exact : Int → Int → Int) (rounded : Binary64 → Binary64 → Binary64) :
    Quantity → Quantity → Quantity
  | .int m, .int n => .int (exact m n)
  | a, b => .float (rounded a.toBinary64 b.toBinary64)

instance : Add Quantity := ⟨combine (· + ·) (· + ·)⟩
instance : Sub Quantity := ⟨combine (· - ·) (· - ·)⟩
instance : Mul Quantity := ⟨combine (· * ·) (· * ·)⟩

def half (a : Quantity) : Quantity :=
  .float a.toBinary64.half

/-- Where a quantity stands on the number line: at `m * 2 ^ e`, or beyond either end. -/
inductive Position
  | below
  | at (m e : Int)
  | above
  | nowhere

def position : Quantity → Position
  | .int n => .at n 0
  | .float (.finite s m e) => .at (Binary64.signed s m) e
  | .float (.infinite true) => .below
  | .float (.infinite false) => .above
  | .float .nan => .nowhere

/-- The exact order, without rounding either side. -/
def less (a b : Quantity) : Bool :=
  match a.position, b.position with
  | .at m₁ e₁, .at m₂ e₂ => let (x, y) := Binary64.aligned m₁ e₁ m₂ e₂; x < y
  | .below, .at .. | .below, .above | .at .., .above => true
  | _, _ => false

/-- Exact equality of values, whatever the representation. -/
def same (a b : Quantity) : Bool :=
  match a.position, b.position with
  | .at m₁ e₁, .at m₂ e₂ => let (x, y) := Binary64.aligned m₁ e₁ m₂ e₂; x == y
  | .below, .below | .above, .above => true
  | _, _ => false

/-- The value as an integer, if it is one. -/
def integral? : Quantity → Option Int
  | .int n => some n
  | .float (.finite s m e) =>
    let (num, den) := Binary64.fraction m e
    if num % den = 0 then some (Binary64.signed s (num / den)) else none
  | _ => none

/-- The shortest decimal that reads back as a finite quantity. -/
def decimal? : Quantity → Option Decimal
  | .int n => some ⟨n < 0, n.natAbs, 0⟩
  | .float (.finite s m e) => if m = 0 then some ⟨s, 0, 0⟩ else some { Decimal.shortest m e with negative := s }
  | _ => none

end Quantity
end LiveDiagram
