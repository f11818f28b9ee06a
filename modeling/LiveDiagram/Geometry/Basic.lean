import LiveDiagram.Number.Quantity

/-! Points and upright boxes over any coordinates that can be added, multiplied, halved and compared. -/
namespace LiveDiagram

/-- What geometry asks of its coordinates. -/
class Coordinate (α : Type) extends Add α, Sub α, Mul α, BEq α where
  ofNat : Nat → α
  half : α → α
  less : α → α → Bool

instance : Coordinate Quantity where
  beq := Quantity.same
  ofNat n := .int n
  half := Quantity.half
  less := Quantity.less

namespace Coordinate
variable {α : Type} [Coordinate α]

def greatest (a b : α) : α := if less a b then b else a

def least (a b : α) : α := if less b a then b else a

def size (a : α) : α := if less a (ofNat 0) then ofNat 0 - a else a

end Coordinate

structure Point (α : Type) where
  x : α
  y : α
deriving DecidableEq, Repr

/-- A box with its corner, width, height and rotation. -/
structure Bounds (α : Type) where
  x : α
  y : α
  w : α
  h : α
  r : α
deriving DecidableEq, Repr

variable {α : Type} [Coordinate α]

def Point.same (a b : Point α) : Bool :=
  a.x == b.x && a.y == b.y

def Point.origin : Point α := ⟨Coordinate.ofNat 0, Coordinate.ofNat 0⟩

namespace Bounds

/-- An upright box. -/
def box (x y w h : α) : Bounds α := ⟨x, y, w, h, Coordinate.ofNat 0⟩

def same (a b : Bounds α) : Bool :=
  a.x == b.x && a.y == b.y && a.w == b.w && a.h == b.h && a.r == b.r

def center (b : Bounds α) : Point α :=
  ⟨b.x + Coordinate.half b.w, b.y + Coordinate.half b.h⟩

/-- The box with `amount` more room on every side. -/
def grow (b : Bounds α) (amount : α) : Bounds α :=
  let twice := Coordinate.ofNat 2 * amount
  ⟨b.x - amount, b.y - amount, b.w + twice, b.h + twice, b.r⟩

/-- Whether two boxes share more than their borders; rotation is left out of account. -/
def intersects (a b : Bounds α) : Bool :=
  Coordinate.less a.x (b.x + b.w) && Coordinate.less b.x (a.x + a.w) &&
    Coordinate.less a.y (b.y + b.h) && Coordinate.less b.y (a.y + a.h)

/-- The box spanned by two points. -/
def ofPoints (a b : Point α) : Bounds α :=
  box (Coordinate.least a.x b.x) (Coordinate.least a.y b.y) (Coordinate.size (a.x - b.x))
    (Coordinate.size (a.y - b.y))

end Bounds
end LiveDiagram
