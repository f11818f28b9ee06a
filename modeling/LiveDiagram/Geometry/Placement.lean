import LiveDiagram.Geometry.Basic

/-! Free places for new boxes: near a reference box, and away from all that are there already. -/
namespace LiveDiagram.Placement

variable {α : Type} [Coordinate α]

/-- The places right of, below, left of and above the reference, at a distance. -/
def beside (w h : α) (reference : Bounds α) (distance : α) : List (Bounds α) :=
  [.box (reference.x + reference.w + distance) reference.y w h,
   .box reference.x (reference.y + reference.h + distance) w h,
   .box (reference.x - w - distance) reference.y w h,
   .box reference.x (reference.y - h - distance) w h]

/-- Whether a box keeps its distance from all others. -/
def isFree (taken : List (Bounds α)) (distance : α) (candidate : Bounds α) : Bool :=
  !taken.any (candidate.grow distance).intersects

/-- The boxes to keep away from: the given ones and the reference. -/
def obstacles (taken : List (Bounds α)) (reference : Bounds α) : List (Bounds α) :=
  if taken.any (·.same reference) then taken else taken ++ [reference]

/-- The right edge that lies furthest to the right. -/
def rightmost (first : Bounds α) (others : List (Bounds α)) : α :=
  others.foldl (fun edge b => Coordinate.greatest edge (b.x + b.w)) (first.x + first.w)

/-- A place right of everything, in the row of the reference. -/
def fallback (w h : α) (reference : Bounds α) (taken : List (Bounds α)) (distance : α) : Bounds α :=
  match taken with
  | [] => .box (reference.x + reference.w + distance) reference.y w h
  | first :: others => .box (rightmost first others + distance) reference.y w h

/-- The first free candidate of `rings` rings, each further out than the one before, or else the fallback. -/
def place (w h : α) (reference : Bounds α) (taken : List (Bounds α)) (distance : α) (rings : Nat) : Bounds α :=
  let all := obstacles taken reference
  let step := Coordinate.greatest w h + distance
  let found := (List.range rings).findSome? fun ring =>
    (beside w h reference (distance + Coordinate.ofNat ring * step)).find? (isFree all distance)
  found.getD (fallback w h reference all distance)

/-- How many rings are searched unless told otherwise. -/
def standardRings : Nat := 50

end LiveDiagram.Placement
