/-! Sets of code points given by their boundaries. -/
namespace LiveDiagram.Text

/-- Membership in the set whose boundaries are listed in ascending order: it holds from the first boundary
up to the second, from the third up to the fourth, and so on. -/
def within (boundaries : List Nat) (code : Nat) : Bool :=
  (boundaries.takeWhile (· ≤ code)).length % 2 == 1

end LiveDiagram.Text
