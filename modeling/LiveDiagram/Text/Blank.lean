import LiveDiagram.Text.Boundaries

/-! Blank characters, and trimming them from the ends of a text. -/
namespace LiveDiagram.Text

/-- Boundaries of the space separators, the line and paragraph separators, and the controls that separate
lines, pages and records. -/
def blankBoundaries : List Nat :=
  [9, 14, 28, 33, 133, 134, 160, 161, 5760, 5761, 8192, 8203, 8232, 8234, 8239, 8240, 8287, 8288, 12288, 12289]

def isBlank (c : Char) : Bool :=
  within blankBoundaries c.toNat

/-- The text without the blanks at its two ends. -/
def trim (text : List Char) : List Char :=
  ((text.dropWhile isBlank).reverse.dropWhile isBlank).reverse

end LiveDiagram.Text
