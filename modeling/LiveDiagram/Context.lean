import LiveDiagram.Note

/-! The surroundings of a pass: a supply of fresh ids and the notes left so far. Both outlive a fault. -/
namespace LiveDiagram

/-- An endless supply of ids, of which the first `used` are gone. -/
structure IdSupply where
  name : Nat → String
  used : Nat

namespace IdSupply

def draw (ids : IdSupply) : String × IdSupply :=
  (ids.name ids.used, { ids with used := ids.used + 1 })

end IdSupply

structure Context where
  ids : IdSupply
  /-- The notes so far, in order. -/
  notes : List Note

namespace Context

def note (context : Context) (more : List Note) : Context :=
  { context with notes := context.notes ++ more }

end Context

/-- Work that may draw ids, leave notes and stop with a fault. -/
abbrev Pass (β : Type) := ExceptT Fault (StateM Context) β

end LiveDiagram
