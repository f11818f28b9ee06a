import LiveDiagram.Props.Basic

/-! Merging dictionaries key by key. Two dictionaries under one key are merged in turn; otherwise `override`
decides whether the new value replaces the old one. -/
namespace LiveDiagram.Props

/-- Whether a dictionary may take the place of what a key holds now: nothing and null always give way. -/
def givesWay (override : Bool) : Option Value → Bool
  | none => true
  | some (.scalar .null) => true
  | _ => override

/-- Merges the second dictionary into the first. -/
def merge (override : Bool) (target : Props) : Props → Props
  | nil => target
  | leaf k v rest =>
    let next := if !target.contains k || override then target.set k (.scalar v) else target
    next.merge override rest
  | node k sub rest =>
    let next := match target.get? k with
      | some (.dict current) => target.set k (.dict (current.merge override sub))
      | other => if givesWay override other then target.set k (.dict (nil.merge override sub)) else target
    next.merge override rest

end LiveDiagram.Props
