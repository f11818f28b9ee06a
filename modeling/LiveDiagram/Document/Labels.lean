import LiveDiagram.Config
import LiveDiagram.Document.Transaction

/-! The inline label of an edge: the text that stands on the line of the edge itself. -/
namespace LiveDiagram

variable {α : Type} [Coordinate α]

/-- How a label follows its edge when nothing else is said. -/
def LabelPlacement.standard : LabelPlacement α :=
  ⟨"perpendicular", .origin, Coordinate.half (Coordinate.ofNat 1)⟩

def Config.label (config : Config α) : LabelPlacement α :=
  ⟨config.labelType, .origin, config.labelTime⟩

namespace Edit

/-- Makes `text` the single inline label of an edge. Labels in `keep` are left alone. Of the others a lone one is
reused; several are removed, and one fresh node takes their place. -/
def putLabel (config : Config α) (edge text : String) (keep : List String) : Edit α String := do
  let e ← element edge
  if e.isNode then throw .notAnEdge
  let d ← document
  let bounds := d.boundsOf e
  match (d.labelsOf edge).filter (!keep.contains ·.id) with
  | [label] =>
    putText label.id text
    return label.id
  | labels =>
    if !labels.isEmpty then
      labels.forM fun label => remove label.id
      let kept := ((← document).labelsOf edge).filter (keep.contains ·.id)
      chooseLabels .standard edge (kept.map Element.id)
    let id ← freshId
    insert (.new id (.node ⟨config.labelShape, bounds, text, none⟩) .nil .nil) (some e.handle)
    markLabel edge id config.label
    return id

end Edit
end LiveDiagram
