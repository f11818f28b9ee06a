import LiveDiagram.Geometry.Basic

/-! Settings for writing text and for bringing it into a document. -/
namespace LiveDiagram

structure Config (α : Type) where
  indent : String
  /-- Styles that are written as none. -/
  defaultStyles : List String
  nodeSize : α × α
  /-- The ends of a new edge that names no nodes. -/
  freeStart : Point α
  freeStop : Point α
  /-- The ends of a new edge whose names lead to no node. -/
  unresolvedStart : Point α
  unresolvedStop : Point α
  minDistance : α
  labelShape : String
  labelType : String
  labelTime : α
  /-- How far each further paste of the same content moves. -/
  pasteOffset : α

namespace Config
variable {α : Type} [Coordinate α]
open Coordinate

def standard : Config α where
  indent := "  "
  defaultStyles := ["default", "default-text", "default-edge", "default-text-default"]
  nodeSize := (ofNat 100, ofNat 100)
  freeStart := ⟨ofNat 100, ofNat 100⟩
  freeStop := ⟨ofNat 200, ofNat 200⟩
  unresolvedStart := .origin
  unresolvedStop := ⟨ofNat 200, ofNat 200⟩
  minDistance := ofNat 10
  labelShape := "text"
  labelType := "perpendicular"
  labelTime := half (ofNat 1)
  pasteOffset := ofNat 10

end Config
end LiveDiagram
