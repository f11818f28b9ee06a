import LiveDiagram.Document.Labels
import LiveDiagram.Geometry.Placement
import LiveDiagram.Source.Forest
import LiveDiagram.Props.Merge

/-! Bringing a forest into a document. One pass is one transaction and one step of the history: what the forest
leaves out at the top is removed, known ids are updated in place, and unknown ids are created. -/
namespace LiveDiagram

/-- The ids that a pass added, updated and removed. -/
structure Outcome where
  added : List String
  updated : List String
  removed : List String
deriving DecidableEq, Repr

namespace Outcome

def changed (o : Outcome) : Bool :=
  !(o.added.isEmpty && o.updated.isEmpty && o.removed.isEmpty)

end Outcome

/-- A text that is there and not empty. -/
def spoken (text : Option String) : Option String :=
  text.filter fun t => !t.isEmpty

/-- A dictionary that is there and not empty. -/
def filled (p : Option Props) : Option Props :=
  p.filter fun p => !p.isEmpty

namespace Declaration

def textStyle (d : Declaration) : Option String :=
  match d.head with
  | .node _ _ textStyle => textStyle
  | .edge .. => none

end Declaration

namespace Reconcile
variable {α : Type} [Coordinate α]

def withText (key : String) (text : Option String) (metadata : Props) : Props :=
  (spoken text).elim metadata fun t => metadata.set key (.scalar (.text t))

/-- The styles of a declaration set in metadata. -/
def styled (d : Declaration) (metadata : Props) : Props :=
  withText "textStyle" d.textStyle (withText "style" d.style metadata)

/-- Brings metadata and styles of a declaration to an element. -/
def mergeStyles (id : String) (d : Declaration) : Edit α Unit := do
  match filled d.metadata with
  | some metadata => Edit.editMetadata id (·.overlay metadata)
  | none => pure ()
  match spoken d.style with
  | some _ => Edit.editMetadata id (withText "style" d.style)
  | none => pure ()
  match spoken d.textStyle with
  | some _ => Edit.editMetadata id (withText "textStyle" d.textStyle)
  | none => pure ()

def mergeProps (id : String) (d : Declaration) : Edit α Unit :=
  match filled d.props with
  | some props => Edit.editProps id (·.merge true props)
  | none => pure ()

/-- The node of a name, if it leads to one. -/
def nodeNamed (name : Option String) : Edit α (Option String) := do
  let d ← Edit.document
  return (name.bind d.node?).map Element.id

def reviseNode (e : Element α) (content : NodeContent α) (d : Declaration) (shape : String)
    (name : Option String) : Edit α Unit := do
  Edit.note (.updating e.tag)
  Edit.record e
  if shape ≠ content.type then Edit.putType e.id shape
  match name with
  | some name => if name ≠ content.text then Edit.putText e.id name
  | none => pure ()
  mergeProps e.id d
  mergeStyles e.id d

/-- Removes the labels of an edge that the text does not list. -/
def dropLabels (edge : String) (listed : List String) : Edit α Unit := do
  let labels := (← Edit.document).labelsOf edge
  if !labels.isEmpty then
    let (kept, dropped) := labels.partition (listed.contains ·.id)
    dropped.forM fun label => Edit.remove label.id
    Edit.chooseLabels .standard edge (kept.map Element.id)

/-- Updates an edge. A name that leads to no node leaves its end as it is. -/
def reviseEdge (config : Config α) (e : Element α) (d : Declaration) (source target label : Option String)
    (listed : List String) : Edit α Unit := do
  Edit.note (.updating e.tag)
  Edit.record e
  mergeProps e.id d
  mergeStyles e.id d
  match ← nodeNamed source with
  | some node => Edit.moveStart e.id (.atCenter node)
  | none => pure ()
  match ← nodeNamed target with
  | some node => Edit.moveStop e.id (.atCenter node)
  | none => pure ()
  match label with
  | some text => discard (Edit.putLabel config e.id text listed)
  | none => dropLabels e.id listed

/-- Where a new node goes: next to the last topmost node that the pass met, or to the middle of the
document. -/
def newBounds (config : Config α) (d : Document α) (reference : Option (Bounds α)) : Bounds α :=
  let (w, h) := config.nodeSize
  match reference with
  | some reference => Placement.place w h reference d.obstacles config.minDistance Placement.standardRings
  | none =>
    let center := d.bounds.center
    .box (center.x - Coordinate.half w) (center.y - Coordinate.half h) w h

/-- An end of a new edge. -/
def newEnd (name : Option String) (free unresolved : Point α) : Edit α (Endpoint α) := do
  match name with
  | none => return .free free
  | some name =>
    match ← nodeNamed (some name) with
    | some node => return .atCenter node
    | none =>
      Edit.note (.unresolved name)
      return .free unresolved

/-- Creates the element of a declaration under a parent or at the top. -/
def create (config : Config α) (parent : Option Handle) (reference : Option (Bounds α)) (d : Declaration) :
    Edit α Unit := do
  let props := d.props.getD .nil
  let metadata := styled d (d.metadata.getD .nil)
  Edit.note (.creating d.tag)
  match d.head with
  | .node shape name _ =>
    let bounds := newBounds config (← Edit.document) reference
    Edit.insert (.new d.id (.node ⟨shape, bounds, name.getD "", none⟩) props metadata) parent
    match parent with
    | some parent =>
      if ((← Edit.document).find? parent.id).any Element.isEdge then Edit.markLabel parent.id d.id config.label
    | none => pure ()
  | .edge source target label =>
    let start ← newEnd source config.freeStart config.unresolvedStart
    let stop ← newEnd target config.freeStop config.unresolvedStop
    Edit.insert (.new d.id (.edge start stop) props metadata) parent
    match label with
    | some text => discard (Edit.putLabel config d.id text [])
    | none => pure ()

/-- Updates or creates the element of one declaration and gives its handle, or nothing when the id belongs to
an element of the other kind. -/
def visitOne (config : Config α) (parent : Option Handle) (reference : Option (Bounds α)) (d : Declaration)
    (listed : List String) : Edit α (Option Handle) := do
  match (← Edit.document).find? d.id with
  | none =>
    create config parent reference d
    return some (← Edit.element d.id).handle
  | some e =>
    match d.head, e.content with
    | .node shape name _, .node content =>
      reviseNode e content d shape name
      return some e.handle
    | .edge source target label, .edge .. =>
      reviseEdge config e d source target label listed
      return some e.handle
    | _, _ =>
      Edit.note (.kindChanged d.id)
      return none

/-- The bounds that the next new node is placed by, once the pass went through an element. -/
def nextReference (d : Document α) (id : String) (reference : Option (Bounds α)) : Option (Bounds α) :=
  match d.find? id with
  | some e => match e.content, e.parent with
    | .node content, none => some content.bounds
    | _, _ => reference
  | none => reference

/-- Goes through a forest in order, each declaration before its children. -/
def visit (config : Config α) (parent : Option Handle) (reference : Option (Bounds α)) :
    Forest → Edit α (Option (Bounds α))
  | .nil => return reference
  | .cons d children rest => do
    match ← visitOne config parent reference d (children.roots.map Declaration.id) with
    | none => visit config parent reference rest
    | some handle =>
      let reference := nextReference (← Edit.document) d.id reference
      let reference ← visit config (some handle) reference children
      visit config parent reference rest

/-- Removes the topmost elements whose ids are not given. -/
def removeOthers (ids : List String) : Edit α Unit := do
  let others := (← Edit.document).top.filter (!ids.contains ·)
  others.forM fun id => do
    Edit.note (.removing id)
    Edit.remove id

/-- The edits of one pass. -/
def pass (config : Config α) (f : Forest) : Edit α (Diff α) := do
  removeOthers (f.linesById.map Prod.fst)
  discard (visit config none none f)
  Edit.commit

/-- Takes what a pass removed out of the selection, and puts the pass into the history. -/
def conclude (diff : Diff α) (d : Document α) : Document α :=
  let removed := Diff.ids diff.removed
  let d := { d with selection := d.selection.filter (!removed.contains ·.id) }
  d.recordDiff "Update diagram" diff

end Reconcile

namespace Work
variable {α : Type} [Coordinate α]

/-- Brings a forest into the document as one step that can be undone. -/
def reconcile (config : Config α) (f : Forest) : Work α Outcome := do
  let diff ← transact true (Reconcile.pass config f)
  change (Reconcile.conclude diff)
  let outcome : Outcome :=
    { added := (Diff.ids diff.added).mergeSort
      updated := (Diff.ids diff.updated).mergeSort
      removed := (Diff.ids diff.removed).mergeSort }
  note (.reconciled f.linesById.length outcome.added.length outcome.updated.length outcome.removed.length)
  return outcome

end Work
end LiveDiagram
