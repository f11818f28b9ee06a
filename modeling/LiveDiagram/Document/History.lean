import LiveDiagram.Document.Transaction

/-! Going back and forth in the history of a document. Undoing an action brings the elements that it changed
back to their states before it, redoing it to those after it. -/
namespace LiveDiagram

/-- States to reach, `none` for absence. -/
abbrev States (α : Type) := List (String × Option (Snapshot α))

namespace ChangeSet
variable {α : Type}

def before (set : ChangeSet α) : States α := set.changes.map fun c => (c.id, c.before)

def after (set : ChangeSet α) : States α := set.changes.map fun c => (c.id, c.after)

def description (set : ChangeSet α) : String :=
  match set.kind with
  | .delete => "Delete elements"
  | .add => "Add elements"
  | .update => "Update elements"

def name (set : ChangeSet α) : String :=
  match set.kind with
  | .delete => "ElementDeleteAction"
  | .add => "ElementAddAction"
  | .update => "SnapshotUpdateAction"

end ChangeSet

namespace Action
variable {α : Type}

/-- The states of several sets in one map; of two states of one element the later one counts. -/
def merged (part : ChangeSet α → States α) (sets : List (ChangeSet α)) : States α :=
  sets.foldl (fun all set => Assoc.putAll all (part set)) []

def before : Action α → States α
  | single set => set.before
  | compound _ sets => merged ChangeSet.before sets

def after : Action α → States α
  | single set => set.after
  | compound _ sets => merged ChangeSet.after sets

def description : Action α → String
  | single set => set.description
  | compound description _ => description

/-- How an action is shown when it has been undone or redone. -/
def report : Action α → String
  | single set =>
    let ids := (set.changes.map Change.id).mergeSort
    set.name ++ "(" ++ Text.literal set.description ++ ", [" ++ ", ".intercalate (ids.map Text.literal) ++ "])"
  | compound description _ => description

end Action

namespace Document
variable {α : Type}

/-- The end of an edge that a state asks for. Where the node is gone, the end is free at its recorded place. -/
def endFrom (d : Document α) (s : EndpointState α) : Endpoint α :=
  match s.link with
  | some (node, anchor) => if (d.node? node).isSome then .connected node anchor else .free s.position
  | none => .free s.position

end Document

namespace Edit
variable {α : Type}

/-- An element in the shape that a state asks for, to be filled in later. -/
def blank (s : Snapshot α) : Element α :=
  .new s.id (match s.content with
    | .node content => .node { content with text := "", label := none }
    | .edge start stop => .edge (.free start.position) (.free stop.position)) .nil .nil

/-- Gives an element the props, metadata and node content of a state. A node cannot take the state of an
edge. -/
def fill (s : Snapshot α) : Edit α Unit := do
  change (·.modify s.id fun e => { e with props := s.props, metadata := s.metadata })
  match ((← document).find? s.id).map Element.content, s.content with
  | some (.node _), .node content => change (·.modify s.id (·.mapNode fun _ => content))
  | some (.node _), .edge .. => throw (.missingField "node_type")
  | _, _ => pure ()

/-- Makes sure that the element of a state exists, a new one at the top, and fills it in. -/
def revive (s : Snapshot α) : Edit α Unit := do
  if !(← document).contains s.id then
    change fun d => let d := d.register (blank s); { d with top := d.top ++ [s.id] }
  fill s

/-- Moves an element to the parent of its state, or to the top when that parent is not there. -/
def settle (s : Snapshot α) : Edit α Unit := do
  let d ← document
  let parent := s.parent.filter d.contains
  if ((d.find? s.id).bind Element.parent) ≠ parent || (parent.isNone && !d.top.contains s.id) then
    change (·.attach s.id parent)

/-- Puts the children of an element in the order of its state, further ones last. -/
def arrange (s : Snapshot α) : Edit α Unit := do
  let d ← document
  let ordered := s.children.filter fun id => ((d.find? id).bind Element.parent) = some s.id
  change (·.modify s.id fun e =>
    { e with children := ordered ++ e.children.filter (!ordered.contains ·) })

/-- Gives an edge the ends of its state. An edge cannot take the state of a node. -/
def rejoin (s : Snapshot α) : Edit α Unit := do
  let d ← document
  match (d.find? s.id).map Element.content, s.content with
  | some (.edge ..), .edge start stop =>
    change (·.modify s.id fun e => { e with content := .edge (d.endFrom start) (d.endFrom stop) })
    change (·.connect s.id)
  | some (.edge ..), .node _ => throw (.missingField "start")
  | _, _ => pure ()

variable [Coordinate α]

def removeIfPresent (id : String) : Edit α Unit := do
  if (← document).contains id then remove id

/-- Brings elements to the given states in one step, and tells the listeners. -/
def restore (states : States α) : Edit α Unit := do
  (states.filter (·.2.isNone)).forM fun (id, _) => removeIfPresent id
  let present := states.filterMap Prod.snd
  present.forM revive
  present.forM settle
  present.forM arrange
  present.forM rejoin
  change (·.emit .restored (states.map Prod.fst))

end Edit

namespace Work
variable {α : Type} [Coordinate α]

/-- Undoes the latest action, if there is one. An action that fails is struck from the history. -/
def undo : Work α (Option (Action α)) := do
  match (← document).history.undoable with
  | [] => return none
  | action :: rest =>
    change fun d => { d with history := { d.history with undoable := rest } }
    transact false (Edit.restore action.before)
    change fun d => { d with history := { d.history with redoable := action :: d.history.redoable } }
    return some action

/-- Redoes the action that was undone last, if there is one. -/
def redo : Work α (Option (Action α)) := do
  match (← document).history.redoable with
  | [] => return none
  | action :: rest =>
    change fun d => { d with history := { d.history with redoable := rest } }
    transact false (Edit.restore action.after)
    change fun d => { d with history := { d.history with undoable := action :: d.history.undoable } }
    return some action

end Work
end LiveDiagram
