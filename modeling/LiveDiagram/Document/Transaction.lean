import LiveDiagram.Assoc
import LiveDiagram.Context
import LiveDiagram.Document.Basic

/-! Transactions: edits of a document with a ledger that keeps the first state of every element they touch.
When a transaction commits, the ledger is compared with the document and the listeners hear what changed. A
fault leaves the work done so far in place. -/
namespace LiveDiagram

/-- The first recorded state of each element, `none` for one that was not there. -/
structure Ledger (α : Type) where
  tracking : Bool
  closed : Bool
  before : List (String × Option (Snapshot α))
deriving DecidableEq, Repr

namespace Ledger

def opened (α : Type) (tracking : Bool) : Ledger α := ⟨tracking, false, []⟩

/-- Keeps a state unless one is kept already. -/
def keep {α : Type} (l : Ledger α) (id : String) (state : Option (Snapshot α)) : Ledger α :=
  if l.tracking && !Assoc.contains l.before id then { l with before := l.before ++ [(id, state)] } else l

/-- Whether an element may change: either its first state is kept or none is asked for. -/
def covers {α : Type} (l : Ledger α) (id : String) : Bool :=
  !l.tracking || Assoc.contains l.before id

end Ledger

/-- The changes of all elements in a ledger. -/
abbrev Diff (α : Type) := List (Change α)

namespace Diff
variable {α : Type}

def isAdded (c : Change α) : Bool := c.before.isNone && c.after.isSome

def isRemoved (c : Change α) : Bool := c.before.isSome && c.after.isNone

def isUpdated [Coordinate α] (c : Change α) : Bool :=
  match c.before, c.after with
  | some before, some after => !after.same before
  | _, _ => false

def ids (d : Diff α) : List String := d.map Change.id

def added (d : Diff α) : Diff α := d.filter isAdded

def removed (d : Diff α) : Diff α := d.filter isRemoved

def updated [Coordinate α] (d : Diff α) : Diff α := d.filter isUpdated

/-- The removals, additions and updates of a transaction, without those of which there are none. -/
def sets [Coordinate α] (d : Diff α) : List (ChangeSet α) :=
  [⟨.delete, d.removed⟩, ⟨.add, d.added⟩, ⟨.update, d.updated⟩].filter fun set => !set.changes.isEmpty

end Diff

/-- Puts the changes of a transaction into the history as one step, if there are any. -/
def Document.recordDiff {α : Type} [Coordinate α] (d : Document α) (description : String) (diff : Diff α) :
    Document α :=
  if diff.sets.isEmpty then d else d.record (.compound description diff.sets)

structure Transaction (α : Type) where
  document : Document α
  ledger : Ledger α
  context : Context

/-- Work within a transaction. -/
abbrev Edit (α β : Type) := ExceptT Fault (StateM (Transaction α)) β

namespace Edit
variable {α : Type}

def document : Edit α (Document α) := do return (← get).document

def change (f : Document α → Document α) : Edit α Unit :=
  modify fun t => { t with document := f t.document }

def note (n : Note) : Edit α Unit :=
  modify fun t => { t with context := t.context.note [n] }

def freshId : Edit α String := do
  let t ← get
  let (id, ids) := t.context.ids.draw
  set { t with context := { t.context with ids := ids } }
  return id

/-- The element of an id, which must be there. -/
def element (id : String) : Edit α (Element α) := do
  match (← document).find? id with
  | some e => return e
  | none => throw (.notRegistered id)

def requireOpen : Edit α Unit := do
  if (← get).ledger.closed then throw .alreadyCommitted

def keep (id : String) (state : Option (Snapshot α)) : Edit α Unit := do
  requireOpen
  modify fun t => { t with ledger := t.ledger.keep id state }

/-- Records that an element is about to be added. -/
def recordAbsence (id : String) : Edit α Unit := keep id none

def requireCovered (id : String) (fault : Fault) : Edit α Unit := do
  requireOpen
  if !(← get).ledger.covers id then throw fault

/-- Announces a change of an element, whose state must be recorded. -/
def announceUpdate (e : Element α) : Edit α Unit := requireCovered e.id (.updateUnrecorded e.tag)

/-- Announces the removal of an element, whose state must be recorded. -/
def announceRemoval (e : Element α) : Edit α Unit := requireCovered e.id (.removeUnrecorded e.tag)

variable [Coordinate α]

/-- Records the state of an element. -/
def record (e : Element α) : Edit α Unit := do
  keep e.id (some ((← document).snapshot e))

/-- Records an element and announces that it changes. -/
def touch (e : Element α) : Edit α Unit := do
  record e
  announceUpdate e

/-! Content -/

def update (id : String) (f : Element α → Element α) : Edit α Unit := do
  touch (← element id)
  change (·.modify id f)

def putText (id text : String) : Edit α Unit :=
  update id (·.mapNode fun content => { content with text := text })

def putType (id type : String) : Edit α Unit :=
  update id (·.mapNode fun content => { content with type := type })

def editProps (id : String) (f : Props → Props) : Edit α Unit :=
  update id fun e => { e with props := f e.props }

def editMetadata (id : String) (f : Props → Props) : Edit α Unit :=
  update id fun e => { e with metadata := f e.metadata }

def moveStart (edge : String) (endpoint : Endpoint α) : Edit α Unit := do
  update edge (Element.setStart endpoint)
  change (·.connect edge)

def moveStop (edge : String) (endpoint : Endpoint α) : Edit α Unit := do
  update edge (Element.setStop endpoint)
  change (·.connect edge)

/-! Containment -/

/-- Moves an element; where the move is tracked, the old parent is recorded. -/
def attach (id : String) (parent : Option String) (tracked : Bool) : Edit α Unit := do
  let d ← document
  match if tracked then ((d.find? id).bind Element.parent).bind d.find? else none with
  | some old => touch old
  | none => pure ()
  change (·.attach id parent)

def nest (parent id : String) : Edit α Unit := do
  touch (← element parent)
  attach id (some parent) true

/-- Registers a new element under a parent that is still there, or at the top. -/
def insert (e : Element α) (parent : Option Handle) : Edit α Unit := do
  if (← document).contains e.id then throw (.alreadyExists e.id)
  recordAbsence e.id
  change (·.register e)
  match parent with
  | some parent =>
    if (← document).isLive parent then nest parent.id e.id else throw .parentGone
  | none => change fun d => { d with top := d.top ++ [e.id] }
  change (·.connect e.id)

/-- Frees the ends of an edge that are connected to a node, where they are. -/
def freeEnds (node edge : String) : Edit α Unit := do
  let d ← document
  match (d.find? edge).map Element.content with
  | some (.edge start stop) =>
    if start.isAt node then moveStart edge (.free (d.positionOf start))
    if stop.isAt node then moveStop edge (.free (d.positionOf stop))
  | _ => pure ()

/-- Removes an element and all below it. Other edges that were attached to a removed node keep their ends in
place: an arc to the node frees the end, and an end without one is stranded. -/
def remove (id : String) : Edit α Unit := do
  let e ← element id
  let d ← document
  let doomed := d.subtree id
  let leaving := doomed.filterMap d.find?
  leaving.forM record
  (leaving.filter Element.isNode).forM fun node => do
    let edges := (← document).attachedEdges node.id
    (edges.filter (!doomed.contains ·)).forM (freeEnds node.id)
  match ((← document).find? id).bind Element.parent with
  | some parent => touch (← element parent)
  | none => pure ()
  change (·.detach id)
  leaving.forM announceRemoval
  change (·.unregister doomed)
  note (.removed e.tag (doomed.length - 1))

def removeFrom (parent id : String) : Edit α Unit := do
  let p ← element parent
  let e ← element id
  if e.parent ≠ some parent then throw (.notAChild e.tag p.tag)
  remove id

/-! Labels -/

def changeLabel (id : String) (label : Option (LabelPlacement α)) : Edit α Unit :=
  update id (·.mapNode fun content => { content with label := label })

/-- Makes a node follow an edge, and nests it there. -/
def markLabel (edge id : String) (label : LabelPlacement α) : Edit α Unit := do
  changeLabel id (some label)
  if (← element id).parent ≠ some edge then nest edge id

/-- Makes exactly the given nodes labels of an edge; its other labels stay as plain children. A node that
follows no edge yet is given the standard label. -/
def chooseLabels (standard : LabelPlacement α) (edge : String) (ids : List String) : Edit α Unit := do
  let dropped := ((← document).labelsOf edge).filter (!ids.contains ·.id)
  dropped.forM fun e => changeLabel e.id none
  ids.forM fun id => do
    match (← document).find? id with
    | some e =>
      if e.content.label?.isNone || e.parent ≠ some edge then markLabel edge id (e.content.label?.getD standard)
    | none => pure ()

/-! The end of a transaction -/

/-- Ends the transaction and reports what it changed. -/
def commit : Edit α (Diff α) := do
  requireOpen
  modify fun t => { t with ledger := { t.ledger with closed := true } }
  let t ← get
  let diff : Diff α := t.ledger.before.map fun (id, before) => ⟨id, before, t.document.state? id⟩
  let added := Diff.ids diff.added
  let updated := Diff.ids diff.updated
  let removed := Diff.ids diff.removed
  note (.committed added.length updated.length removed.length)
  if !added.isEmpty then change (·.emit .added added)
  if !updated.isEmpty then change (·.emit .changed updated)
  if !removed.isEmpty then change (·.emit .removed removed)
  return diff

end Edit

/-- A document with the surroundings of the work on it. -/
structure Workspace (α : Type) where
  document : Document α
  context : Context

/-- Work on a document from one transaction to the next. -/
abbrev Work (α β : Type) := ExceptT Fault (StateM (Workspace α)) β

namespace Work
variable {α β : Type}

/-- Runs an edit in a transaction of its own. -/
def transact (tracking : Bool) (edit : Edit α β) : Work α β := fun w =>
  let (result, t) := edit.run ⟨w.document, .opened α tracking, w.context⟩
  (result, ⟨t.document, t.context⟩)

/-- Does work that needs no document. -/
def pass (work : Pass β) : Work α β := fun w =>
  let (result, context) := work.run w.context
  (result, { w with context := context })

def document : Work α (Document α) := do return (← get).document

def change (f : Document α → Document α) : Work α Unit :=
  modify fun w => { w with document := f w.document }

def note (n : Note) : Work α Unit :=
  modify fun w => { w with context := w.context.note [n] }

end Work
end LiveDiagram
